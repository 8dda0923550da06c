import BlobRelay.BlobStore

/-! # The service is the store

What the session table, the index, the usage counter and the files of the store directory
hold is a `BlobStore`, and every call answers as the store does and keeps it so. -/

namespace BlobRelay
open Std Foundation Foundation.FileStore

/-- The session has an entry for the blob, under its upload path, whose file has these bytes. -/
def Holds (cfg : Config) (w : World) (s b : ℕ) (blob : StoredBlob) : Prop :=
  w.manager.Entry s b (uploadPath cfg b, blob.size) ∧
    w.files.contents (uploadPath cfg b) = blob.bytes

structure Represents (cfg : Config) (w : World) (st : BlobStore) : Prop where
  history : HistoryInv cfg w []
  sessionIds : w.manager.sessionId = st.sessionIds
  blobIds : w.manager.blobId = st.blobIds
  used : w.manager.recordedTotal = st.used
  within : cfg.quota ≠ 0 → st.used ≤ cfg.quota
  session : ∀ s t, w.manager.Owner s t ↔ st.session s = some t
  byTransaction : ∀ u, w.manager.blobSessionIds[u]? = st.byTransaction u
  paths : ∀ s b e, w.manager.Entry s b e → e.1 = uploadPath cfg b
  blob : ∀ s b blob, Holds cfg w s b blob ↔ st.blob s b = some blob

variable {cfg : Config} {w w' : World} {st : BlobStore} {s b : ℕ}

theorem HistoryInv.forget {uploads : List (ℕ × Path)} (h : HistoryInv cfg w uploads) :
    HistoryInv cfg w [] :=
  ⟨h.world, h.counted, h.attached, h.paths, fun _ _ hp => absurd hp List.not_mem_nil⟩

namespace Represents

theorem live_iff (h : Represents cfg w st) : w.manager.Live s ↔ (st.session s).isSome = true := by
  rw [Option.isSome_iff_exists]
  constructor
  · rintro ⟨impl, hs⟩
    exact ⟨_, (h.session s _).mp ⟨impl, hs, rfl⟩⟩
  · rintro ⟨t, ht⟩
    exact ((h.session s t).mpr ht).live

theorem holds (h : Represents cfg w st) {e : Path × ℕ} (he : w.manager.Entry s b e) :
    st.blob s b = some ⟨e.2, w.files.contents (uploadPath cfg b)⟩ := by
  refine (h.blob s b _).mp ⟨?_, rfl⟩
  rw [← h.paths s b e he]
  exact he

theorem entry_iff (h : Represents cfg w st) : (∃ e, w.manager.Entry s b e) ↔
    (st.blob s b).isSome = true := by
  rw [Option.isSome_iff_exists]
  constructor
  · rintro ⟨e, he⟩
    exact ⟨_, h.holds he⟩
  · rintro ⟨blob, hblob⟩
    exact ⟨_, ((h.blob s b blob).mpr hblob).1⟩

theorem blob_ids (h : Represents cfg w st) {blob : StoredBlob} (hblob : st.blob s b = some blob) :
    1 ≤ b ∧ b ≤ st.blobIds := by
  have hle := h.history.world.blobIds _ _ _ ((h.blob s b blob).mpr hblob).1
  rwa [h.blobIds] at hle

theorem fresh (h : Represents cfg w st) (s : ℕ) : st.blob s (st.blobIds + 1) = none := by
  refine Option.eq_none_iff_forall_ne_some.mpr fun blob hblob => ?_
  have hle := (h.blob_ids hblob).2
  omega

/-! ### A blob goes -/

theorem erases {e : Path × ℕ} (h : Represents cfg w st) (her : World.Erases cfg s b e w w') :
    Represents cfg w' (st.drop s b) := by
  have hblob := h.holds her.found
  have hdrop : st.drop s b = {st with
      used := st.used - e.2
      blob := fun r c => if r = s ∧ c = b then none else st.blob r c} := by
    simp only [BlobStore.drop, hblob]
  have hrec := her.recorded
  rw [h.used] at hrec
  rw [hdrop]
  refine ⟨(h.history.erases her).forget, her.sessions.sessionId.trans h.sessionIds,
    her.blobId.trans h.blobIds, by dsimp only; omega, fun hq => ?_, fun r t => ?_, fun u => ?_,
    fun r c e' he => h.paths r c e' ((her.entry r c e').mp he).1, fun r c blob => ?_⟩
  · have hle := h.within hq
    dsimp only
    omega
  · exact (her.sessions.owner r t).trans (h.session r t)
  · rw [her.sessions.index]
    exact h.byTransaction u
  · simp only [Holds, her.entry]
    by_cases hrc : r = s ∧ c = b
    · simp only [hrc, and_self, not_true_eq_false, and_false, false_and, if_true, reduceCtorEq]
    · rw [if_neg hrc, ← h.blob, Holds]
      simp only [hrc, not_false_eq_true, and_true]
      refine and_congr_right fun he => ?_
      -- another blob's file has another name
      have hne : e.1 ≠ uploadPath cfg c := by
        intro heq
        rw [h.paths s b e her.found] at heq
        obtain rfl := uploadPath_injective cfg heq
        exact hrc ⟨h.history.world.disjoint _ _ _ _ _ he her.found, rfl⟩
      rw [(sameAt_erases her hne).2]

theorem deleteEach (h : Represents cfg w st) (hl : w.manager.Live s) (k : ℕ) (ids : List ℕ) :
    ∃ w', BlobRelay.deleteEach cfg s (fun _ => .succeeds) k ids w = some (.ok (), w') ∧
      Represents cfg w' (ids.foldl (BlobStore.drop s) st) := by
  induction ids generalizing k w st with
  | nil => exact ⟨w, rfl, h⟩
  | cons b rest ih =>
    obtain ⟨r, w₁, hr⟩ := World.deleteBlobFile_of_live cfg hl b .succeeds
    rcases World.deleteBlobFile_cases hr with
      ⟨rfl, rfl, _, hnone⟩ | ⟨e, rfl, her⟩ | ⟨_, _, _, hfail, _⟩
    · have hgone : st.blob s b = none := by
        rw [← Option.not_isSome_iff_eq_none, ← h.entry_iff]
        exact fun ⟨e, he⟩ => hnone e he
      have hsame : st.drop s b = st := by simp only [BlobStore.drop, hgone]
      obtain ⟨w', hrest, hlast⟩ := ih h hl (k + 1)
      refine ⟨w', by simp only [BlobRelay.deleteEach, hr, hrest], ?_⟩
      rw [List.foldl_cons, hsame]
      exact hlast
    · obtain ⟨w', hrest, hlast⟩ := ih (h.erases her) ((her.sessions.live s).mpr hl) (k + 1)
      exact ⟨w', by simp only [BlobRelay.deleteEach, hr, hrest], hlast⟩
    · exact absurd rfl hfail

/-! ### Sessions -/

theorem create (h : Represents cfg w st) (hroom : Headroom w) (t : Option TransactionId) :
    (w.manager.createSession t).1 = st.sessionIds + 1 ∧
      Represents cfg {w with manager := (w.manager.createSession t).2} (st.create t) := by
  have hid : add64 w.manager.sessionId 1 = st.sessionIds + 1 := by
    rw [add64_of_lt hroom.2, h.sessionIds]
  have hnew : ¬ w.manager.Live (add64 w.manager.sessionId 1) := by
    intro hl
    have hle := (h.history.world.sessionIds _ hl).2
    rw [hid, h.sessionIds] at hle
    omega
  have hhistory : HistoryInv cfg {w with manager := (w.manager.createSession t).2} [] :=
    h.history.envStep (a := .createSession t) hroom (fun s path ha => by cases ha) rfl
  refine ⟨hid, hhistory, hid, h.blobIds,
    (BlobSessionManager.recordedTotal_createSession t).trans h.used, h.within, fun s u => ?_,
    fun u => ?_, fun s b e he => ?_, fun s b blob => ?_⟩
  · rw [BlobSessionManager.owner_createSession hnew, hid, h.session]
    by_cases hs : s = st.sessionIds + 1
    · subst hs
      have hnone : st.session (st.sessionIds + 1) ≠ some u := fun hu =>
        hnew (hid ▸ ((h.session _ u).mpr hu).live)
      simp only [hnone, true_and, false_or, BlobStore.create, Function.update_self,
        Option.some.injEq, eq_comm]
    · simp only [hs, false_and, or_false, BlobStore.create, Function.update_of_ne, ne_eq,
        not_false_eq_true]
  · rw [BlobSessionManager.index_createSession, hid, h.byTransaction]
    rfl
  · exact h.paths s b e ((BlobSessionManager.entry_createSession t).mp he)
  · rw [Holds, BlobSessionManager.entry_createSession]
    exact h.blob s b blob

theorem entries (h : Represents cfg w st) {impl : BlobSessionImpl}
    (hs : w.manager.blobSessions[s]? = some impl) : impl.entries = st.listed s := by
  have hmem : ∀ b, (∃ e, impl.blobs[b]? = some e) ↔ (st.blob s b).isSome = true := by
    intro b
    rw [← h.entry_iff]
    simp only [BlobSessionManager.Entry, hs, Option.some.injEq, exists_eq_left']
  refine OrderedMap.keys_eq ?_ fun b => ?_
  · exact (List.Pairwise.filter _ List.pairwise_lt_range').imp Nat.compare_eq_lt.mpr
  · rw [BlobStore.listed, List.mem_filter, List.mem_range'_1, hmem, and_iff_right_iff_imp]
    intro hsome
    obtain ⟨blob, hblob⟩ := Option.isSome_iff_exists.mp hsome
    have hle := h.blob_ids hblob
    omega

theorem dispose (h : Represents cfg w st) (hl : w.manager.Live s) :
    ∃ w', BlobSession.dispose cfg s (fun _ => .succeeds) w = some (.ok (), w') ∧
      Represents cfg w' (st.close s) := by
  obtain ⟨impl, hs⟩ := hl
  obtain ⟨w₁, hdel, hrep⟩ := h.deleteEach ⟨impl, hs⟩ 0 impl.entries
  obtain ⟨w₂, hdel', hdels, hgone⟩ : ∃ w₂, BlobRelay.deleteEach cfg s (fun _ => .succeeds) 0
      impl.entries w = some (.ok (), w₂) ∧ Deletions cfg s impl.entries w w₂ ∧
      ∀ b ∈ impl.entries, ∀ e, ¬ w₂.manager.Entry s b e :=
    deleteEach_spec cfg (fun _ => rfl) ⟨impl, hs⟩ 0 impl.entries
  rw [hdel] at hdel'
  cases hdel'
  have hnone : ∀ b e, ¬ w₁.manager.Entry s b e := by
    intro b e he
    obtain ⟨impl', hs', hb⟩ := hdels.entry_of_entry he
    obtain rfl := Option.some.inj (hs.symm.trans hs')
    exact hgone b ((OrderedMap.mem_keys_iff _ _).mpr ⟨e, hb⟩) e he
  refine ⟨{w₁ with manager := w₁.manager.dispose s}, ?_, ?_⟩
  · simp only [BlobSession.dispose, BlobSessionManager.getSessionImpl_of_some hs, hdel]
  rw [h.entries hs] at hrep
  refine ⟨hrep.history.disposed hnone, BlobSessionManager.sessionId_dispose.trans hrep.sessionIds,
    BlobSessionManager.blobId_dispose.trans hrep.blobIds, ?_, hrep.within, fun r t => ?_,
    fun u => ?_, fun r b e he => ?_, fun r b blob => ?_⟩
  · exact (recordedTotal_dispose_empty hnone).trans hrep.used
  · rw [BlobSessionManager.owner_dispose, hrep.session, BlobStore.session_drops]
    by_cases hr : r = s
    · subst hr
      simp only [ne_eq, not_true_eq_false, and_false, BlobStore.close, Function.update_self,
        reduceCtorEq]
    · simp only [ne_eq, hr, not_false_eq_true, and_true, BlobStore.close, Function.update_of_ne hr]
  · have howner : w₁.manager.Owner s (some u) ↔ st.session s = some (some u) := by
      rw [hrep.session, BlobStore.session_drops]
    have hindex : w₁.manager.blobSessionIds[u]? = st.byTransaction u := by
      rw [hrep.byTransaction, BlobStore.byTransaction_drops]
    rcases BlobSessionManager.index_dispose (m := w₁.manager) (s := s) u with
      ⟨hforgotten, ho⟩ | ⟨hsame, ho⟩
    · exact hforgotten.trans (if_pos (howner.mp ho)).symm
    · exact hsame.trans (hindex.trans (if_neg fun hu => ho (howner.mpr hu)).symm)
  · exact hrep.paths r b e (BlobSessionManager.entry_dispose.mp he).1
  · have hkept : ∀ e, (w₁.manager.dispose s).Entry r b e ↔ w₁.manager.Entry r b e := by
      intro e
      rw [BlobSessionManager.entry_dispose, and_iff_left_iff_imp]
      rintro he rfl
      exact hnone b e he
    rw [Holds, hkept]
    exact hrep.blob r b blob

/-! ### A blob comes -/

/-- An upload leaves a blob of its size, and the bytes are what its file holds in the end. -/
theorem kept {chunks : List Bytes} (fs : Files) (h : Represents cfg w st)
    (hup : Uploaded cfg .calm s chunks w w') (hhistory : HistoryInv cfg ⟨w'.manager, fs⟩ [])
    (hothers : ∀ q, q ≠ uploadPath cfg (w.manager.blobId + 1) → fs.contents q = w'.files.contents q)
    (hlt : chunks.flatten.length < 2^64)
    (hwithin : cfg.quota ≠ 0 → st.used + chunks.flatten.length ≤ cfg.quota) :
    Represents cfg ⟨w'.manager, fs⟩ (st.keep s
      ⟨chunks.flatten.length, fs.contents (uploadPath cfg (w.manager.blobId + 1))⟩) := by
  rw [← totalLength_eq] at hlt hwithin ⊢
  have hsize : totalLength chunks % 2^64 = totalLength chunks := Nat.mod_eq_of_lt hlt
  refine ⟨hhistory, hup.sessions.sessionId.trans h.sessionIds, ?_, ?_, hwithin, fun r t => ?_,
    fun u => ?_, fun r c e he => ?_, fun r c blob => ?_⟩
  · exact hup.blobId.trans (congrArg (· + 1) h.blobIds)
  · dsimp only [BlobStore.keep]
    rw [hup.recorded, hsize, h.used]
  · exact (hup.sessions.owner r t).trans (h.session r t)
  · exact (congrArg (·[u]?) hup.sessions.index).trans (h.byTransaction u)
  · rcases (hup.entry r c e).mp he with hold | ⟨_, rfl, rfl⟩
    · exact h.paths r c e hold
    · rfl
  · have hentry := hup.entry r c (uploadPath cfg c, blob.size)
    rw [hsize, h.blobIds] at hentry
    rw [Holds, hentry, h.blobIds]
    dsimp only [BlobStore.keep]
    by_cases hrc : r = s ∧ c = st.blobIds + 1
    · obtain ⟨rfl, rfl⟩ := hrc
      have hnew : ¬ w.manager.Entry r (st.blobIds + 1)
          (uploadPath cfg (st.blobIds + 1), blob.size) := fun he => by
        have hnone := h.fresh r
        rw [h.holds he] at hnone
        cases hnone
      obtain ⟨size, bytes⟩ := blob
      simp only [hnew, false_or, true_and, and_self, if_true, Option.some.injEq, Prod.mk.injEq,
        StoredBlob.mk.injEq, eq_comm]
    · rw [if_neg hrc, ← h.blob, Holds]
      have hother : ¬ (r = s ∧ c = st.blobIds + 1 ∧ (uploadPath cfg c, blob.size) =
          (uploadPath cfg (st.blobIds + 1), totalLength chunks)) := fun hall =>
        hrc ⟨hall.1, hall.2.1⟩
      simp only [hother, or_false]
      refine and_congr_right fun he => ?_
      have hne : uploadPath cfg c ≠ uploadPath cfg (w.manager.blobId + 1) := by
        intro heq
        have hle := (h.history.world.blobIds _ _ _ he).2
        have hid := uploadPath_injective cfg heq
        omega
      rw [hothers _ hne, (hup.sameAt hne).2]

/-- The quota is asked chunk by chunk, of the counter; it is the same to ask what is used. -/
theorem scan_admitted {quota used cur : ℕ} {messages : List PutStreamingRequest}
    (hcur : quota ≠ 0 → cur = used ∧ used ≤ quota)
    (hroom : quota + (payload messages).length < 2^64) :
    admitted quota used messages =
      ((scan quota cur messages).1, (scan quota cur messages).2.flatten) := by
  induction messages generalizing used cur with
  | nil => rfl
  | cons m rest ih =>
    cases m with
    | metadata m => rfl
    | unset => rfl
    | chunk bytes =>
      rw [payload, List.length_append] at hroom
      by_cases hfit : quota = 0 ∨ used + bytes.length ≤ quota
      · obtain ⟨next, hgranted, hnext⟩ : ∃ next, reserve quota bytes.length cur = (true, next) ∧
            (quota ≠ 0 → next = used + bytes.length ∧ used + bytes.length ≤ quota) := by
          by_cases hq : quota = 0
          · exact ⟨cur, by simp only [reserve, hq, ne_eq, not_true_eq_false, if_false],
              fun hne => absurd hq hne⟩
          · obtain ⟨rfl, _⟩ := hcur hq
            have hle := hfit.resolve_left hq
            exact ⟨_, reserve_fits hq (by omega) hle, fun _ => ⟨rfl, hle⟩⟩
        simp only [admitted, if_pos hfit, scan, hgranted, if_true, ih hnext (by omega),
          List.flatten_cons]
      · obtain ⟨hq, hgt⟩ := not_or.mp hfit
        obtain ⟨rfl, hused⟩ := hcur hq
        have hrefused : (reserve quota bytes.length cur).1 = false := by
          rw [reserve_refused_iff hq, add64_of_lt (by omega)]
          omega
        simp only [admitted, if_neg hfit, scan, hrefused, Bool.false_eq_true, if_false,
          List.flatten_nil]

/-- What an upload gets in, under a quota that leaves room below 2^64. -/
theorem reads (h : Represents cfg w st) {rest : List PutStreamingRequest} {ending : Ending}
    {chunks : List Bytes} (hroom : cfg.quota + (payload rest).length < 2^64)
    (hscan : scan cfg.quota w.manager.currentSize rest = (ending, chunks)) :
    admitted cfg.quota st.used rest = (ending, chunks.flatten) ∧
      chunks.flatten.length < 2^64 ∧
      (cfg.quota ≠ 0 → st.used + chunks.flatten.length ≤ cfg.quota) ∧
      (cfg.quota ≠ 0 → w.manager.currentSize + totalLength chunks < 2^64) := by
  have hcur : cfg.quota ≠ 0 → w.manager.currentSize = st.used ∧ st.used ≤ cfg.quota := fun hq =>
    ⟨h.history.counted.trans ((if_neg hq).trans h.used), h.within hq⟩
  have hall : admitted cfg.quota st.used rest = (ending, chunks.flatten) := by
    rw [scan_admitted hcur hroom, hscan]
  have hsent : chunks.flatten.length ≤ (payload rest).length := by
    have hle := admitted_length_le cfg.quota st.used rest
    rwa [hall] at hle
  have hwithin : cfg.quota ≠ 0 → st.used + chunks.flatten.length ≤ cfg.quota := fun hq => by
    have hle := admitted_within hq (h.within hq) rest
    rwa [hall] at hle
  refine ⟨hall, by omega, hwithin, fun hq => ?_⟩
  rw [(hcur hq).1, totalLength_eq]
  exact (hwithin hq).trans_lt (by omega)

/-- An upload whose file stays leaves a blob with the bytes that it got in. -/
theorem uploaded (h : Represents cfg w st) (hroom : Headroom w) {rest : List PutStreamingRequest}
    {ending : Ending} {chunks : List Bytes} (hsent : cfg.quota + (payload rest).length < 2^64)
    (hscan : scan cfg.quota w.manager.currentSize rest = (ending, chunks))
    (hup : Uploaded cfg .calm s chunks w w') :
    Represents cfg w' (st.keep s ⟨chunks.flatten.length, some chunks.flatten⟩) := by
  obtain ⟨_, hlt, hwithin, hfits⟩ := h.reads hsent hscan
  have hkept := h.kept w'.files hup (h.history.uploaded hroom hup hfits).forget (fun _ _ => rfl)
    hlt hwithin
  rw [hup.contents (fun _ => rfl) rfl] at hkept
  exact hkept

/-- Every way out of an upload into a live session. -/
theorem receive (h : Represents cfg w st) (hroom : Headroom w) {m : PutMetadata}
    {rest : List PutStreamingRequest} {o : PutOutcome}
    (hsent : cfg.quota + (payload rest).length < 2^64)
    (hv : checkApiVersion m.apiVersion = true) (hl : w.manager.Live m.sessionId)
    (hexit : PutExit cfg .calm w (.metadata m :: rest) o w') :
    o = (st.receive cfg m (admitted cfg.quota st.used rest)).1 ∧
      Represents cfg w' (st.receive cfg m (admitted cfg.quota st.used rest)).2 := by
  cases hexit with
  | rejected _ hdead => exact absurd hl (hdead m rest rfl hv)
  | cannotOpen _ hopen => cases hopen
  | refusedFails _ _ _ _ hfail => exact absurd rfl hfail
  | mismatchFails _ _ _ _ _ hfail => cases hfail
  | brokenOff _ _ hscan hup =>
    rw [(h.reads hsent hscan).1]
    exact ⟨rfl, h.uploaded hroom hsent hscan hup⟩
  | refused _ _ hscan hup her =>
    have hgone := (h.uploaded hroom hsent hscan hup).erases her
    rw [h.blobIds, BlobStore.drop_keep _ (h.fresh _)] at hgone
    rw [(h.reads hsent hscan).1]
    exact ⟨rfl, hgone⟩
  | @mismatch _ _ chunks w₁ _ _ hscan hsize hup _ =>
    obtain ⟨hall, hlt, hwithin, hfits⟩ := h.reads hsent hscan
    have hkept := h.kept (w₁.files.unlink (uploadPath cfg (w.manager.blobId + 1))) hup
      ((h.history.uploaded hroom hup hfits).forget.unlink _)
      (fun q hq => (FileSystem.sameAt_unlink w₁.files hq).2) hlt hwithin
    rw [FileSystem.contents_absent (by rw [FileSystem.names_unlink, if_pos rfl])] at hkept
    rw [totalLength_eq, Nat.mod_eq_of_lt hlt] at hsize
    rw [hall]
    simp only [BlobStore.receive, if_pos hsize]
    exact ⟨trivial, hkept⟩
  | answered _ _ hscan hsize hup =>
    obtain ⟨hall, hlt, _⟩ := h.reads hsent hscan
    rw [totalLength_eq, Nat.mod_eq_of_lt hlt] at hsize
    rw [hall, h.blobIds]
    simp only [BlobStore.receive, hsize, Bool.false_eq_true, if_false]
    exact ⟨trivial, h.uploaded hroom hsent hscan hup⟩

theorem put (h : Represents cfg w st) (hroom : Headroom w) {messages : List PutStreamingRequest}
    (hsent : cfg.quota + (payload messages).length < 2^64) :
    ∃ w', BlobRelay.put cfg .calm messages w = some ((st.put cfg messages).1, w') ∧
      Represents cfg w' (st.put cfg messages).2 := by
  cases messages with
  | nil => exact ⟨w, rfl, h⟩
  | cons first rest =>
    cases first with
    | chunk bytes => exact ⟨w, rfl, h⟩
    | unset => exact ⟨w, rfl, h⟩
    | metadata m =>
      rw [payload] at hsent
      by_cases hv : checkApiVersion m.apiVersion = true
      · by_cases hl : w.manager.Live m.sessionId
        · obtain ⟨o, w', hput, hexit⟩ := put_spec h.history.world hroom .calm (.metadata m :: rest)
          obtain ⟨rfl, hrep⟩ := h.receive hroom hsent hv hl hexit
          simp only [BlobStore.put, if_pos hv, h.live_iff.mp hl, if_true]
          exact ⟨w', hput, hrep⟩
        · have hdead : (st.session m.sessionId).isSome = false :=
            Bool.eq_false_iff.mpr fun hs => hl (h.live_iff.mpr hs)
          simp only [BlobRelay.put, BlobStore.put, if_pos hv, hdead,
            BlobSessionManager.getSessionImpl_of_not_live hl, Bool.false_eq_true, if_false]
          exact ⟨w, rfl, h⟩
      · simp only [BlobRelay.put, BlobStore.put, if_neg hv]
        exact ⟨w, rfl, h⟩

/-! ### A blob is read -/

theorem named_iff (h : Represents cfg w st) {c : Option ContextId} {k : TransactionId} :
    st.named c = some (s, k) ↔ contextSession w.manager c = some s ∧ TagKey w.manager c k ∧
      w.manager.Live s := by
  rcases c with _ | (r | u)
  · simp only [BlobStore.named, contextSession, reduceCtorEq, false_and]
  · simp only [BlobStore.named, contextSession, TagKey, Option.map_eq_some_iff, Prod.mk.injEq,
      Option.some.injEq, h.session]
    constructor
    · rintro ⟨t, ht, rfl, rfl⟩
      exact ⟨rfl, ⟨t, ht, rfl⟩, ((h.session _ _).mpr ht).live⟩
    · rintro ⟨rfl, ⟨t, ht, rfl⟩, _⟩
      exact ⟨t, ht, rfl, rfl⟩
  · simp only [BlobStore.named, contextSession, TagKey, Option.map_eq_some_iff, Prod.mk.injEq,
      h.byTransaction]
    constructor
    · rintro ⟨r, hr, rfl, rfl⟩
      rw [← h.byTransaction] at hr
      exact ⟨(h.byTransaction _).symm.trans hr, rfl, (h.history.world.index _ _ hr).live⟩
    · rintro ⟨hs, rfl, _⟩
      exact ⟨s, hs, rfl, rfl⟩

theorem tagFits_iff {blob : BlobReference} {k : TransactionId} :
    BlobStore.tagFits cfg blob k = true ↔ ∃ tag, cfg.api.getTag blob.objectId k = .ok tag ∧
      (blob.tag = tag ∨ (cfg.devAcceptMockTag = true ∧ blob.tag = mockTag)) := by
  unfold BlobStore.tagFits
  cases cfg.api.getTag blob.objectId k with
  | ok tag => simp only [Bool.or_eq_true, decide_eq_true_eq, Bool.and_eq_true, Except.ok.injEq,
      exists_eq_left']
  | error e => simp only [Bool.false_eq_true, reduceCtorEq, false_and, exists_false]

/-- Whom the service lets at which file of a blob of the session store. -/
theorem authorise_iff (h : Represents cfg w st) {request : GetStreamingRequest} {path : Path}
    (hstore : request.blob.storageId = sessionStorageId) :
    authorise cfg w request = .ok path ↔ ∃ place blob, st.named request.contextId = some place ∧
      BlobStore.tagFits cfg request.blob place.2 = true ∧
      st.blob place.1 request.blob.objectId = some blob ∧
      path = uploadPath cfg request.blob.objectId := by
  have hne : ¬ request.blob.storageId = limestoneBlobStore := by
    rw [hstore]
    decide
  rw [authorise_ok_iff h.history.world]
  constructor
  · rintro ⟨⟨_, hblob, k, tag, hk, htag, hgiven⟩, _⟩
    rcases hblob with ⟨_, s, n, hs, he⟩ | ⟨h1, _⟩
    · exact ⟨(s, k), _, h.named_iff.mpr ⟨hs, hk, he.live⟩, tagFits_iff.mpr ⟨tag, htag, hgiven⟩,
        h.holds he, h.paths _ _ _ he⟩
    · exact absurd h1 hne
  · rintro ⟨⟨s, k⟩, blob, hnamed, hfits, hblob, rfl⟩
    obtain ⟨hs, hk, hl⟩ := h.named_iff.mp hnamed
    obtain ⟨tag, htag, hgiven⟩ := tagFits_iff.mp hfits
    refine ⟨⟨?_, Or.inl ⟨hstore, s, _, hs, ((h.blob _ _ _).mpr hblob).1⟩, k, tag, hk, htag,
      hgiven⟩, fun h1 => absurd h1 hne⟩
    generalize request.contextId = c at hs hk
    rcases c with _ | (r | u)
    · cases hs
    · cases hs
      exact hl
    · refine Or.inl fun hnone => ?_
      rw [contextSession, hnone] at hs
      cases hs

theorem get (h : Represents cfg w st) (hchunk : 1 ≤ cfg.streamChunkSize)
    {request : GetStreamingRequest} (hstore : request.blob.storageId ≠ limestoneBlobStore) :
    ∃ o written, BlobRelay.get cfg .calm request w = some (o, written) ∧
      RepliesAlike cfg (.sent o written) (.sent (st.get cfg request)) := by
  by_cases hv : checkApiVersion request.apiVersion = true
  · cases hauth : authorise cfg w request with
    | error e =>
      have hnothing : st.get cfg request = none := by
        refine Option.eq_none_iff_forall_ne_some.mpr fun bytes hbytes => ?_
        obtain ⟨_, h0, place, blob, hplace⟩ := BlobStore.get_eq_some hbytes
        have hok := (h.authorise_iff h0).mpr ⟨place, blob, hplace.1, hplace.2.1, hplace.2.2, rfl⟩
        rw [hauth] at hok
        cases hok
      refine ⟨getExit e, [], ?_, ?_⟩
      · simp only [BlobRelay.get, if_pos hv, hauth]
      · rw [hnothing]
        exact ⟨getExit_not_ok (fails_authorise e hauth), rfl⟩
    | ok path =>
      have h0 : request.blob.storageId = sessionStorageId := by
        rcases ((authorise_ok_iff h.history.world).mp hauth).1.blob with ⟨h0, _⟩ | ⟨h1, _⟩
        · exact h0
        · exact absurd h1 hstore
      obtain ⟨place, blob, hnamed, hfits, hblob, rfl⟩ := (h.authorise_iff h0).mp hauth
      have hanswer : st.get cfg request = blob.bytes := by
        simp only [BlobStore.get, hv, h0, decide_true, Bool.and_self, if_true, hnamed,
          Option.bind_some, hfits, hblob]
      have hfile := ((h.blob _ _ _).mpr hblob).2
      rw [hanswer, ← hfile]
      cases hbytes : w.files.contents (uploadPath cfg request.blob.objectId) with
      | some bytes =>
        exact (get_faithful_iff hv hauth GetEnv.calm_answered rfl rfl hbytes).mpr (Or.inl hchunk)
      | none =>
        obtain ⟨o, hsend, hbad⟩ := sendBlob_none cfg .calm hbytes
        refine ⟨o, [], ?_, hbad, rfl⟩
        simp only [BlobRelay.get, if_pos hv, hauth, hsend]
  · have hnothing : st.get cfg request = none :=
      Option.eq_none_iff_forall_ne_some.mpr fun bytes hbytes => hv (BlobStore.get_eq_some hbytes).1
    refine ⟨.returned (GetStatus.apiVersion request.apiVersion), [], ?_, ?_⟩
    · simp only [BlobRelay.get, if_neg hv]
    rw [hnothing]
    exact ⟨by simp [GetOutcome.IsOk, GetStatus.apiVersion], rfl⟩

/-! ### Every call -/

theorem answers (h : Represents cfg w st) (hchunk : 1 ≤ cfg.streamChunkSize) {c : StoreCall}
    (hok : BlobStore.Answerable cfg st c) :
    Matches (serve cfg) (BlobStore.answer cfg) (Represents cfg) (RepliesAlike cfg) c w st := by
  obtain ⟨hsessions, hblobs, hok⟩ := hok
  have hroom : Headroom w := by
    refine ⟨?_, ?_⟩
    · rw [h.blobIds]
      exact hblobs
    · rw [h.sessionIds]
      exact hsessions
  -- calls on a session that is not there
  have hdead : ∀ {s}, ¬ (st.session s).isSome = true →
      w.manager.getSessionImpl s = .error noSession := fun hs =>
    BlobSessionManager.getSessionImpl_of_not_live fun hl => hs (h.live_iff.mp hl)
  cases c with
  | createSession t =>
    obtain ⟨hid, hrep⟩ := h.create hroom t
    exact ⟨_, _, rfl, hid, hrep⟩
  | put messages =>
    obtain ⟨w', hput, hrep⟩ := h.put hroom hok
    refine ⟨.stored (st.put cfg messages).1, w', ?_, rfl, hrep⟩
    simp only [serve, hput, Option.map_some]
  | get request =>
    obtain ⟨o, written, hget, halike⟩ := h.get hchunk hok
    exact ⟨.sent o written, w, by simp only [serve, hget, Option.map_some], halike, h⟩
  | remove s ids =>
    by_cases hs : (st.session s).isSome = true
    · obtain ⟨impl, hi⟩ := h.live_iff.mpr hs
      obtain ⟨w', hdel, hrep⟩ := h.deleteEach ⟨impl, hi⟩ 0 ids
      refine ⟨.removed (.ok ()), w', ?_, ?_⟩
      · simp only [serve, BlobSession.removeList, BlobSessionManager.getSessionImpl_of_some hi,
          hdel, Option.map_some]
      · simp only [BlobStore.answer, if_pos hs]
        exact ⟨rfl, hrep⟩
    · refine ⟨.removed (.error noSession), w, ?_, ?_⟩
      · simp only [serve, BlobSession.removeList, hdead hs, Option.map_some]
      · simp only [BlobStore.answer, if_neg hs]
        exact ⟨rfl, h⟩
  | entries s =>
    by_cases hs : (st.session s).isSome = true
    · obtain ⟨impl, hi⟩ := h.live_iff.mpr hs
      refine ⟨.listed (.ok impl.entries), w, ?_, ?_⟩
      · simp only [serve, BlobSessionManager.getSessionImpl_of_some hi, Except.map]
      · simp only [BlobStore.answer, if_pos hs, h.entries hi]
        exact ⟨rfl, h⟩
    · refine ⟨.listed (.error noSession), w, ?_, ?_⟩
      · simp only [serve, hdead hs, Except.map]
      · simp only [BlobStore.answer, if_neg hs]
        exact ⟨rfl, h⟩
  | dispose s =>
    by_cases hs : (st.session s).isSome = true
    · obtain ⟨w', hdispose, hrep⟩ := h.dispose (h.live_iff.mpr hs)
      refine ⟨.disposed (.ok ()), w', ?_, ?_⟩
      · simp only [serve, hdispose, Option.map_some]
      · simp only [BlobStore.answer, if_pos hs]
        exact ⟨rfl, hrep⟩
    · refine ⟨.disposed (.error noSession), w, ?_, ?_⟩
      · simp only [serve, BlobSession.dispose, hdead hs, Option.map_some]
      · simp only [BlobStore.answer, if_neg hs]
        exact ⟨rfl, h⟩

end Represents

theorem represents_constructed (h : Constructed cfg w) : Represents cfg w .empty := by
  have hempty : ∀ s : ℕ, w.manager.blobSessions[s]? = none := by
    intro s
    rw [h.manager]
    exact ExtTreeMap.getElem?_empty
  have hentry : ∀ s b e, ¬ w.manager.Entry s b e := by
    rintro s b e ⟨impl, hs, _⟩
    rw [hempty] at hs
    cases hs
  refine ⟨historyInv_constructed h, ?_, ?_, ?_, fun _ => Nat.zero_le _, fun s t => ?_, fun u => ?_,
    fun s b e he => absurd he (hentry s b e), fun s b blob => ?_⟩
  · rw [h.manager]
    rfl
  · rw [h.manager]
    rfl
  · rw [h.manager]
    exact OrderedMap.total_empty _
  · simp only [BlobSessionManager.Owner, hempty, BlobStore.empty, reduceCtorEq, false_and,
      exists_false]
  · rw [h.manager]
    exact ExtTreeMap.getElem?_empty
  · simp only [Holds, hentry, BlobStore.empty, reduceCtorEq, false_and]

/-- Calls that come one after the other are answered as the store answers them, whatever they
are: the same ids, statuses, tags, lists and bytes. -/
theorem service_refines_store (h₀ : Constructed cfg w) (hchunk : 1 ≤ cfg.streamChunkSize)
    {calls : List StoreCall}
    (hok : Throughout (BlobStore.answer cfg) (BlobStore.Answerable cfg) calls .empty) :
    ∃ rs w', replies (serve cfg) calls w = some (rs, w') ∧
      List.Forall₂ (RepliesAlike cfg) rs (answers (BlobStore.answer cfg) calls .empty).1 ∧
      Represents cfg w' (answers (BlobStore.answer cfg) calls .empty).2 :=
  replies_refine (fun _ _ _ h hone => h.answers hchunk hone) (represents_constructed h₀) hok

/-- Two sessions; an upload that is answered, one whose announced size is wrong and one that the
quota refuses; reads by those who may and one who may not, before and after the removal. -/
def dialogue : List StoreCall :=
  [.createSession (some 5), .createSession none,
    .put [.metadata ⟨1, 1, some 4⟩, .chunk [1, 2], .chunk [3, 4]],
    .put [.metadata ⟨1, 2, some 9⟩, .chunk [5]],
    .put [.metadata ⟨1, 2, none⟩, .chunk [6, 7], .chunk [8, 9, 10, 11]],
    .get ⟨1, some (.transactionId 5), ⟨0, 1, 6⟩⟩, .get ⟨1, some (.sessionId 2), ⟨0, 1, 3⟩⟩,
    .entries 2, .remove 1 [1], .get ⟨1, some (.transactionId 5), ⟨0, 1, 6⟩⟩, .dispose 2, .entries 2]

theorem service_refines_store_dialogue : ∃ rs w',
    replies (serve smallConfig) dialogue smallStart.shared = some (rs, w') ∧
    List.Forall₂ (RepliesAlike smallConfig) rs
      [.created 1, .created 2, .stored (.returned PutStatus.ok (some ⟨0, 1, 257⟩)),
        .stored (.returned PutStatus.sizeMismatch none),
        .stored (.returned PutStatus.exhausted none), .sent (some [1, 2, 3, 4]), .sent none,
        .listed (.ok [2]), .removed (.ok ()), .sent none, .disposed (.ok ()),
        .listed (.error noSession)] := by
  have hok : Throughout (BlobStore.answer smallConfig) (BlobStore.Answerable smallConfig) dialogue
      .empty := by decide
  obtain ⟨rs, w', hreplies, halike, _⟩ :=
    service_refines_store smallStart_initial.1 (by decide) hok
  exact ⟨rs, w', hreplies, halike⟩

end BlobRelay
