import BlobRelay.Orphans
import BlobRelay.Reception
import BlobRelay.Session

/-! # What `dispose` gives back

Histories of calls that run one after the other. After each of them the usage
counter is exactly what the entries record, every upload file has its entry, and
an upload's id belongs to its session alone; so deleting a session's entries takes
all that its uploads have left. -/

namespace BlobRelay
open Foundation Foundation.FileStore

inductive SessionCall
  | env (a : EnvAction)
  | put (env : PutEnv) (messages : List PutStreamingRequest)
  | removeVector (s : ℕ) (ids : List ℕ) (first last : ℕ)
  | removeList (s : ℕ) (ids : List ℕ)
  | dispose (s : ℕ)

/-- The service, with the session and the path of each file that a `Put` has named. -/
structure History where
  world : World
  uploads : List (ℕ × Path)

/-- A `Put` that took a blob id has named a file by it. -/
def named (cfg : Config) (messages : List PutStreamingRequest) (w w' : World) : List (ℕ × Path) :=
  match messages with
  | .metadata m :: _ =>
    if w'.manager.blobId = w.manager.blobId then []
    else [(m.sessionId, uploadPath cfg w'.manager.blobId)]
  | _ => []

def historyStep (cfg : Config) : SessionCall → History → Option History
  | .env a, h => (envStep cfg a h.world).map fun w => {h with world := w}
  | .put env messages, h => (put cfg env messages h.world).map fun r =>
      ⟨r.2, h.uploads ++ named cfg messages h.world r.2⟩
  | .removeVector s ids first last, h =>
    (BlobSession.removeVector cfg s (fun _ => .succeeds) ids first last h.world).map fun r =>
      {h with world := r.2}
  | .removeList s ids, h =>
    (BlobSession.removeList cfg s (fun _ => .succeeds) ids h.world).map fun r =>
      {h with world := r.2}
  | .dispose s, h =>
    (BlobSession.dispose cfg s (fun _ => .succeeds) h.world).map fun r => {h with world := r.2}

/-- No reservation of a chunk passes 2^64. -/
def fits (quota : ℕ) : ℕ → List PutStreamingRequest → Bool
  | _, [] => true
  | cur, .chunk bytes :: rest =>
    decide (cur + bytes.length < 2^64) &&
      (!(reserve quota bytes.length cur).1 || fits quota (reserve quota bytes.length cur).2 rest)
  | _, .metadata _ :: _ => true
  | _, .unset :: _ => true

/-- Deletions do not throw, no size wraps, and files that are added lie outside the
store directory. -/
def Orderly (cfg : Config) (h : History) (c : SessionCall) : Prop :=
  Headroom h.world ∧
    match c with
    | .put env messages => env.deletes = .succeeds ∧ env.removes = true ∧
        fits cfg.quota h.world.manager.currentSize messages.tail = true
    | .env (.add _ path) => inDirectory cfg.directory (cfg.canonical path) = false
    | _ => True

instance (cfg : Config) (h : History) : ∀ c, Decidable (Orderly cfg h c)
  | .put env messages => inferInstanceAs (Decidable (_ ∧ env.deletes = .succeeds ∧
      env.removes = true ∧ fits cfg.quota h.world.manager.currentSize messages.tail = true))
  | .env (.add _ path) =>
    inferInstanceAs (Decidable (_ ∧ inDirectory cfg.directory (cfg.canonical path) = false))
  | .env (.createSession _) => inferInstanceAs (Decidable (_ ∧ True))
  | .env (.outsideWrite _ _) => inferInstanceAs (Decidable (_ ∧ True))
  | .env (.outsideDelete _) => inferInstanceAs (Decidable (_ ∧ True))
  | .removeVector _ _ _ _ => inferInstanceAs (Decidable (_ ∧ True))
  | .removeList _ _ => inferInstanceAs (Decidable (_ ∧ True))
  | .dispose _ => inferInstanceAs (Decidable (_ ∧ True))

variable {cfg : Config} {env : PutEnv} {w w' : World} {s : ℕ} {uploads : List (ℕ × Path)}

/-! ### The counter is what the entries record -/

def Counted (cfg : Config) (w : World) : Prop :=
  w.manager.currentSize = if cfg.quota = 0 then 0 else w.manager.recordedTotal

theorem Counted.same (h : Counted cfg w) (hc : w'.manager.currentSize = w.manager.currentSize)
    (hr : w'.manager.recordedTotal = w.manager.recordedTotal) : Counted cfg w' := by
  rw [Counted, hc, hr]
  exact h

theorem counted_erases {b : ℕ} {e : Path × ℕ} (hlt : w.manager.currentSize < 2^64)
    (h : Counted cfg w) (her : World.Erases cfg s b e w w') : Counted cfg w' := by
  have hsize := her.found.size_le
  have hrec := her.recorded
  unfold Counted at h ⊢
  rw [her.currentSize, release]
  by_cases hq : cfg.quota = 0
  · rw [if_pos hq] at h ⊢
    rw [if_neg (by simpa using hq), h]
  · rw [if_neg hq] at h ⊢
    rw [if_pos hq, sub64_of_le hlt (by omega)]
    omega

theorem fits_scan {quota cur : ℕ} {messages : List PutStreamingRequest} {ending : Ending}
    {chunks : List Bytes} (hq : quota ≠ 0) (hcur : cur < 2^64)
    (hfits : fits quota cur messages = true) (hscan : scan quota cur messages = (ending, chunks)) :
    cur + totalLength chunks < 2^64 := by
  induction messages generalizing cur chunks with
  | nil =>
    cases hscan
    exact hcur
  | cons m rest ih =>
    cases m with
    | metadata m =>
      cases hscan
      exact hcur
    | unset =>
      cases hscan
      exact hcur
    | chunk bytes =>
      simp only [fits, Bool.and_eq_true, decide_eq_true_eq, Bool.or_eq_true,
        Bool.not_eq_true'] at hfits
      obtain ⟨hone, hrest⟩ := hfits
      simp only [scan] at hscan
      split at hscan
      · rename_i hr
        have hnext : (reserve quota bytes.length cur).2 = cur + bytes.length := by
          rw [reserve_charged hr, charged, if_pos hq, Nat.mod_eq_of_lt hone]
        rw [hnext] at hrest hscan
        rcases htail : scan quota (cur + bytes.length) rest with ⟨ending', tail⟩
        rw [htail] at hscan
        cases hscan
        have hfits' : fits quota (cur + bytes.length) rest = true :=
          hrest.resolve_left (by simp [hr])
        have hsum := ih hone hfits' htail
        dsimp only
        rw [totalLength_cons]
        omega
      · cases hscan
        exact hcur

theorem counted_uploaded {chunks : List Bytes} (h : Counted cfg w)
    (hfit : cfg.quota ≠ 0 → w.manager.currentSize + totalLength chunks < 2^64)
    (hup : Uploaded cfg env s chunks w w') : Counted cfg w' := by
  unfold Counted at h ⊢
  rw [hup.currentSize, hup.recorded, charged]
  by_cases hq : cfg.quota = 0
  · rw [if_pos hq] at h ⊢
    rw [if_neg (by simpa using hq), h]
  · have hlt := hfit hq
    rw [if_neg hq] at h ⊢
    rw [if_pos hq, Nat.mod_eq_of_lt hlt, Nat.mod_eq_of_lt (by omega), h]

theorem recordedSize_of_no_entry {m : BlobSessionManager} {impl : BlobSessionImpl}
    (hs : m.blobSessions[s]? = some impl) (h : ∀ b e, ¬ m.Entry s b e) : impl.recordedSize = 0 :=
  OrderedMap.total_eq_zero _ _ fun b e hb => absurd ⟨impl, hs, hb⟩ (h b e)

theorem recordedTotal_dispose_empty {m : BlobSessionManager} (h : ∀ b e, ¬ m.Entry s b e) :
    (m.dispose s).recordedTotal = m.recordedTotal := by
  have hrec := BlobSessionManager.recordedTotal_dispose (m := m) (s := s)
  cases hi : m.blobSessions[s]? with
  | none =>
    rw [hi, OrderedMap.weight_none] at hrec
    exact hrec
  | some impl =>
    rw [hi, OrderedMap.weight_some, recordedSize_of_no_entry hi h] at hrec
    exact hrec

theorem counted_dispose (h : Counted cfg w) (hs : ∀ b e, ¬ w.manager.Entry s b e) :
    Counted cfg {w with manager := w.manager.dispose s} :=
  h.same BlobSessionManager.currentSize_dispose (recordedTotal_dispose_empty hs)

/-! ### The invariant of histories -/

/-- The counter is exact, upload files have entries, an entry has its own upload path
or one outside the directory, and the ids of named uploads stay with their session. -/
structure HistoryInv (cfg : Config) (w : World) (uploads : List (ℕ × Path)) : Prop where
  world : WorldInv cfg w
  counted : Counted cfg w
  attached : Attached cfg w
  paths : ∀ r k e, w.manager.Entry r k e →
    e.1 = uploadPath cfg k ∨ inDirectory cfg.directory e.1 = false
  uploads : ∀ r p, (r, p) ∈ uploads → ∃ k, p = uploadPath cfg k ∧ k ≤ w.manager.blobId ∧
    ∀ r' e, w.manager.Entry r' k e → r' = r

namespace HistoryInv

theorem of_fewer (h : HistoryInv cfg w uploads) (hsafe : Safe cfg w w')
    (hentry : ∀ r k e, w'.manager.Entry r k e → ∃ n, w.manager.Entry r k (e.1, n))
    (hcounted : Counted cfg w') (hattached : Attached cfg w') : HistoryInv cfg w' uploads := by
  refine ⟨hsafe.inv h.world, hcounted, hattached, fun r k e he => ?_, fun r p hp => ?_⟩
  · obtain ⟨n, hold⟩ := hentry r k e he
    exact h.paths r k (e.1, n) hold
  · obtain ⟨k, hk, hle, howner⟩ := h.uploads r p hp
    refine ⟨k, hk, hle.trans hsafe.evolves.blobId, fun r' e he => ?_⟩
    obtain ⟨n, hold⟩ := hentry r' k e he
    exact howner r' _ hold

theorem erases {b : ℕ} {e : Path × ℕ} (h : HistoryInv cfg w uploads)
    (her : World.Erases cfg s b e w w') : HistoryInv cfg w' uploads :=
  h.of_fewer (safe_erases her) (fun _ _ e' he => ⟨e'.2, ((her.entry _ _ _).mp he).1⟩)
    (counted_erases h.world.currentSize_lt h.counted her) (attached_erases h.attached her)

theorem deletions {ids : List ℕ} (h : HistoryInv cfg w uploads)
    (hdels : Deletions cfg s ids w w') : HistoryInv cfg w' uploads :=
  hdels.invariant (HistoryInv cfg · uploads) (fun _ _ _ _ hi her => hi.erases her) h

theorem unlink (h : HistoryInv cfg w uploads) (p : Path) :
    HistoryInv cfg {w with files := w.files.unlink p} uploads := by
  refine h.of_fewer (safe_unlink p) (fun r k e he => ⟨e.2, he⟩) h.counted ?_
  refine attached_of_kept h.attached (fun k hk hold => hk ?_) fun r k n he _ => kept_of_entry he
  rw [FileSystem.names_unlink, hold, ite_self]

theorem disposed (h : HistoryInv cfg w uploads) (hs : ∀ b e, ¬ w.manager.Entry s b e) :
    HistoryInv cfg {w with manager := w.manager.dispose s} uploads := by
  refine h.of_fewer (safe_dispose s)
    (fun r k e he => ⟨e.2, (BlobSessionManager.entry_dispose.mp he).1⟩) (counted_dispose h.counted hs)
    (attached_of_kept h.attached (fun k hk => hk) fun r k n he _ => kept_of_entry ?_)
  refine BlobSessionManager.entry_dispose.mpr ⟨he, ?_⟩
  rintro rfl
  exact hs _ _ he

theorem registers {b : ℕ} {path : Path} (h : HistoryInv cfg w uploads) (hroom : Headroom w)
    (hreg : World.Registers cfg s b path w w')
    (hpath : path = uploadPath cfg b ∨ inDirectory cfg.directory path = false) :
    HistoryInv cfg w' uploads := by
  have hsafe := safe_registers hroom.1 hreg
  have hid : b = w.manager.blobId + 1 := hreg.id.trans (add64_of_lt hroom.1)
  refine ⟨hsafe.inv h.world, h.counted.same hreg.currentSize hreg.recorded, ?_, fun r k e he => ?_,
    fun r p hp => ?_⟩
  · exact attached_same h.attached (by rw [hreg.files]) fun r k e he => kept_registers hreg he
  · rcases (hreg.entry r k e).mp he with hold | ⟨_, rfl, rfl, _⟩
    · exact h.paths r k e hold
    · exact hpath
  · obtain ⟨k, hk, hle, howner⟩ := h.uploads r p hp
    refine ⟨k, hk, hle.trans hsafe.evolves.blobId, fun r' e he => ?_⟩
    rcases (hreg.entry r' k e).mp he with hold | ⟨_, rfl, _⟩
    · exact howner r' e hold
    · omega

/-- The name of an upload is noted for the session that its id belongs to. -/
theorem note {k : ℕ} (h : HistoryInv cfg w uploads) (hle : k ≤ w.manager.blobId)
    (hk : ∀ r e, w.manager.Entry r k e → r = s) :
    HistoryInv cfg w (uploads ++ [(s, uploadPath cfg k)]) := by
  refine ⟨h.world, h.counted, h.attached, h.paths, fun r p hp => ?_⟩
  rcases List.mem_append.mp hp with hold | hnew
  · exact h.uploads r p hold
  · cases List.mem_singleton.mp hnew
    exact ⟨k, rfl, hle, hk⟩

theorem uploaded {chunks : List Bytes} (h : HistoryInv cfg w uploads) (hroom : Headroom w)
    (hup : Uploaded cfg env s chunks w w')
    (hfit : cfg.quota ≠ 0 → w.manager.currentSize + totalLength chunks < 2^64) :
    HistoryInv cfg w' (uploads ++ [(s, uploadPath cfg (w.manager.blobId + 1))]) := by
  have hsafe := hup.safe hroom
  have hbase : HistoryInv cfg w' uploads := by
    refine ⟨hsafe.inv h.world, counted_uploaded h.counted hfit hup, fun k hk => ?_,
      fun r k e he => ?_, fun r p hp => ?_⟩
    · by_cases hnew : k = w.manager.blobId + 1
      · subst hnew
        exact ⟨s, _, (hup.entry _ _ _).mpr (Or.inr ⟨rfl, rfl, rfl⟩)⟩
      · have hsame := hup.sameAt (q := uploadPath cfg k) fun hp =>
          hnew (uploadPath_injective cfg hp)
        obtain ⟨r, n, he⟩ := h.attached k (hsame.1 ▸ hk)
        exact ⟨r, n, (hup.entry _ _ _).mpr (Or.inl he)⟩
    · rcases (hup.entry r k e).mp he with hold | ⟨_, rfl, rfl⟩
      · exact h.paths r k e hold
      · exact Or.inl rfl
    · obtain ⟨k, hk, hle, howner⟩ := h.uploads r p hp
      refine ⟨k, hk, hle.trans hsafe.evolves.blobId, fun r' e he => ?_⟩
      rcases (hup.entry r' k e).mp he with hold | ⟨_, rfl, _⟩
      · exact howner r' e hold
      · omega
  refine hbase.note hup.blobId.ge fun r e he => ?_
  rcases (hup.entry r _ e).mp he with hold | ⟨hr, _⟩
  · have hle := (h.world.blobIds _ _ _ hold).2
    omega
  · exact hr

/-! ### One call -/

theorem named_self (messages : List PutStreamingRequest) : named cfg messages w w = [] := by
  unfold named
  split
  · exact if_pos rfl
  · rfl

theorem named_next {m : PutMetadata} {rest : List PutStreamingRequest}
    (h : w'.manager.blobId = w.manager.blobId + 1) :
    named cfg (.metadata m :: rest) w w' =
      [(m.sessionId, uploadPath cfg (w.manager.blobId + 1))] := by
  simp [named, h]

theorem putExit {messages : List PutStreamingRequest} {o : PutOutcome}
    (h : HistoryInv cfg w uploads) (hroom : Headroom w) (hdel : env.deletes = .succeeds)
    (hrem : env.removes = true)
    (hfits : fits cfg.quota w.manager.currentSize messages.tail = true)
    (hexit : PutExit cfg env w messages o w') :
    HistoryInv cfg w' (uploads ++ named cfg messages w w') := by
  have hfit : ∀ {ending chunks}, scan cfg.quota w.manager.currentSize messages.tail =
      (ending, chunks) → cfg.quota ≠ 0 → w.manager.currentSize + totalLength chunks < 2^64 :=
    fun hscan hq => fits_scan hq h.world.currentSize_lt hfits hscan
  cases hexit with
  | rejected =>
    rw [named_self, List.append_nil]
    exact h
  | cannotOpen _ _ hreg =>
    rw [named_next hreg.blobId]
    refine (h.registers hroom hreg (Or.inl rfl)).note hreg.blobId.ge fun r e he => ?_
    rcases (hreg.entry r _ e).mp he with hold | ⟨hr, _⟩
    · have hle := (h.world.blobIds _ _ _ hold).2
      omega
    · exact hr
  | brokenOff _ _ hscan hup =>
    rw [named_next hup.blobId]
    exact h.uploaded hroom hup (hfit hscan)
  | refused _ _ hscan hup her =>
    rw [named_next (her.blobId.trans hup.blobId)]
    exact (h.uploaded hroom hup (hfit hscan)).erases her
  | refusedFails _ _ _ _ hfail => exact absurd hdel hfail
  | @mismatch m rest chunks w₁ _ _ hscan _ hup =>
    have hid : (World.mk w₁.manager (w₁.files.unlink
        (uploadPath cfg (w.manager.blobId + 1)))).manager.blobId = w.manager.blobId + 1 := hup.blobId
    rw [named_next hid]
    exact (h.uploaded hroom hup (hfit hscan)).unlink _
  | mismatchFails _ _ _ _ _ hfail =>
    rw [hrem] at hfail
    cases hfail
  | answered _ _ hscan _ hup =>
    rw [named_next hup.blobId]
    exact h.uploaded hroom hup (hfit hscan)

theorem envStep {a : EnvAction} (h : HistoryInv cfg w uploads) (hroom : Headroom w)
    (hadd : ∀ s path, a = .add s path → inDirectory cfg.directory (cfg.canonical path) = false)
    (hstep : envStep cfg a w = some w') : HistoryInv cfg w' uploads := by
  have hsafe := envStep_safe hstep (hroom.room w')
  have hattached := attached_envStep h.attached hstep
  cases a with
  | createSession t =>
    cases hstep
    exact h.of_fewer hsafe
      (fun r k e he => ⟨e.2, (BlobSessionManager.entry_createSession t).mp he⟩)
      (h.counted.same rfl (BlobSessionManager.recordedTotal_createSession t)) hattached
  | add s path =>
    obtain ⟨⟨r, w₁⟩, hr, hx⟩ := Option.map_eq_some_iff.mp hstep
    cases hx
    cases r with
    | ok b => exact h.registers hroom (World.add_ok hr).2 (Or.inr (hadd s path rfl))
    | error x =>
      obtain ⟨_, rfl⟩ := World.add_error hr
      exact h.of_fewer hsafe (fun r k e he => ⟨e.2, he⟩) h.counted hattached
  | outsideWrite path bytes =>
    simp only [BlobRelay.envStep, outsideWrite] at hstep
    split at hstep
    · cases hstep
    · obtain ⟨x, _, rfl⟩ := Option.map_eq_some_iff.mp hstep
      exact h.of_fewer hsafe (fun r k e he => ⟨e.2, he⟩) h.counted hattached
  | outsideDelete path =>
    cases hstep
    exact h.unlink path

end HistoryInv

theorem historyInv_step {h h' : History} {c : SessionCall}
    (hi : HistoryInv cfg h.world h.uploads) (hok : Orderly cfg h c)
    (hstep : historyStep cfg c h = some h') : HistoryInv cfg h'.world h'.uploads := by
  obtain ⟨hroom, hok⟩ := hok
  cases c with
  | env a =>
    obtain ⟨w₁, hw, rfl⟩ := Option.map_eq_some_iff.mp hstep
    refine hi.envStep hroom (fun s path ha => ?_) hw
    subst ha
    exact hok
  | put env messages =>
    obtain ⟨⟨o, w₁⟩, hput, rfl⟩ := Option.map_eq_some_iff.mp hstep
    obtain ⟨hdel, hrem, hfits⟩ := hok
    exact hi.putExit hroom hdel hrem hfits (put_exit hi.world hroom hput)
  | removeVector s ids first last =>
    obtain ⟨r, w₁, heq, hdels⟩ :=
      BlobSession.removeVector_spec cfg s (fun _ => rfl) ids first last h.world
    obtain ⟨x, hx, rfl⟩ := Option.map_eq_some_iff.mp hstep
    cases heq.symm.trans hx
    exact hi.deletions hdels
  | removeList s ids =>
    obtain ⟨r, w₁, heq, hdels⟩ :=
      BlobSession.removeList_spec cfg s (fun _ => rfl) ids h.world
    obtain ⟨x, hx, rfl⟩ := Option.map_eq_some_iff.mp hstep
    cases heq.symm.trans hx
    exact hi.deletions hdels
  | dispose s =>
    obtain ⟨x, hx, rfl⟩ := Option.map_eq_some_iff.mp hstep
    by_cases hl : h.world.manager.Live s
    · obtain ⟨ids, w₁, heq, hdels, hgone⟩ :=
        BlobSession.dispose_spec cfg (fun _ => rfl) hl
      cases heq.symm.trans hx
      exact (hi.deletions hdels).disposed hgone
    · simp only [BlobSession.dispose, BlobSessionManager.getSessionImpl_of_not_live hl] at hx
      cases hx
      exact hi

theorem historyInv_constructed (h : Constructed cfg w) : HistoryInv cfg w [] := by
  have hinv : Inv cfg ⟨w, []⟩ := inv_initial ⟨h, rfl⟩
  obtain ⟨hm, fs, hfs⟩ := h
  refine ⟨hinv.shared, ?_, fun k hk => absurd (constructStore_uploads hfs k) hk, ?_, nofun⟩
  · have hzero : BlobSessionManager.empty.recordedTotal = 0 := OrderedMap.total_empty _
    rw [Counted, hm, hzero, ite_self]
    rfl
  · rintro r k e ⟨impl, hs, _⟩
    simp [hm, BlobSessionManager.empty] at hs

theorem historyInv_run {w₀ : World} {h : History} {cs : List SessionCall}
    (h₀ : Constructed cfg w₀) (hrun : Run (historyStep cfg) (Orderly cfg) ⟨w₀, []⟩ cs h) :
    HistoryInv cfg h.world h.uploads :=
  hrun.invariant (fun h => HistoryInv cfg h.world h.uploads)
    (fun _ _ _ hi ho hs => historyInv_step hi ho hs) (historyInv_constructed h₀)

/-! ### Disposal -/

theorem HistoryInv.empty (h : HistoryInv cfg w uploads) (hnone : ∀ r, ¬ w.manager.Live r) :
    w.manager.currentSize = 0 ∧ ∀ k, w.files.present (uploadPath cfg k) = false := by
  constructor
  · have hzero : w.manager.recordedTotal = 0 :=
      OrderedMap.total_eq_zero _ _ fun r impl hr => absurd ⟨impl, hr⟩ (hnone r)
    rw [h.counted, hzero, ite_self]
  · intro k
    by_contra hk
    obtain ⟨r, n, he⟩ := h.attached k fun hn => hk (FileSystem.present_eq_false_iff.mpr hn)
    exact hnone r he.live

/-- After any orderly history, `dispose` of a live session comes to its end; then no
file is left that an upload into the session was given, the session is not found,
the counter is what the other sessions record, and these have kept their entries
and their upload files. With no session left, nothing is charged and no upload
file is there. -/
theorem dispose_gives_back {w₀ : World} {h : History} {cs : List SessionCall}
    (h₀ : Constructed cfg w₀) (hrun : Run (historyStep cfg) (Orderly cfg) ⟨w₀, []⟩ cs h)
    (hl : h.world.manager.Live s) :
    ∃ w', BlobSession.dispose cfg s (fun _ => .succeeds) h.world = some (.ok (), w') ∧
      (∀ p, (s, p) ∈ h.uploads → w'.files.present p = false) ∧
      w'.manager.getSessionImpl s = .error noSession ∧
      (cfg.quota ≠ 0 → w'.manager.currentSize = w'.manager.recordedTotal) ∧
      ((∀ r, ¬ w'.manager.Live r) →
        w'.manager.currentSize = 0 ∧ ∀ k, w'.files.present (uploadPath cfg k) = false) ∧
      (∀ r, r ≠ s → ∀ b e, w'.manager.Entry r b e ↔ h.world.manager.Entry r b e) ∧
      (∀ r p, r ≠ s → (r, p) ∈ h.uploads → h.world.files.SameAt w'.files p) := by
  have hinv := historyInv_run h₀ hrun
  obtain ⟨ids, w₁, hdispose, hdels, hgone⟩ :=
    BlobSession.dispose_spec cfg (fun _ => rfl) hl
  have hend := (hinv.deletions hdels).disposed hgone
  have hdead : ¬ (w₁.manager.dispose s).Live s := fun hs =>
    (BlobSessionManager.live_dispose.mp hs).2 rfl
  refine ⟨_, hdispose, fun p hp => ?_, BlobSessionManager.getSessionImpl_of_not_live hdead,
    fun hq => hend.counted.trans (if_neg hq), hend.empty, fun r hr b e => ⟨fun he => ?_, fun he => ?_⟩,
    fun r p hr hp => ?_⟩
  · obtain ⟨k, rfl, _, howner⟩ := hend.uploads s p hp
    by_contra hpresent
    obtain ⟨r, n, he⟩ := hend.attached k fun hn => hpresent (FileSystem.present_eq_false_iff.mpr hn)
    exact hdead (howner r _ he ▸ he.live)
  · exact hdels.entry_of_entry (BlobSessionManager.entry_dispose.mp he).1
  · exact BlobSessionManager.entry_dispose.mpr ⟨hdels.entry_other (fun hb => hr hb.1) he, hr⟩
  · obtain ⟨k, rfl, _, howner⟩ := hinv.uploads r p hp
    refine hdels.sameAt fun b _ e he hpath => ?_
    -- an entry of `s` with this path would have the id of the other session's upload
    rcases hinv.paths s b e he with hown | hout
    · obtain rfl := uploadPath_injective cfg (hown.symm.trans hpath)
      exact hr (howner s e he).symm
    · rw [hpath, uploadPath_inDirectory] at hout
      cases hout

/-- Two sessions: an upload broken off after a chunk, a complete one, one that the
quota refuses; a file from outside; and a file deleted from outside. -/
def mixedHistory : List SessionCall :=
  [.env (.createSession none), .env (.createSession (some 5)),
    .put .calm [.metadata ⟨1, 1, none⟩, .chunk [1, 2, 3], .unset],
    .put .calm [.metadata ⟨1, 2, some 2⟩, .chunk [4, 5]],
    .put .calm [.metadata ⟨1, 1, none⟩, .chunk [6], .chunk [7, 8, 9, 10, 11]],
    .env (.outsideWrite ["elsewhere"] [1]), .env (.add 1 ["elsewhere"]),
    .put .calm [.metadata ⟨1, 1, none⟩, .chunk [12]], .env (.outsideDelete ["store", "upload_5"]),
    .removeVector 2 [7, 8] 0 2]

theorem dispose_gives_back_mixed : ∃ h w',
    exec (historyStep smallConfig) (fun h c => decide (Orderly smallConfig h c)) mixedHistory
      ⟨smallStart.shared, []⟩ = some h ∧
    BlobSession.dispose smallConfig 1 (fun _ => .succeeds) h.world = some (.ok (), w') ∧
    w'.files.present ["store", "upload_1"] = false ∧
    h.world.files.SameAt w'.files ["store", "upload_2"] := by
  obtain ⟨h, hh, hend⟩ := (Option.any_eq_true
    (fun h : History => h.world.manager.blobSessions[1]?.isSome &&
      h.uploads.contains (1, ["store", "upload_1"]) &&
      h.uploads.contains (2, ["store", "upload_2"])) _).mp
    (by decide : (exec (historyStep smallConfig) (fun h c => decide (Orderly smallConfig h c))
      mixedHistory ⟨smallStart.shared, []⟩).any _ = true)
  simp only [Bool.and_eq_true, List.contains_iff_mem] at hend
  obtain ⟨⟨hlive, hfirst⟩, hsecond⟩ := hend
  obtain ⟨w', hdispose, hgone, _, _, _, _, hkept⟩ := dispose_gives_back (s := 1)
    smallStart_initial.1 (.of_exec hh fun _ _ _ hc => of_decide_eq_true hc)
    (Option.isSome_iff_exists.mp hlive)
  exact ⟨h, w', hh, hdispose, hgone _ hfirst, hkept 2 _ (by decide) hsecond⟩

end BlobRelay
