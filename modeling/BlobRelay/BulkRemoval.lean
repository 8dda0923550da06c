import BlobRelay.Accounts
import BlobRelay.Grammar
import BlobRelay.Removal
import BlobRelay.Sequential

/-! # Bulk removal (session.cpp)

`remove` is set difference: its result depends only on the set of ids, however they are
ordered, repeated, kept in containers and split into calls. The counter goes down by what
the ids in the session record, computed in 64 bits. -/

namespace BlobRelay
open Std Foundation Foundation.FileStore Foundation.OrderedMap

/-- The iterators that a call of `remove` is given. -/
inductive IdRange
  | vector (ids : List ℕ) (first last : ℕ)
  | list (ids : List ℕ)

namespace IdRange

/-- The ids that the loop visits. -/
def ids : IdRange → List ℕ
  | .vector ids first last => (ids.drop first).take (last - first)
  | .list ids => ids

def Forward : IdRange → Prop
  | .vector _ first last => first ≤ last
  | .list _ => True

end IdRange

namespace BlobSession

def remove (cfg : Config) (s : ℕ) (deletes : ℕ → DeleteResult) :
    IdRange → World → Option (Except Exn Unit × World)
  | .vector ids first last => removeVector cfg s deletes ids first last
  | .list ids => removeList cfg s deletes ids

/-- One call of `remove` after the other, up to the first that throws. -/
def removeCalls (cfg : Config) (s : ℕ) : List IdRange → World → Option (Except Exn Unit × World)
  | [], w => some (.ok (), w)
  | r :: rest, w =>
    match remove cfg s (fun _ => .succeeds) r w with
    | some (.ok (), w) => removeCalls cfg s rest w
    | result => result

end BlobSession

/-- The recorded sizes of the distinct ids of the list that are in the session. -/
def removedSize (s : ℕ) (ids : List ℕ) (w : World) : ℕ :=
  match w.manager.blobSessions[s]? with
  | some impl =>
    ((impl.entries.filter fun b => decide (b ∈ ids)).map fun b => weight Prod.snd impl.blobs[b]?).sum
  | none => 0

/-- The session `s` has lost the ids: its entries, their files, and nothing else of
the other sessions. -/
structure LosesIds (s : ℕ) (ids : List ℕ) (w w' : World) : Prop where
  entries : ∀ impl, w.manager.blobSessions[s]? = some impl →
    ∃ impl', w'.manager.blobSessions[s]? = some impl' ∧
      impl'.entries = (impl.entries.filter fun b => !decide (b ∈ ids)) ∧
      impl'.entries.Pairwise (· < ·) ∧
      (∀ b, impl'.find b = if b ∈ ids then none else impl.find b) ∧
      ∀ b ∈ ids, ∀ path, impl.find b = some path → w'.files.present path = false
  emptied : ∀ impl impl', w.manager.blobSessions[s]? = some impl →
    w'.manager.blobSessions[s]? = some impl' → (∀ b ∈ impl.entries, b ∈ ids) → impl'.entries = []
  others : ∀ r, r ≠ s → w'.manager.blobSessions[r]? = w.manager.blobSessions[r]?

/-- Every way to give the ids to `remove` comes to the same state, in which the session
has lost them and the counter has dropped by what they recorded. -/
def RemovesSet (cfg : Config) (s : ℕ) (ids : List ℕ) (w : World) : Prop :=
  ∃ w', (∀ ranges : List IdRange, (∀ r ∈ ranges, r.Forward) →
      (∀ b, b ∈ ids ↔ ∃ r ∈ ranges, b ∈ r.ids) →
      BlobSession.removeCalls cfg s ranges w = some (.ok (), w')) ∧
    LosesIds s ids w w' ∧
    (cfg.quota ≠ 0 → w'.manager.currentSize + removedSize s ids w = w.manager.currentSize)

variable {cfg : Config} {s : ℕ} {ids : List ℕ} {w w' : World}

/-! ### Every way comes to the same -/

theorem remove_forward {deletes : ℕ → DeleteResult} {r : IdRange} (hr : r.Forward)
    (hl : w.manager.Live s) :
    BlobSession.remove cfg s deletes r w = deleteEach cfg s deletes 0 r.ids w := by
  obtain ⟨impl, hs⟩ := hl
  have hlist : ∀ ids, BlobSession.removeList cfg s deletes ids w =
      deleteEach cfg s deletes 0 ids w := by
    intro ids
    unfold BlobSession.removeList
    rw [BlobSessionManager.getSessionImpl_of_some hs]
  cases r with
  | vector ids first last => exact (BlobSession.removeVector_forward ids hr w).trans (hlist _)
  | list ids => exact hlist ids

theorem remove_succeeds {r : IdRange} (hr : r.Forward) (hl : w.manager.Live s) :
    BlobSession.remove cfg s (fun _ => .succeeds) r w =
      some (.ok (), actEach (World.without cfg s) r.ids w) :=
  (remove_forward hr hl).trans (deleteEach_succeeds 0 r.ids hl)

theorem removeCalls_succeeds {ranges : List IdRange} (hr : ∀ r ∈ ranges, r.Forward)
    (hl : w.manager.Live s) : BlobSession.removeCalls cfg s ranges w =
      some (.ok (), actEach (World.without cfg s) (ranges.map IdRange.ids).flatten w) := by
  induction ranges generalizing w with
  | nil => rfl
  | cons r rest ih =>
    rw [BlobSession.removeCalls, remove_succeeds (hr r List.mem_cons_self) hl]
    dsimp only
    rw [ih (fun q hq => hr q (List.mem_cons_of_mem r hq)) ((live_actEach _ _).mpr hl),
      List.map_cons, List.flatten_cons, actEach_append]

theorem removeCalls_set {ranges : List IdRange} (hr : ∀ r ∈ ranges, r.Forward)
    (hids : ∀ b, b ∈ ids ↔ ∃ r ∈ ranges, b ∈ r.ids) (hl : w.manager.Live s) :
    BlobSession.removeCalls cfg s ranges w =
      some (.ok (), actEach (World.without cfg s) ids w) := by
  rw [removeCalls_succeeds hr hl]
  have hset : ∀ b, b ∈ (ranges.map IdRange.ids).flatten ↔ b ∈ ids := by
    intro b
    rw [hids b, List.mem_flatten]
    constructor
    · rintro ⟨_, hmem, hb⟩
      obtain ⟨r, hr, rfl⟩ := List.mem_map.mp hmem
      exact ⟨r, hr, hb⟩
    · rintro ⟨r, hr, hb⟩
      exact ⟨r.ids, List.mem_map_of_mem hr, hb⟩
  rw [(World.without_setAction cfg s).congr hset]

/-! ### What is lost -/

theorem blobSessions_without_other {r b : ℕ} (hr : r ≠ s) :
    (w.without cfg s b).manager.blobSessions[r]? = w.manager.blobSessions[r]? := by
  unfold World.without
  split
  · rfl
  · rw [World.blobSessions_erased, if_neg (Ne.symm hr)]

theorem blobSessions_other {r : ℕ} (hr : r ≠ s) :
    (actEach (World.without cfg s) ids w).manager.blobSessions[r]? =
      w.manager.blobSessions[r]? := by
  induction ids generalizing w with
  | nil => rfl
  | cons b ids ih => rw [actEach_cons, ih, blobSessions_without_other hr]

theorem absent_without {b : ℕ} {p : Path} (h : w.files.names p = none) :
    (w.without cfg s b).files.names p = none := by
  unfold World.without
  split
  · exact h
  · rw [World.erased, FileSystem.names_unlink, h, ite_self]

theorem absent_actEach {p : Path} (h : w.files.names p = none) :
    (actEach (World.without cfg s) ids w).files.names p = none := by
  induction ids generalizing w with
  | nil => exact h
  | cons b ids ih => exact ih (absent_without h)

theorem absent_removed {b : ℕ} {path : Path} {size : ℕ} (hb : b ∈ ids)
    (he : w.entryOf s b = some (path, size)) :
    (actEach (World.without cfg s) ids w).files.names path = none := by
  rw [← (World.without_setAction cfg s).actEach_act hb w]
  refine absent_actEach ?_
  rw [World.without_of_some he]
  exact FileSystem.names_unlink_self _ _

theorem entryOf_of_session {impl : BlobSessionImpl} (hs : w.manager.blobSessions[s]? = some impl)
    (b : ℕ) : w.entryOf s b = impl.blobs[b]? := by
  rw [World.entryOf, hs, Option.bind_some]

theorem blobs_actEach {impl impl' : BlobSessionImpl}
    (hs : w.manager.blobSessions[s]? = some impl)
    (hs' : (actEach (World.without cfg s) ids w).manager.blobSessions[s]? = some impl') (b : ℕ) :
    impl'.blobs[b]? = if decide (b ∈ ids) then none else impl.blobs[b]? := by
  rw [← entryOf_of_session hs', entryOf_actEach, entryOf_of_session hs]
  by_cases hb : b ∈ ids
  · simp [hb]
  · simp [hb]

theorem losesIds_actEach : LosesIds s ids w (actEach (World.without cfg s) ids w) := by
  refine ⟨fun impl hs => ?_, fun impl impl' hs hs' hall => ?_, fun r hr => blobSessions_other hr⟩
  swap
  · have hkeys : impl'.entries = impl.entries.filter fun b => !decide (b ∈ ids) :=
      keys_restrict (blobs_actEach hs hs')
    rw [hkeys, List.filter_eq_nil_iff]
    intro b hb
    simp [hall b hb]
  obtain ⟨impl', hs'⟩ := (@live_actEach cfg s w ids s).mpr ⟨impl, hs⟩
  have hblobs := blobs_actEach hs hs'
  refine ⟨impl', hs', keys_restrict hblobs, ?_, fun b => ?_, fun b hb path hfind => ?_⟩
  · exact (ExtTreeMap.ordered_keys).imp fun h => Nat.compare_eq_lt.mp h
  · rw [BlobSessionImpl.find, hblobs, BlobSessionImpl.find]
    by_cases hb : b ∈ ids
    · simp [hb]
    · simp [hb]
  · obtain ⟨⟨path', size⟩, he, rfl⟩ := Option.map_eq_some_iff.mp hfind
    exact FileSystem.present_eq_false_iff.mpr
      (absent_removed hb ((entryOf_of_session hs b).trans he))

/-! ### The counter -/

theorem release_add {quota size cur : ℕ} (hq : quota ≠ 0) (hsize : size < 2^64) :
    (release quota size cur + size) % 2^64 = cur % 2^64 := by
  rw [release, if_pos hq, sub64]
  omega

theorem inWord_without (hw : InWord w) (hl : w.manager.Live s) (b : ℕ) :
    InWord (w.without cfg s b) :=
  hw.deleted (World.deleteBlobFile_succeeds hl)

theorem inWord_actEach (hw : InWord w) (hl : w.manager.Live s) (bs : List ℕ) :
    InWord (actEach (World.without cfg s) bs w) := by
  induction bs generalizing w with
  | nil => exact hw
  | cons b bs ih => exact ih (inWord_without hw hl b) ((World.live_without s).mpr hl)

/-- The counter goes down by what is no longer recorded, modulo 2^64. -/
theorem counter_without (hq : cfg.quota ≠ 0) (hw : InWord w) (hl : w.manager.Live s) (b : ℕ) :
    ((w.without cfg s b).manager.currentSize + w.manager.recordedTotal) % 2^64 =
      (w.manager.currentSize + (w.without cfg s b).manager.recordedTotal) % 2^64 := by
  have hdel := @World.deleteBlobFile_succeeds cfg s b w hl
  rcases World.deleteBlobFile_cases hdel with ⟨heq, _⟩ | ⟨e, _, her⟩ | ⟨_, _, hx, _⟩
  · rw [heq]
  · have hrec := her.recorded
    have hcur : (release cfg.quota e.2 w.manager.currentSize + e.2) % 2^64 =
        w.manager.currentSize % 2^64 := release_add hq (hw.recorded s b e her.found)
    rw [her.currentSize]
    omega
  · cases hx

theorem counter_actEach (hq : cfg.quota ≠ 0) (hw : InWord w) (hl : w.manager.Live s)
    (ids : List ℕ) :
    ((actEach (World.without cfg s) ids w).manager.currentSize + w.manager.recordedTotal) % 2^64 =
      (w.manager.currentSize +
        (actEach (World.without cfg s) ids w).manager.recordedTotal) % 2^64 := by
  induction ids generalizing w with
  | nil => rfl
  | cons b ids ih =>
    have hone := counter_without hq hw hl b
    have hrest := @ih (w.without cfg s b) (inWord_without hw hl b) ((World.live_without s).mpr hl)
    rw [actEach_cons]
    omega

theorem recordedTotal_actEach (cfg : Config) (hl : w.manager.Live s) (ids : List ℕ) :
    (actEach (World.without cfg s) ids w).manager.recordedTotal + removedSize s ids w =
      w.manager.recordedTotal := by
  obtain ⟨impl, hs⟩ := hl
  obtain ⟨impl', hs'⟩ := (@live_actEach cfg s w ids s).mpr ⟨impl, hs⟩
  have htotal := total_update BlobSessionImpl.recordedSize w.manager.blobSessions
    (actEach (World.without cfg s) ids w).manager.blobSessions s fun r hr => blobSessions_other hr
  rw [hs, hs', weight_some, weight_some] at htotal
  have hsession : removedSize s ids w + impl'.recordedSize = impl.recordedSize := by
    rw [removedSize, hs]
    exact total_restrict Prod.snd (blobs_actEach hs hs')
  unfold BlobSessionManager.recordedTotal
  omega

theorem counter_drops_iff (hq : cfg.quota ≠ 0) (hw : InWord w) (hl : w.manager.Live s) :
    (actEach (World.without cfg s) ids w).manager.currentSize + removedSize s ids w =
        w.manager.currentSize ↔ removedSize s ids w ≤ w.manager.currentSize := by
  have hsum := counter_actEach hq hw hl ids
  have hrec := recordedTotal_actEach cfg hl ids
  have hlt := hw.currentSize
  have hlt' := (@inWord_actEach cfg s w hw hl ids).currentSize
  constructor
  · intro h
    omega
  · intro h
    omega

/-! ### Every sequential history -/

theorem removesSet_of_covered (hw : InWord w) (hl : w.manager.Live s) (ids : List ℕ)
    (hcovers : cfg.quota ≠ 0 → removedSize s ids w ≤ w.manager.currentSize) :
    RemovesSet cfg s ids w := by
  refine ⟨actEach (World.without cfg s) ids w,
    fun ranges hr hids => removeCalls_set hr hids hl, losesIds_actEach, fun hq => ?_⟩
  exact (counter_drops_iff hq hw hl).mpr (hcovers hq)

theorem inWord_history {w₀ : World} {h : History} {cs : List SessionCall}
    {ok : History → SessionCall → Prop} (h₀ : Constructed cfg w₀)
    (hrun : Run (historyStep cfg) ok ⟨w₀, []⟩ cs h) : InWord h.world := by
  obtain ⟨ls, threads, hsystem⟩ := history_in_system hrun []
  exact inWord_run hsystem (inWord_constructed h₀)

/-- After any sequential history and for every list of ids: `remove` is set difference
exactly when the counter covers what the ids record. -/
theorem bulk_removal_iff {w₀ : World} {h : History} {cs : List SessionCall}
    {ok : History → SessionCall → Prop} (h₀ : Constructed cfg w₀)
    (hrun : Run (historyStep cfg) ok ⟨w₀, []⟩ cs h) (hl : h.world.manager.Live s) (ids : List ℕ) :
    RemovesSet cfg s ids h.world ↔
      (cfg.quota ≠ 0 → removedSize s ids h.world ≤ h.world.manager.currentSize) := by
  constructor
  · rintro ⟨w', hways, _, hcounter⟩ hq
    have hlt := hcounter hq
    omega
  · exact removesSet_of_covered (inWord_history h₀ hrun) hl ids

/-- In histories in which no size wraps the counter covers every list of ids. -/
theorem bulk_removal_orderly {w₀ : World} {h : History} {cs : List SessionCall}
    (h₀ : Constructed cfg w₀) (hrun : Run (historyStep cfg) (Orderly cfg) ⟨w₀, []⟩ cs h)
    (hl : h.world.manager.Live s) (ids : List ℕ) : RemovesSet cfg s ids h.world := by
  refine removesSet_of_covered (inWord_history h₀ hrun) hl ids fun hq => ?_
  have hrec := recordedTotal_actEach cfg hl ids
  have hcounted := (historyInv_run h₀ hrun).counted
  rw [Counted, if_neg hq] at hcounted
  omega

/-! ### Two uploads of 2^63 bytes -/

/-- A quota that is meant as none. -/
def unlimited : Config := {smallConfig with quota := 2^64 - 1}

/-- Deletions do not throw. -/
def Quiet (h : History) : SessionCall → Prop
  | .put env _ => Headroom h.world ∧ env.deletes = .succeeds ∧ env.removes = true
  | _ => Headroom h.world

def halfOfAll : List Bytes := List.replicate (2^43) (List.replicate (2^20) 0)

theorem totalLength_halfOfAll : totalLength halfOfAll = 2^63 := by
  rw [totalLength, halfOfAll, List.map_replicate, List.length_replicate, List.sum_replicate]
  norm_num

theorem unlimited_quota : unlimited.quota ≠ 0 := by
  show (2^64 - 1 : ℕ) ≠ 0
  norm_num

theorem scan_unlimited (cur : ℕ) (cs : List Bytes) :
    scan unlimited.quota cur (cs.map .chunk) = (.complete, cs) := by
  induction cs generalizing cur with
  | nil => rfl
  | cons bytes cs ih =>
    have hle : ¬ add64 cur bytes.length > unlimited.quota := by
      have hlt := add64_lt cur bytes.length
      show ¬ add64 cur bytes.length > 2^64 - 1
      omega
    have hgranted : (reserve unlimited.quota bytes.length cur).1 = true := by
      rw [reserve, if_pos unlimited_quota, if_neg hle]
    rw [List.map_cons, scan]
    dsimp only
    rw [if_pos hgranted, ih]

theorem put_unlimited (hw : WorldInv unlimited w) (hroom : Headroom w) (hl : w.manager.Live 1)
    (cs : List Bytes) : ∃ o w', put unlimited .calm (.metadata ⟨1, 1, none⟩ :: cs.map .chunk) w =
      some (o, w') ∧ Uploaded unlimited .calm 1 cs w w' := by
  obtain ⟨o, w', hput, hend⟩ := @put_ends unlimited .calm w (cs.map .chunk) ⟨1, 1, none⟩ hw hroom
    calm_favourable (by decide) hl _ _ (scan_unlimited _ cs)
  rcases hend with ⟨hsize, _⟩ | ⟨_, _, hup⟩
  · cases hsize
  · exact ⟨o, w', hput, hup⟩

theorem historyStep_put {env : PutEnv} {messages : List PutStreamingRequest} {o : PutOutcome}
    (h : put cfg env messages w = some (o, w')) (uploads : List (ℕ × Path)) :
    historyStep cfg (.put env messages) ⟨w, uploads⟩ =
      some ⟨w', uploads ++ named cfg messages w w'⟩ := by
  rw [historyStep, h]
  rfl

theorem le_removedSize {b : ℕ} {path : Path} {size : ℕ} (hb : b ∈ ids)
    (he : w.manager.Entry s b (path, size)) : size ≤ removedSize s ids w := by
  obtain ⟨impl, hs, hblob⟩ := he
  rw [removedSize, hs]
  refine List.single_le_sum (fun _ _ => Nat.zero_le _) size (List.mem_map.mpr ⟨b, ?_, ?_⟩)
  · exact List.mem_filter.mpr ⟨(mem_keys_iff _ _).mpr ⟨_, hblob⟩, decide_eq_true hb⟩
  · rw [hblob, weight_some]

/-- Two uploads whose sizes add up to 2^64 bring the counter back to zero. -/
theorem two_halves : ∃ (cs : List SessionCall) (h : History),
    Run (historyStep unlimited) Quiet ⟨smallStart.shared, []⟩ cs h ∧
      h.world.manager.currentSize = 0 ∧
      h.world.manager.Entry 1 1 (uploadPath unlimited 1, 2^63) := by
  have hcreated : historyStep unlimited (.env (.createSession none)) ⟨smallStart.shared, []⟩ =
      some ⟨(oneSession none).shared, []⟩ := rfl
  have hroom₀ : Headroom smallStart.shared := by
    show 0 + 1 < 2^64 ∧ 0 + 1 < 2^64
    norm_num
  have hreach : Reachable unlimited (oneSession none) := by
    have hrun : runs unlimited [.env (.createSession none)] smallStart = some (oneSession none) := rfl
    refine .of_runs ⟨⟨rfl, emptyDisk, rfl⟩, rfl⟩ hrun ?_
    show 0 + 1 < 2^64 ∧ 1 + 1 < 2^64
    norm_num
  have hroom := hreach.1
  have hl : (oneSession none).shared.manager.Live 1 :=
    (BlobSessionManager.owner_of_map (t := none) (by decide)).live
  obtain ⟨o, w₁, hput, hup⟩ := put_unlimited hreach.world hroom hl halfOfAll
  have hw₁ := (hup.safe hroom).inv hreach.world
  have hroom₁ : Headroom w₁ := by
    have hid : w₁.manager.blobId = 1 := hup.blobId
    refine ⟨by rw [hid]; norm_num, ?_⟩
    rw [hup.sessions.sessionId]
    exact hroom.2
  obtain ⟨o', w₂, hput', hup'⟩ :=
    put_unlimited hw₁ hroom₁ ((hup.sessions.live 1).mpr hl) halfOfAll
  have hfirst := historyStep_put hput []
  have hsecond := historyStep_put hput'
    ([] ++ named unlimited (.metadata ⟨1, 1, none⟩ :: halfOfAll.map .chunk) (oneSession none).shared w₁)
  refine ⟨_, _, .cons ?_ hcreated (.cons ?_ hfirst (.cons ?_ hsecond (.nil _))), ?_, ?_⟩
  · exact hroom₀
  · exact ⟨hroom, rfl, rfl⟩
  · exact ⟨hroom₁, rfl, rfl⟩
  · have hzero : (oneSession none).shared.manager.currentSize = 0 := rfl
    rw [hup'.currentSize, hup.currentSize, totalLength_halfOfAll, charged_charged, hzero, charged,
      if_pos unlimited_quota]
    norm_num
  · have hsize := hup.new_entry
    rw [totalLength_halfOfAll] at hsize
    exact (hup'.entry _ _ _).mpr (Or.inl hsize)

theorem removal_wraps : ¬ ∀ (cfg : Config) (w₀ : World) (cs : List SessionCall) (h : History)
    (s : ℕ) (ids : List ℕ), Constructed cfg w₀ → Run (historyStep cfg) Quiet ⟨w₀, []⟩ cs h →
    h.world.manager.Live s → RemovesSet cfg s ids h.world := by
  intro hall
  obtain ⟨cs, h, hrun, hcur, hentry⟩ := two_halves
  obtain ⟨w', _, _, hdrops⟩ :=
    hall unlimited _ cs h 1 [1] ⟨rfl, emptyDisk, rfl⟩ hrun hentry.live
  have hle := le_removedSize (List.mem_singleton.mpr rfl) hentry
  have hsum := hdrops unlimited_quota
  rw [hcur] at hsum
  omega

/-- Of the removed ids one comes twice, one is of the other session, one is gone already,
and one was never issued. -/
theorem bulk_removal_iff_mixed : ∃ h, exec (historyStep smallConfig)
      (fun h c => decide (Orderly smallConfig h c)) mixedHistory ⟨smallStart.shared, []⟩ = some h ∧
    RemovesSet smallConfig 1 [1, 5, 1, 2, 3, 99] h.world := by
  obtain ⟨h, hh, hend⟩ := (Option.any_eq_true
    (fun h : History => h.world.manager.blobSessions[1]?.isSome &&
      decide (removedSize 1 [1, 5, 1, 2, 3, 99] h.world ≤ h.world.manager.currentSize)) _).mp
    (by decide : (exec (historyStep smallConfig) (fun h c => decide (Orderly smallConfig h c))
      mixedHistory ⟨smallStart.shared, []⟩).any _ = true)
  simp only [Bool.and_eq_true, decide_eq_true_eq] at hend
  have hrun : Run (historyStep smallConfig) (Orderly smallConfig) ⟨smallStart.shared, []⟩
      mixedHistory h := .of_exec hh fun _ _ _ hc => of_decide_eq_true hc
  exact ⟨h, hh, (bulk_removal_iff smallStart_initial.1 hrun
    (Option.isSome_iff_exists.mp hend.1) _).mpr fun _ => hend.2⟩

end BlobRelay
