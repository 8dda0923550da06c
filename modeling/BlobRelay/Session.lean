import BlobRelay.Persistence

/-! # `blob_session` (session.h, session.cpp, session_impl.cpp)

`remove` and `dispose` running alone, on the session that `get_session` finds. The
`k`-th deletion of a call ends as `deletes k` says. -/

namespace BlobRelay
open Foundation Foundation.FileStore

/-- One `delete_blob_file` after the other, up to the first that throws. -/
def deleteEach (cfg : Config) (s : ℕ) (deletes : ℕ → DeleteResult) :
    ℕ → List ℕ → World → Option (Except Exn Unit × World)
  | _, [], w => some (.ok (), w)
  | k, b :: rest, w =>
    match w.deleteBlobFile cfg s b (deletes k) with
    | none => none
    | some (.error e, w) => some (.error e, w)
    | some (.ok (), w) => deleteEach cfg s deletes (k + 1) rest w

namespace BlobSession

def notForward : Exn := .stdException "iterator begin is greather than iterator end"

/-- `remove` with iterators of a vector, at the positions `first` and `last`. -/
def removeVector (cfg : Config) (s : ℕ) (deletes : ℕ → DeleteResult) (ids : List ℕ)
    (first last : ℕ) (w : World) : Option (Except Exn Unit × World) :=
  match w.manager.getSessionImpl s with
  | .error e => some (.error e, w)
  | .ok _ =>
    if first ≤ last then deleteEach cfg s deletes 0 ((ids.drop first).take (last - first)) w
    else some (.error notForward, w)

/-- `remove` with iterators of a list, over the elements between them. -/
def removeList (cfg : Config) (s : ℕ) (deletes : ℕ → DeleteResult) (ids : List ℕ) (w : World) :
    Option (Except Exn Unit × World) :=
  match w.manager.getSessionImpl s with
  | .error e => some (.error e, w)
  | .ok _ => deleteEach cfg s deletes 0 ids w

def dispose (cfg : Config) (s : ℕ) (deletes : ℕ → DeleteResult) (w : World) :
    Option (Except Exn Unit × World) :=
  match w.manager.getSessionImpl s with
  | .error e => some (.error e, w)
  | .ok impl =>
    match deleteEach cfg s deletes 0 impl.entries w with
    | none => none
    | some (.error e, w) => some (.error e, w)
    | some (.ok (), w) => some (.ok (), {w with manager := w.manager.dispose s})

end BlobSession

/-- Deletions of entries of `s`, with ids from `ids`, one after the other. -/
inductive Deletions (cfg : Config) (s : ℕ) (ids : List ℕ) : World → World → Prop
  | nil (w : World) : Deletions cfg s ids w w
  | cons {b : ℕ} {e : Path × ℕ} {w w₁ w' : World} : b ∈ ids → World.Erases cfg s b e w w₁ →
      Deletions cfg s ids w₁ w' → Deletions cfg s ids w w'

namespace Deletions
variable {cfg : Config} {s : ℕ} {ids ids' : List ℕ} {w w' : World}

theorem mono (hle : ∀ b ∈ ids, b ∈ ids') (h : Deletions cfg s ids w w') :
    Deletions cfg s ids' w w' := by
  induction h with
  | nil w => exact .nil w
  | cons hb her _ ih => exact .cons (hle _ hb) her ih

theorem invariant (I : World → Prop)
    (hstep : ∀ w b e w', I w → World.Erases cfg s b e w w' → I w') (h : Deletions cfg s ids w w')
    (hw : I w) : I w' := by
  induction h with
  | nil w => exact hw
  | cons _ her _ ih => exact ih (hstep _ _ _ _ hw her)

theorem sessions (h : Deletions cfg s ids w w') : KeepsSessions w.manager w'.manager := by
  induction h with
  | nil w => exact .refl _
  | cons _ her _ ih => exact her.sessions.trans ih

theorem entry_of_entry (h : Deletions cfg s ids w w') {r c : ℕ} {e : Path × ℕ}
    (he : w'.manager.Entry r c e) : w.manager.Entry r c e := by
  induction h with
  | nil w => exact he
  | cons _ her _ ih => exact ((her.entry r c e).mp (ih he)).1

theorem entry_other (h : Deletions cfg s ids w w') {r c : ℕ} {e : Path × ℕ}
    (hne : ¬ (r = s ∧ c ∈ ids)) (he : w.manager.Entry r c e) : w'.manager.Entry r c e := by
  induction h with
  | nil w => exact he
  | cons hb her _ ih =>
    refine ih ((her.entry r c e).mpr ⟨he, ?_⟩)
    rintro ⟨rfl, rfl⟩
    exact hne ⟨rfl, hb⟩

theorem sameAt (h : Deletions cfg s ids w w') {p : Path}
    (hp : ∀ b ∈ ids, ∀ e, w.manager.Entry s b e → e.1 ≠ p) : w.files.SameAt w'.files p := by
  induction h with
  | nil w => exact .refl _ p
  | cons hb her _ ih =>
    refine (sameAt_erases her (hp _ hb _ her.found)).trans (ih fun b hb e he => ?_)
    exact hp b hb e ((her.entry _ _ _).mp he).1

end Deletions

variable {cfg : Config} {s : ℕ} {deletes : ℕ → DeleteResult} {w w' : World}

theorem deleteEach_spec (cfg : Config) (hdel : ∀ k, deletes k = .succeeds) (hl : w.manager.Live s) (k : ℕ)
    (ids : List ℕ) :
    ∃ w', deleteEach cfg s deletes k ids w = some (.ok (), w') ∧ Deletions cfg s ids w w' ∧
      ∀ b ∈ ids, ∀ e, ¬ w'.manager.Entry s b e := by
  induction ids generalizing k w with
  | nil => exact ⟨w, rfl, .nil w, fun b hb => absurd hb List.not_mem_nil⟩
  | cons b rest ih =>
    obtain ⟨r, w₁, hr⟩ := World.deleteBlobFile_of_live cfg hl b (deletes k)
    have hmem : ∀ c ∈ rest, c ∈ b :: rest := fun c hc => List.mem_cons_of_mem b hc
    rcases World.deleteBlobFile_cases hr with
      ⟨rfl, rfl, _, hnone⟩ | ⟨e, rfl, her⟩ | ⟨_, _, _, hfail, _⟩
    · obtain ⟨w', hrest, hdels, hgone⟩ := ih hl (k + 1)
      refine ⟨w', by simp only [deleteEach, hr, hrest], hdels.mono hmem, fun c hc e he => ?_⟩
      rcases List.mem_cons.mp hc with rfl | hc
      · exact hnone e (hdels.entry_of_entry he)
      · exact hgone c hc e he
    · obtain ⟨w', hrest, hdels, hgone⟩ := ih ((her.sessions.live s).mpr hl) (k + 1)
      refine ⟨w', by simp only [deleteEach, hr, hrest], .cons List.mem_cons_self her
        (hdels.mono hmem), fun c hc e' he => ?_⟩
      rcases List.mem_cons.mp hc with rfl | hc
      · exact ((her.entry s c e').mp (hdels.entry_of_entry he)).2 ⟨rfl, rfl⟩
      · exact hgone c hc e' he
    · exact absurd (hdel k) hfail

namespace BlobSession

/-- `remove` only deletes entries of its session, or throws having done nothing. -/
theorem removeList_spec (cfg : Config) (s : ℕ) (hdel : ∀ k, deletes k = .succeeds)
    (ids : List ℕ) (w : World) :
    ∃ r w', removeList cfg s deletes ids w = some (r, w') ∧ Deletions cfg s ids w w' := by
  cases hs : w.manager.getSessionImpl s with
  | error e => exact ⟨.error e, w, by simp only [removeList, hs], .nil w⟩
  | ok impl =>
    obtain ⟨w', hrest, hdels, _⟩ :=
      deleteEach_spec cfg hdel ⟨impl, BlobSessionManager.getSessionImpl_ok hs⟩ 0 ids
    exact ⟨.ok (), w', by simp only [removeList, hs, hrest], hdels⟩

/-- A range of a vector that runs forward is removed as the list of its elements. -/
theorem removeVector_forward (ids : List ℕ) {first last : ℕ} (h : first ≤ last) (w : World) :
    removeVector cfg s deletes ids first last w =
      removeList cfg s deletes ((ids.drop first).take (last - first)) w := by
  unfold removeVector removeList
  simp only [if_pos h]

theorem removeVector_spec (cfg : Config) (s : ℕ) (hdel : ∀ k, deletes k = .succeeds)
    (ids : List ℕ) (first last : ℕ) (w : World) :
    ∃ r w', removeVector cfg s deletes ids first last w = some (r, w') ∧
      Deletions cfg s ids w w' := by
  by_cases h : first ≤ last
  · obtain ⟨r, w', heq, hdels⟩ :=
      removeList_spec cfg s hdel ((ids.drop first).take (last - first)) w
    refine ⟨r, w', (removeVector_forward ids h w).trans heq, hdels.mono fun b hb => ?_⟩
    exact List.mem_of_mem_drop (List.mem_of_mem_take hb)
  · cases hs : w.manager.getSessionImpl s with
    | error e => exact ⟨.error e, w, by simp only [removeVector, hs], .nil w⟩
    | ok impl => exact ⟨.error notForward, w, by simp only [removeVector, hs, if_neg h], .nil w⟩

/-- `dispose` of a live session deletes all its entries and then erases it. -/
theorem dispose_spec (cfg : Config) (hdel : ∀ k, deletes k = .succeeds) (hl : w.manager.Live s) :
    ∃ ids w₁, dispose cfg s deletes w = some (.ok (), {w₁ with manager := w₁.manager.dispose s}) ∧
      Deletions cfg s ids w w₁ ∧ ∀ b e, ¬ w₁.manager.Entry s b e := by
  obtain ⟨impl, hs⟩ := hl
  obtain ⟨w₁, hrest, hdels, hgone⟩ := deleteEach_spec cfg hdel ⟨impl, hs⟩ 0 impl.entries
  refine ⟨impl.entries, w₁, ?_, hdels, fun b e he => ?_⟩
  · simp only [dispose, BlobSessionManager.getSessionImpl_of_some hs, hrest]
  · obtain ⟨impl', hs', hb⟩ := hdels.entry_of_entry he
    obtain rfl := Option.some.inj (hs.symm.trans hs')
    exact hgone b ((OrderedMap.mem_keys_iff _ _).mpr ⟨e, hb⟩) e he

end BlobSession
end BlobRelay
