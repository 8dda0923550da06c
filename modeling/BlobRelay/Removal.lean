import BlobRelay.Foundation.SetAction
import BlobRelay.Session

/-! # Deletions as actions of a set (session_impl.cpp)

What a deletion that does not throw leaves is a function of the session and the id. Two
of them commute and the second of the same does nothing, so what a call of `remove`
comes to depends on the ids that are deleted and on nothing else. -/

namespace BlobRelay
open Std Foundation Foundation.FileStore Foundation.OrderedMap

namespace World

def entryOf (w : World) (s b : ℕ) : Option (Path × ℕ) :=
  w.manager.blobSessions[s]?.bind fun impl => impl.blobs[b]?

/-- The entry, its file and its reservation gone. -/
def erased (cfg : Config) (s b : ℕ) (path : Path) (size : ℕ) (w : World) : World where
  manager := BlobSessionManager.updateSession
    {w.manager with currentSize := release cfg.quota size w.manager.currentSize} s
    fun i => {i with blobs := i.blobs.erase b}
  files := w.files.unlink path

/-- What a deletion that does not throw leaves. -/
def without (cfg : Config) (s b : ℕ) (w : World) : World :=
  match w.entryOf s b with
  | none => w
  | some (path, size) => w.erased cfg s b path size

variable {cfg : Config} {s b c : ℕ} {w w' : World} {d : DeleteResult}

theorem entry_iff {e : Path × ℕ} : w.manager.Entry s b e ↔ w.entryOf s b = some e := by
  simp only [BlobSessionManager.Entry, entryOf, Option.bind_eq_some_iff]

theorem without_of_none (h : w.entryOf s b = none) : w.without cfg s b = w := by
  simp only [without, h]

theorem without_of_some {path : Path} {size : ℕ} (h : w.entryOf s b = some (path, size)) :
    w.without cfg s b = w.erased cfg s b path size := by
  simp only [without, h]

theorem blobSessions_erased {path : Path} {size : ℕ} (r : ℕ) :
    (w.erased cfg s b path size).manager.blobSessions[r]? =
      if s = r then w.manager.blobSessions[r]?.map fun i => {i with blobs := i.blobs.erase b}
      else w.manager.blobSessions[r]? := by
  rw [erased, BlobSessionManager.updateSession, get_modify]
  split
  · rename_i hr
    rw [hr]
  · rfl

theorem entryOf_erased {path : Path} {size : ℕ} (r k : ℕ) :
    (w.erased cfg s b path size).entryOf r k =
      if r = s ∧ k = b then none else w.entryOf r k := by
  rw [entryOf, blobSessions_erased]
  by_cases hr : s = r
  · subst hr
    rw [if_pos rfl, entryOf]
    cases w.manager.blobSessions[s]? with
    | none => simp
    | some impl =>
      simp only [Option.map_some, Option.bind_some, get_erase, true_and]
      by_cases hk : b = k
      · rw [if_pos hk, if_pos hk.symm]
      · rw [if_neg hk, if_neg (Ne.symm hk)]
  · rw [if_neg hr, if_neg (fun h => hr h.1.symm), entryOf]

theorem entryOf_without (r k : ℕ) :
    (w.without cfg s b).entryOf r k = if r = s ∧ k = b then none else w.entryOf r k := by
  cases hb : w.entryOf s b with
  | none =>
    rw [without_of_none hb]
    split
    · rename_i h
      rw [h.1, h.2, hb]
    · rfl
  | some e => rw [without_of_some hb, entryOf_erased]

/-! ### They commute -/

theorem sub64_comm (cur m n : ℕ) : sub64 (sub64 cur m) n = sub64 (sub64 cur n) m := by
  unfold sub64
  omega

theorem release_comm (quota cur m n : ℕ) :
    release quota n (release quota m cur) = release quota m (release quota n cur) := by
  unfold release
  split
  · exact sub64_comm cur m n
  · rfl

theorem erase_comm (blobs : ExtTreeMap ℕ (Path × ℕ)) (b c : ℕ) :
    (blobs.erase b).erase c = (blobs.erase c).erase b := by
  refine ExtTreeMap.ext_getElem? fun k => ?_
  simp only [get_erase]
  split <;> split <;> rfl

theorem erased_comm (path path' : Path) (m n : ℕ) :
    (w.erased cfg s b path m).erased cfg s c path' n =
      (w.erased cfg s c path' n).erased cfg s b path m := by
  have hsessions : ((w.erased cfg s b path m).erased cfg s c path' n).manager.blobSessions =
      ((w.erased cfg s c path' n).erased cfg s b path m).manager.blobSessions := by
    refine ExtTreeMap.ext_getElem? fun r => ?_
    simp only [blobSessions_erased]
    by_cases hr : s = r
    · simp only [if_pos hr, Option.map_map, Function.comp_def, erase_comm _ b c]
    · simp only [if_neg hr]
  have hsize : ((w.erased cfg s b path m).erased cfg s c path' n).manager.currentSize =
      ((w.erased cfg s c path' n).erased cfg s b path m).manager.currentSize :=
    release_comm cfg.quota w.manager.currentSize m n
  have hfiles : ((w.erased cfg s b path m).erased cfg s c path' n).files =
      ((w.erased cfg s c path' n).erased cfg s b path m).files :=
    w.files.unlink_comm path path'
  unfold erased at hsessions hsize hfiles ⊢
  simp only [BlobSessionManager.updateSession] at hsessions hsize hfiles ⊢
  rw [hsessions, hsize, hfiles]

/-- Deletions in a session are actions of the set of their ids. -/
theorem without_setAction (cfg : Config) (s : ℕ) : SetAction (without cfg s) where
  commute b c w := by
    by_cases hne : b = c
    · rw [hne]
    · have hb := @entryOf_without cfg s c w s b
      have hc := @entryOf_without cfg s b w s c
      rw [if_neg (fun h => hne h.2)] at hb
      rw [if_neg (fun h => hne h.2.symm)] at hc
      cases hwb : w.entryOf s b with
      | none => rw [without_of_none (hb.trans hwb), without_of_none hwb]
      | some e =>
        cases hwc : w.entryOf s c with
        | none => rw [without_of_none (hc.trans hwc), without_of_none hwc]
        | some e' =>
          rw [without_of_some (hb.trans hwb), without_of_some (hc.trans hwc),
            without_of_some hwb, without_of_some hwc, erased_comm]
  twice b w := by
    refine without_of_none ?_
    rw [entryOf_without, if_pos ⟨rfl, rfl⟩]

/-! ### What the code does -/

theorem live_without (r : ℕ) : (w.without cfg s b).manager.Live r ↔ w.manager.Live r := by
  unfold without
  split
  · rfl
  · rename_i path size _
    simp only [BlobSessionManager.Live, blobSessions_erased]
    split
    · simp
    · rfl

theorem deleteBlobFile_ok (h : deleteBlobFile cfg s b d w = some (.ok (), w')) :
    w' = w.without cfg s b := by
  obtain ⟨impl, hs, he⟩ := Option.map_eq_some_iff.mp h
  have hentry : w.entryOf s b = impl.blobs[b]? := by rw [entryOf, hs, Option.bind_some]
  cases hb : impl.blobs[b]? with
  | none =>
    simp only [hb] at he
    cases he
    exact (without_of_none (hentry.trans hb)).symm
  | some e =>
    rw [without_of_some (hentry.trans hb)]
    simp only [hb] at he
    cases hp : w.files.present e.1 with
    | true =>
      cases d with
      | succeeds =>
        simp only [hp] at he
        cases he
        rfl
      | existsThrows => cases he
      | removeThrows =>
        simp only [hp] at he
        cases he
    | false =>
      rw [erased, FileSystem.unlink_of_absent hp]
      cases d with
      | succeeds =>
        simp only [hp] at he
        cases he
        rfl
      | existsThrows => cases he
      | removeThrows =>
        simp only [hp] at he
        cases he
        rfl

theorem deleteBlobFile_succeeds (hl : w.manager.Live s) :
    deleteBlobFile cfg s b .succeeds w = some (.ok (), w.without cfg s b) := by
  obtain ⟨r, w', h⟩ := deleteBlobFile_of_live cfg hl b .succeeds
  rcases deleteBlobFile_cases h with ⟨_, rfl, _⟩ | ⟨_, rfl, _⟩ | ⟨_, _, _, hfail, _⟩
  · rw [h, deleteBlobFile_ok h]
  · rw [h, deleteBlobFile_ok h]
  · exact absurd rfl hfail

end World

variable {cfg : Config} {s : ℕ} {deletes : ℕ → DeleteResult} {w w' : World}

theorem live_actEach (ids : List ℕ) (r : ℕ) :
    (actEach (World.without cfg s) ids w).manager.Live r ↔ w.manager.Live r := by
  induction ids generalizing w with
  | nil => rfl
  | cons b ids ih => rw [actEach_cons, ih, World.live_without]

theorem entryOf_actEach (ids : List ℕ) (r k : ℕ) :
    (actEach (World.without cfg s) ids w).entryOf r k =
      if r = s ∧ k ∈ ids then none else w.entryOf r k := by
  induction ids generalizing w with
  | nil => simp
  | cons b ids ih =>
    rw [actEach_cons, ih, World.entryOf_without]
    by_cases hr : r = s
    · by_cases hb : k = b
      · simp [hr, hb]
      · simp [hr, hb]
    · simp [hr]

theorem deleteEach_succeeds (k : ℕ) (ids : List ℕ) (hl : w.manager.Live s) :
    deleteEach cfg s (fun _ => .succeeds) k ids w =
      some (.ok (), actEach (World.without cfg s) ids w) := by
  induction ids generalizing k w with
  | nil => rfl
  | cons b ids ih =>
    rw [deleteEach, World.deleteBlobFile_succeeds hl]
    exact ih (k + 1) ((World.live_without s).mpr hl)

/-- Whatever the outcomes of the file-system calls: when no deletion throws, the ids
are gone as if all had succeeded. -/
theorem deleteEach_ok {k : ℕ} {ids : List ℕ}
    (h : deleteEach cfg s deletes k ids w = some (.ok (), w')) :
    w' = actEach (World.without cfg s) ids w := by
  induction ids generalizing k w with
  | nil =>
    cases h
    rfl
  | cons b ids ih =>
    simp only [deleteEach] at h
    split at h
    · cases h
    · cases h
    · rename_i w₁ hd
      rw [actEach_cons, ← World.deleteBlobFile_ok hd]
      exact ih h

end BlobRelay
