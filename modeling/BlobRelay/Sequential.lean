import BlobRelay.Alone
import BlobRelay.Disposal

/-! # Sequential histories are runs of the service

`historyStep` takes a call as one step; the service runs it as a handler while every
other handler stands still. -/

namespace BlobRelay
open Foundation

variable {cfg : Config} {h h' : History} {c : SessionCall}

/-- A handler that is called and runs to its end, the others standing still. -/
theorem Reaches.called {w w' : World} {c : Call} {t' : Handler} (h : Reaches cfg w c.start w' t')
    (threads : List Handler) :
    ∃ ls threads', Run (systemStep cfg) (fun _ _ => True) ⟨w, threads⟩ ls ⟨w', threads'⟩ := by
  have hstart : (threads ++ [c.start])[threads.length]? = some c.start :=
    List.getElem?_concat_length
  obtain ⟨ls, hrun⟩ := h.system hstart
  exact ⟨_, _, .cons trivial (rfl : systemStep cfg (.call c) ⟨w, threads⟩ = _) hrun⟩

theorem historyStep_in_system (hst : historyStep cfg c h = some h') (threads : List Handler) :
    ∃ ls threads', Run (systemStep cfg) (fun _ _ => True) ⟨h.world, threads⟩ ls
      ⟨h'.world, threads'⟩ := by
  have hnil : ∃ ls threads', Run (systemStep cfg) (fun _ _ => True) ⟨h.world, threads⟩ ls
      (⟨h.world, threads'⟩ : System) := ⟨[], threads, .nil _⟩
  have hlist : ∀ {s : ℕ} {ids : List ℕ} {x : Except Exn Unit × World},
      BlobSession.removeList cfg s (fun _ => .succeeds) ids h.world = some x →
      ∃ ls threads', Run (systemStep cfg) (fun _ _ => True) ⟨h.world, threads⟩ ls
        ⟨x.2, threads'⟩ := by
    intro s ids x hx
    exact Reaches.called (c := .remove s ids) (remove_reaches hx) threads
  cases c with
  | env a =>
    obtain ⟨w, hw, rfl⟩ := Option.map_eq_some_iff.mp hst
    have hone : systemStep cfg (.env a) ⟨h.world, threads⟩ = some ⟨w, threads⟩ := by
      simp only [systemStep, Pool.step, hw, Option.map_some]
    exact ⟨_, _, .cons trivial hone (.nil _)⟩
  | put env messages =>
    obtain ⟨x, hx, rfl⟩ := Option.map_eq_some_iff.mp hst
    obtain ⟨u, hreach⟩ := put_reaches hx
    exact Reaches.called (c := .put messages) hreach threads
  | removeVector s ids first last =>
    obtain ⟨x, hx, rfl⟩ := Option.map_eq_some_iff.mp hst
    by_cases hle : first ≤ last
    · rw [BlobSession.removeVector_forward ids hle] at hx
      exact hlist hx
    · have hsame : x.2 = h.world := by
        unfold BlobSession.removeVector at hx
        rw [if_neg hle] at hx
        split at hx <;> cases hx <;> rfl
      rw [hsame]
      exact hnil
  | removeList s ids =>
    obtain ⟨x, hx, rfl⟩ := Option.map_eq_some_iff.mp hst
    exact hlist hx
  | dispose s =>
    obtain ⟨x, hx, rfl⟩ := Option.map_eq_some_iff.mp hst
    exact Reaches.called (c := .dispose s) (dispose_reaches hx) threads

theorem history_in_system {ok : History → SessionCall → Prop} {cs : List SessionCall}
    (hrun : Run (historyStep cfg) ok h cs h') (threads : List Handler) :
    ∃ ls threads', Run (systemStep cfg) (fun _ _ => True) ⟨h.world, threads⟩ ls
      ⟨h'.world, threads'⟩ := by
  induction hrun generalizing threads with
  | nil h => exact ⟨[], threads, .nil _⟩
  | cons _ hst _ ih =>
    obtain ⟨ls, mid, hone⟩ := historyStep_in_system hst threads
    obtain ⟨ms, last, hrest⟩ := ih mid
    exact ⟨ls ++ ms, last, hone.append hrest⟩

end BlobRelay
