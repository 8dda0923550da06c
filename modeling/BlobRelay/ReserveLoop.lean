import BlobRelay.Foundation.CompareExchange
import BlobRelay.Foundation.Pool
import BlobRelay.SessionStore

/-! # The loop of `reserve` (session_store.h)

`current_size_` is shared by all sessions, and `reserve` holds no lock over it: it
loads the counter and exchanges it until it wins or the quota is reached. Its calls
do what `reserve` does in one step, which is how the handlers take it. -/

namespace BlobRelay
open Foundation Foundation.CompareExchange

/-- What a caller that loaded `current` wants to exchange it for. -/
def reserveUpdate (quota size current : ℕ) : Option ℕ :=
  if add64 current size > quota then none else some (add64 current size)

/-- A call of `reserve`, one access of the counter at a time. -/
def reserveLoopStep (quota : ℕ) (f : Unit) (currentSize : ℕ) (t : Loop ℕ ℕ) :
    Option (ℕ × Loop ℕ ℕ) :=
  if quota ≠ 0 then loopStep (reserveUpdate quota) f currentSize t
  else
    match t with
    | .called size => some (currentSize, .returned size true)
    | _ => none

/-- A call of `reserve` as one step. -/
def reserveStep (quota : ℕ) (_ : Unit) (currentSize : ℕ) : Once ℕ → Option (ℕ × Once ℕ)
  | .called size =>
    some ((reserve quota size currentSize).2, .returned size (reserve quota size currentSize).1)
  | .returned _ _ => none

/-- Calls of `reserve`, with `remove` at any time. -/
def reserveLoops (quota : ℕ) :
    Move ℕ ℕ Unit → Pool ℕ (Loop ℕ ℕ) → Option (Pool ℕ (Loop ℕ ℕ)) :=
  Pool.step (fun size v => some (release quota size v)) Loop.called (reserveLoopStep quota)

def reserves (quota : ℕ) : Move ℕ ℕ Unit → Pool ℕ (Once ℕ) → Option (Pool ℕ (Once ℕ)) :=
  Pool.step (fun size v => some (release quota size v)) Once.called (reserveStep quota)

variable {quota v v' : ℕ} {f : Unit}

theorem onceStep_reserve (hq : quota ≠ 0) (t : Once ℕ) :
    onceStep (reserveUpdate quota) f v t = reserveStep quota f v t := by
  cases t with
  | called size =>
    by_cases hfull : add64 v size > quota
    · simp only [onceStep, reserveStep, reserveUpdate, reserve, if_pos hq, if_pos hfull]
    · simp only [onceStep, reserveStep, reserveUpdate, reserve, if_pos hq, if_neg hfull]
  | returned size updated => rfl

theorem reserveLoopStep_once {t t' : Loop ℕ ℕ}
    (h : reserveLoopStep quota f v t = some (v', t')) :
    (v' = v ∧ t'.once (reserveUpdate quota) = t.once (reserveUpdate quota)) ∨
      reserveStep quota f v (t.once (reserveUpdate quota)) =
        some (v', t'.once (reserveUpdate quota)) := by
  unfold reserveLoopStep at h
  split at h
  · rename_i hq
    rw [← onceStep_reserve hq]
    exact loopStep_once h
  · rename_i hq
    cases t with
    | called size =>
      cases h
      right
      simp only [Loop.once, reserveStep, reserve, if_neg hq]
    | loaded size current => cases h
    | returned size updated => cases h

/-- Calls of the loop, in any interleaving with each other and with `remove`, come to
the counter and the answers of calls in one step. -/
theorem reserveLoops_reserves {ok : Move ℕ ℕ Unit → Prop} {p p' : Pool ℕ (Loop ℕ ℕ)}
    {ls : List (Move ℕ ℕ Unit)} (hrun : Run (reserveLoops quota) (fun _ l => ok l) p ls p') :
    ∃ ls', Run (reserves quota) (fun _ l => ok l) (p.mapThreads (Loop.once (reserveUpdate quota)))
      ls' (p'.mapThreads (Loop.once (reserveUpdate quota))) :=
  Pool.run_mapThreads (fun _ => rfl) (fun _ _ _ _ _ => reserveLoopStep_once) hrun

/-! ### Calls that fit together -/

/-- What the call has still to reserve. -/
def pendingSize : Once ℕ → ℕ
  | .called size => size
  | .returned _ _ => 0

/-- Nobody was refused, and what is reserved and what is to come add up. -/
structure Fitting (bound : ℕ) (p : Pool ℕ (Once ℕ)) : Prop where
  granted : ∀ t ∈ p.threads, ∀ size, t ≠ .returned size false
  usage : p.shared + p.total pendingSize = bound

theorem fitting_step {bound : ℕ} {p p' : Pool ℕ (Once ℕ)} {i : ℕ} (hq : quota ≠ 0)
    (hle : bound ≤ quota) (hlt : quota < 2^64) (h : Fitting bound p)
    (hstep : reserves quota (.run i f) p = some p') : Fitting bound p' := by
  obtain ⟨t, v, t', ht, hone, rfl⟩ := Pool.step_run hstep
  cases t with
  | returned size updated => cases hone
  | called size =>
    have hall := h.usage
    have hpending : size ≤ p.total pendingSize := Pool.le_total pendingSize ht
    have hres := @reserve_fits quota size p.shared hq (by omega) (by omega)
    simp only [reserveStep, hres] at hone
    obtain ⟨rfl, rfl⟩ := Prod.mk.inj (Option.some.inj hone)
    refine ⟨fun u hu size' => ?_, ?_⟩
    · rcases List.mem_or_eq_of_mem_set hu with hold | rfl
      · exact h.granted u hold size'
      · intro hbad
        cases hbad
    · have hmoved := Pool.total_run pendingSize ht (p.shared + size) (.returned size true)
      simp only [pendingSize] at hmoved
      show p.shared + size + _ = bound
      omega

theorem fitting_called {sizes : List ℕ} :
    Fitting (v + sizes.sum) (Pool.mapThreads (Loop.once (reserveUpdate quota))
      ⟨v, sizes.map .called⟩) := by
  have hthreads : (sizes.map Loop.called).map (Loop.once (reserveUpdate quota)) =
      sizes.map Once.called := by
    rw [List.map_map]
    rfl
  refine ⟨fun t ht size hbad => ?_, ?_⟩
  · rw [Pool.mapThreads, hthreads] at ht
    obtain ⟨n, _, rfl⟩ := List.mem_map.mp ht
    cases hbad
  · have hsum : ((sizes.map Once.called).map pendingSize).sum = sizes.sum := by
      rw [List.map_map]
      exact congrArg List.sum (List.map_id sizes)
    rw [Pool.total, Pool.mapThreads, hthreads, hsum]

/-- Calls that fit the quota together are never refused, however their accesses of the
counter interleave, and when all have returned it has gone up by the sum of them. -/
theorem reserveLoops_fit {sizes : List ℕ} {p : Pool ℕ (Loop ℕ ℕ)} {ls : List (Move ℕ ℕ Unit)}
    (hq : quota ≠ 0) (hfits : v + sizes.sum ≤ quota) (hlt : quota < 2^64)
    (hrun : Run (reserveLoops quota) (fun _ l => ∃ i, l = .run i ()) ⟨v, sizes.map .called⟩ ls p) :
    (∀ t ∈ p.threads, ∀ size, t ≠ .returned size false) ∧
      ((∀ t ∈ p.threads, ∃ size granted, t = .returned size granted) →
        p.shared = v + sizes.sum) := by
  obtain ⟨ls', hrun'⟩ := reserveLoops_reserves hrun
  have hend := hrun'.invariant (Fitting (v + sizes.sum))
    (fun p l p' h hok hst => by
      obtain ⟨i, rfl⟩ := hok
      exact fitting_step hq hfits hlt h hst) fitting_called
  refine ⟨fun t ht size hbad => ?_, fun hall => ?_⟩
  · subst hbad
    exact hend.granted _ (List.mem_map_of_mem ht) size rfl
  · have hnone : (p.mapThreads (Loop.once (reserveUpdate quota))).total pendingSize = 0 := by
      refine List.sum_eq_zero fun n hn => ?_
      obtain ⟨u, hu, rfl⟩ := List.mem_map.mp hn
      obtain ⟨t, ht, rfl⟩ := List.mem_map.mp hu
      obtain ⟨size, granted, rfl⟩ := hall t ht
      rfl
    have husage := hend.usage
    rw [hnone] at husage
    exact husage

end BlobRelay
