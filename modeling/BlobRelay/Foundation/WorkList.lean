import BlobRelay.Foundation.Pool
import BlobRelay.Foundation.SetAction

/-! # Threads that work off lists of actions

Every thread has a list of actions left and does them from the front, one a step. When
the actions commute, doing what is left to the shared state comes to the same at every
moment, so the schedule does not matter. -/

namespace Foundation.Pool
variable {W H E C F ι : Type} {act : ι → W → W} {todo : H → List ι}

/-- What all the threads have left to do. -/
def todos (todo : H → List ι) (p : Pool W H) : List ι := p.threads.flatMap todo

/-- What the calls of a run ask for. -/
def issued (start : C → H) (todo : H → List ι) (ls : List (Move E C F)) : List ι :=
  ls.flatMap fun l => match l with
    | .call c => todo (start c)
    | _ => []

theorem mem_todos {p : Pool W H} {a : ι} :
    a ∈ p.todos todo ↔ ∃ (i : ℕ) (t : H), p.threads[i]? = some t ∧ a ∈ todo t := by
  rw [todos, List.mem_flatMap]
  constructor
  · intro ⟨t, ht, ha⟩
    obtain ⟨i, hi⟩ := List.mem_iff_getElem?.mp ht
    exact ⟨i, t, hi, ha⟩
  · intro ⟨i, t, hi, ha⟩
    exact ⟨t, List.mem_of_getElem? hi, ha⟩

/-- A step of thread `i` that takes `done` off its list takes it off the whole. -/
theorem mem_todos_run {p : Pool W H} {i : ℕ} {t t' : H} {done : List ι} {w : W}
    (ht : p.threads[i]? = some t) (hdone : todo t = done ++ todo t') (a : ι) :
    a ∈ p.todos todo ↔ a ∈ done ++ todos todo ⟨w, p.threads.set i t'⟩ := by
  have hlt : i < p.threads.length := (List.getElem?_eq_some_iff.mp ht).1
  rw [List.mem_append, mem_todos, mem_todos]
  constructor
  · intro ⟨j, u, hu, ha⟩
    by_cases hji : j = i
    · subst hji
      obtain rfl := Option.some.inj (ht.symm.trans hu)
      rw [hdone, List.mem_append] at ha
      exact ha.imp_right fun ha => ⟨j, t', List.getElem?_set_self hlt, ha⟩
    · exact Or.inr ⟨j, u, (List.getElem?_set_ne (Ne.symm hji)).trans hu, ha⟩
  · intro h
    rcases h with ha | ⟨j, u, hu, ha⟩
    · exact ⟨i, t, ht, hdone ▸ List.mem_append_left _ ha⟩
    · rcases getElem_set hu with ⟨_, rfl⟩ | ⟨_, hu⟩
      · exact ⟨i, t, ht, hdone ▸ List.mem_append_right _ ha⟩
      · exact ⟨j, u, hu, ha⟩

variable {envStep : E → W → Option W} {start : C → H} {threadStep : F → W → H → Option (W × H)}

/-- A step of a thread does the first few of the actions it has left. -/
def WorksOff (act : ι → W → W) (todo : H → List ι) (w : W) (t : H) (w' : W) (t' : H) : Prop :=
  ∃ done : List ι, todo t = done ++ todo t' ∧ w' = actEach act done w

theorem todos_run (todo : H → List ι) (works : H → Prop) {ok : Pool W H → Move E C F → Prop}
    (hact : SetAction act) (henv : ∀ p e, ¬ ok p (.env e)) (hcall : ∀ p c, ok p (.call c) → works (start c))
    (hstep : ∀ p i f t w t', ok p (.run i f) → works t → p.threads[i]? = some t →
      threadStep f p.shared t = some (w, t') → works t' ∧ WorksOff act todo p.shared t w t')
    {p p' : Pool W H} {ls : List (Move E C F)}
    (h : Run (step envStep start threadStep) ok p ls p') (hp : ∀ t ∈ p.threads, works t) :
    actEach act (p'.todos todo) p'.shared =
      actEach act (p.todos todo ++ issued start todo ls) p.shared := by
  induction h with
  | nil p => simp only [issued, List.flatMap_nil, List.append_nil]
  | @cons p q p' l ls hok hst _ ih =>
    cases l with
    | env e => exact absurd hok (henv p e)
    | call c =>
      obtain rfl := step_call hst
      have hq : ∀ t ∈ p.threads ++ [start c], works t := by
        intro t ht
        rcases List.mem_append.mp ht with ht | ht
        · exact hp t ht
        · obtain rfl := List.mem_singleton.mp ht
          exact hcall p c hok
      rw [ih hq]
      have hlists : todos todo ⟨p.shared, p.threads ++ [start c]⟩ ++ issued start todo ls =
          p.todos todo ++ issued start todo (.call c :: ls) := by
        simp only [todos, issued, List.flatMap_append, List.flatMap_cons, List.flatMap_nil,
          List.append_nil, List.append_assoc]
      rw [hlists]
    | run i f =>
      obtain ⟨t, w, t', ht, hone, rfl⟩ := step_run hst
      obtain ⟨hw, done, hdone, rfl⟩ :=
        hstep p i f t w t' hok (hp t (List.mem_of_getElem? ht)) ht hone
      have hq : ∀ u ∈ p.threads.set i t', works u := by
        intro u hu
        rcases List.mem_or_eq_of_mem_set hu with hu | rfl
        · exact hp u hu
        · exact hw
      -- the actions done now are the front of all that is left
      rw [ih hq, ← actEach_append]
      refine hact.congr (fun a => ?_) p.shared
      show a ∈ done ++ (todos todo ⟨_, p.threads.set i t'⟩ ++ issued start todo ls) ↔
        a ∈ p.todos todo ++ issued start todo ls
      rw [← List.append_assoc, List.mem_append, ← mem_todos_run ht hdone a, List.mem_append]

end Foundation.Pool
