import Mathlib.Tactic

/-! # Runs of a labelled transition function

`step l s = none` means that `l` is not enabled in `s`. A run carries a
condition `ok` that every step has to meet in the state it is taken from, so
that a property of all runs and a property of the runs that avoid some step are
the same kind of statement. -/

namespace Foundation

variable {S L : Type}

/-- Runs of `step` whose every step meets `ok` in the state before it. -/
inductive Run (step : L → S → Option S) (ok : S → L → Prop) : S → List L → S → Prop
  | nil (s : S) : Run step ok s [] s
  | cons {s s' s'' : S} {l : L} {ls : List L} : ok s l → step l s = some s' →
      Run step ok s' ls s'' → Run step ok s (l :: ls) s''

namespace Run
variable {step : L → S → Option S} {ok ok' : S → L → Prop}

theorem append {s s' s'' : S} {ls ms : List L} (h : Run step ok s ls s')
    (h' : Run step ok s' ms s'') : Run step ok s (ls ++ ms) s'' := by
  induction h with
  | nil => exact h'
  | cons hok hs _ ih => exact .cons hok hs (ih h')

theorem mono (hle : ∀ s l, ok s l → ok' s l) {s s' : S} {ls : List L}
    (h : Run step ok s ls s') : Run step ok' s ls s' := by
  induction h with
  | nil s => exact .nil s
  | cons hok hs _ ih => exact .cons (hle _ _ hok) hs ih

/-- The induction rule: what holds at the start and is kept by every step that
meets the condition holds at the end. -/
theorem invariant (I : S → Prop) (hstep : ∀ s l s', I s → ok s l → step l s = some s' → I s')
    {s s' : S} {ls : List L} (h : Run step ok s ls s') (hs : I s) : I s' := by
  induction h with
  | nil => exact hs
  | cons hok hst _ ih => exact ih (hstep _ _ _ hs hok hst)

theorem carry (I : S → Prop) (hstep : ∀ s l s', I s → ok s l → step l s = some s' → I s')
    {s s' : S} {ls : List L} (h : Run step ok s ls s') (hs : I s) :
    Run step (fun s l => ok s l ∧ I s) s ls s' := by
  induction h with
  | nil s => exact .nil s
  | cons hok hst _ ih => exact .cons ⟨hok, hs⟩ hst (ih (hstep _ _ _ hs hok hst))

/-- Runs of one system are runs of another when each step is matched. -/
theorem simulate {S' L' : Type} {step' : L' → S' → Option S'} {okT : S' → L' → Prop}
    (f : S → S') (g : L → L')
    (hsim : ∀ s l s', ok s l → step l s = some s' →
      okT (f s) (g l) ∧ step' (g l) (f s) = some (f s'))
    {s s' : S} {ls : List L} (h : Run step ok s ls s') :
    Run step' okT (f s) (ls.map g) (f s') := by
  induction h with
  | nil s => exact .nil (f s)
  | cons hok hst _ ih =>
    obtain ⟨hok', hst'⟩ := hsim _ _ _ hok hst
    exact .cons hok' hst' ih

/-- Runs of a finer system are runs of a coarser one when each step is matched or
stands for nothing. -/
theorem refine {S' L' : Type} {step' : L' → S' → Option S'} {okT : S' → L' → Prop}
    (f : S → S') (hsim : ∀ s l s', ok s l → step l s = some s' →
      f s' = f s ∨ ∃ l', okT (f s) l' ∧ step' l' (f s) = some (f s'))
    {s s' : S} {ls : List L} (h : Run step ok s ls s') :
    ∃ ls', Run step' okT (f s) ls' (f s') := by
  induction h with
  | nil s => exact ⟨[], .nil (f s)⟩
  | cons hok hst _ ih =>
    obtain ⟨ls', hrun⟩ := ih
    rcases hsim _ _ _ hok hst with hsame | ⟨l', hok', hst'⟩
    · rw [hsame] at hrun
      exact ⟨ls', hrun⟩
    · exact ⟨l' :: ls', .cons hok' hst' hrun⟩

/-- Runs of a coarser system are runs of a finer one when each step is made of steps. -/
theorem embed {S' L' : Type} {step' : L' → S' → Option S'} {okT : S' → L' → Prop}
    (f : S → S') (hsim : ∀ s l s', ok s l → step l s = some s' →
      ∃ ls, Run step' okT (f s) ls (f s'))
    {s s' : S} {ls : List L} (h : Run step ok s ls s') :
    ∃ ls', Run step' okT (f s) ls' (f s') := by
  induction h with
  | nil s => exact ⟨[], .nil (f s)⟩
  | cons hok hst _ ih =>
    obtain ⟨ls₁, hone⟩ := hsim _ _ _ hok hst
    obtain ⟨ls₂, hrest⟩ := ih
    exact ⟨ls₁ ++ ls₂, hone.append hrest⟩

end Run

/-- The state after a list of labels, when each of them is enabled and passes the
check in turn. -/
def exec (step : L → S → Option S) (check : S → L → Bool) : List L → S → Option S
  | [], s => some s
  | l :: ls, s => if check s l then (step l s).bind (exec step check ls) else none

theorem Run.of_exec {step : L → S → Option S} {check : S → L → Bool} {ok : S → L → Prop}
    {ls : List L} {s s' : S} (h : exec step check ls s = some s')
    (hok : ∀ s, ∀ l ∈ ls, check s l = true → ok s l) : Run step ok s ls s' := by
  induction ls generalizing s with
  | nil =>
    have he : s = s' := Option.some.inj h
    subst he
    exact .nil s
  | cons l ls ih =>
    unfold exec at h
    split at h
    · rename_i hc
      obtain ⟨t, ht, hrest⟩ := Option.bind_eq_some_iff.mp h
      exact .cons (hok s l List.mem_cons_self hc) ht
        (ih hrest fun s l hl => hok s l (List.mem_cons_of_mem _ hl))
    · cases h

theorem Run.to_exec {step : L → S → Option S} {check : S → L → Bool} {ok : S → L → Prop}
    {ls : List L} {s s' : S} (hcheck : ∀ s l, ok s l → check s l = true)
    (h : Run step ok s ls s') : exec step check ls s = some s' := by
  induction h with
  | nil => rfl
  | cons hok hst _ ih =>
    rw [exec, if_pos (hcheck _ _ hok), hst, Option.bind_some]
    exact ih

/-! ### Observations -/

/-- What the steps of a run show, each of the state it is taken from. -/
def observe {O : Type} (step : L → S → Option S) (obs : S → L → List O) : List L → S → List O
  | [], _ => []
  | l :: ls, s => obs s l ++ ((step l s).elim [] (observe step obs ls))

section Observe
variable {O O' : Type} {step : L → S → Option S} {ok : S → L → Prop} {s s' : S} {l : L}
  {ls : List L}

theorem observe_cons (obs : S → L → List O) (h : step l s = some s') :
    observe step obs (l :: ls) s = obs s l ++ observe step obs ls s' := by
  simp only [observe, h, Option.elim_some]

theorem Run.observe_append (obs : S → L → List O) (h : Run step ok s ls s') (ms : List L) :
    observe step obs (ls ++ ms) s = observe step obs ls s ++ observe step obs ms s' := by
  induction h with
  | nil => rfl
  | cons _ hst _ ih =>
    rw [List.cons_append, observe_cons _ hst, observe_cons _ hst, ih, List.append_assoc]

theorem observe_sublist {obs : S → L → List O} {obs' : S → L → List O'} (g : O' → O)
    (h : ∀ s l, (obs s l).Sublist ((obs' s l).map g)) (ls : List L) (s : S) :
    (observe step obs ls s).Sublist ((observe step obs' ls s).map g) := by
  induction ls generalizing s with
  | nil => exact .refl []
  | cons l ls ih =>
    simp only [observe, List.map_append]
    refine (h s l).append ?_
    cases step l s with
    | none => exact .refl []
    | some s' => exact ih s'

theorem Run.length_observe (p : L → Bool) (h : Run step ok s ls s') :
    (observe step (fun _ l => if p l then [l] else []) ls s).length = ls.countP p := by
  induction h with
  | nil => rfl
  | @cons s t u l ls _ hst _ ih =>
    rw [observe_cons _ hst, List.length_append, ih]
    cases hl : p l with
    | true => simp [hl, Nat.add_comm]
    | false => simp [hl]

/-- A counter that goes up by one when something is observed, short of a bound, is
short of it at each such step of a run that shows few enough. -/
theorem Run.withRoom (c : S → ℕ) (obs : S → L → List O) {bound : ℕ}
    (hcount : ∀ s l s', step l s = some s' → (obs s l = [] ∧ c s' = c s) ∨
      ((obs s l).length = 1 ∧ (c s + 1 < bound → c s' = c s + 1)))
    (h : Run step ok s ls s') (hlt : c s + (observe step obs ls s).length < bound) :
    Run step (fun s l => ok s l ∧ (obs s l ≠ [] → c s + 1 < bound)) s ls s' := by
  induction h with
  | nil s => exact .nil s
  | @cons s t u l ls hok hst _ ih =>
    rw [observe_cons _ hst, List.length_append] at hlt
    rcases hcount s l t hst with ⟨hnone, hsame⟩ | ⟨hone, hup⟩
    · rw [hnone, List.length_nil] at hlt
      exact .cons ⟨hok, fun h => absurd hnone h⟩ hst (ih (by omega))
    · have hroom : c s + 1 < bound := by omega
      have hnext := hup hroom
      exact .cons ⟨hok, fun _ => hroom⟩ hst (ih (by omega))

/-- What is observed is the counter itself: the observations are its values in turn. -/
theorem Run.observe_counter (c : S → ℕ) (obs : S → L → List ℕ)
    (hcount : ∀ s l s', ok s l → step l s = some s' →
      (obs s l = [] ∧ c s' = c s) ∨ (obs s l = [c s + 1] ∧ c s' = c s + 1))
    (h : Run step ok s ls s') :
    observe step obs ls s = List.range' (c s + 1) (observe step obs ls s).length := by
  induction h with
  | nil => rfl
  | @cons s t u l ls hok hst _ ih =>
    rw [observe_cons _ hst]
    rcases hcount s l t hok hst with ⟨hnone, hsame⟩ | ⟨hone, hup⟩
    · rw [hnone, List.nil_append, ← hsame]
      exact ih
    · rw [hone, List.singleton_append, List.length_cons, List.range'_succ, ← hup, ← ih]

/-- What holds of an observation right after it and is kept by every step holds of
all of them at the end. -/
theorem Run.observed {obs : S → L → List O} (P : O → S → Prop)
    (hnew : ∀ s l s', ok s l → step l s = some s' → ∀ x ∈ obs s l, P x s')
    (hkeep : ∀ s l s', ok s l → step l s = some s' → ∀ x, P x s → P x s')
    (h : Run step ok s ls s') : ∀ x ∈ observe step obs ls s, P x s' := by
  induction h with
  | nil =>
    intro x hx
    cases hx
  | @cons s t u l ls hok hst hrest ih =>
    intro x hx
    rw [observe_cons _ hst] at hx
    rcases List.mem_append.mp hx with hx | hx
    · exact hrest.invariant (P x) (fun _ _ _ hp hok hst => hkeep _ _ _ hok hst x hp)
        (hnew _ _ _ hok hst x hx)
    · exact ih x hx

/-- What is not shown again once it has been shown. -/
theorem Run.observe_nodup {obs : S → L → List O} (P : O → S → Prop)
    (hone : ∀ s l s', ok s l → step l s = some s' → (obs s l).Nodup)
    (hnew : ∀ s l s', ok s l → step l s = some s' → ∀ x ∈ obs s l, P x s')
    (hkeep : ∀ s l s', ok s l → step l s = some s' → ∀ x, P x s → P x s')
    (hnot : ∀ s l s', ok s l → step l s = some s' → ∀ x, P x s → x ∉ obs s l)
    (h : Run step ok s ls s') : (observe step obs ls s).Nodup := by
  -- whatever `P` holds of is not shown by the rest of the run
  have hlater : ∀ {s s' : S} {ls : List L}, Run step ok s ls s' → ∀ x, P x s →
      x ∉ observe step obs ls s := by
    intro s s' ls h
    induction h with
    | nil =>
      intro x _ hx
      cases hx
    | cons hok hst _ ih =>
      intro x hp hx
      rw [observe_cons _ hst] at hx
      rcases List.mem_append.mp hx with hx | hx
      · exact hnot _ _ _ hok hst x hp hx
      · exact ih x (hkeep _ _ _ hok hst x hp) hx
  induction h with
  | nil => exact List.nodup_nil
  | cons hok hst hrest ih =>
    rw [observe_cons _ hst]
    refine List.Nodup.append (hone _ _ _ hok hst) ih fun x hx hagain => ?_
    exact hlater hrest x (hnew _ _ _ hok hst x hx) hagain

/-- A history variable: what has been observed so far, carried beside the state. -/
theorem Run.history {obs : S → L → List O} (I : List O → S → Prop)
    (hstep : ∀ seen s l s', ok s l → step l s = some s' → I seen s → I (seen ++ obs s l) s')
    (h : Run step ok s ls s') {seen : List O} (hs : I seen s) :
    I (seen ++ observe step obs ls s) s' := by
  induction h generalizing seen with
  | nil =>
    rw [observe, List.append_nil]
    exact hs
  | cons hok hst _ ih =>
    rw [observe_cons _ hst, ← List.append_assoc]
    exact ih (hstep _ _ _ _ hok hst hs)

end Observe

/-! ### Moments of a run -/

/-- At some moment of the run by `ls` from `s` to `s'` the property held, of the part of
the run up to there and of the state it had come to. -/
def Once (step : L → S → Option S) (ok : S → L → Prop) (s : S) (P : List L → S → Prop)
    (ls : List L) (s' : S) : Prop :=
  ∃ ls₁ ls₂ t, ls = ls₁ ++ ls₂ ∧ Run step ok s ls₁ t ∧ P ls₁ t ∧ Run step ok t ls₂ s'

section Once
variable {step : L → S → Option S} {ok : S → L → Prop} {s s' s'' : S} {l : L} {ls : List L}
  {P Q : List L → S → Prop}

theorem Once.now (h : Run step ok s ls s') (hp : P ls s') : Once step ok s P ls s' :=
  ⟨ls, [], s', (List.append_nil ls).symm, h, hp, .nil s'⟩

theorem Once.later (h : Once step ok s P ls s') (hok : ok s' l) (hst : step l s' = some s'') :
    Once step ok s P (ls ++ [l]) s'' := by
  obtain ⟨ls₁, ls₂, t, rfl, hbefore, hp, hafter⟩ := h
  exact ⟨ls₁, ls₂ ++ [l], t, List.append_assoc _ _ _, hbefore, hp,
    hafter.append (.cons hok hst (.nil s''))⟩

theorem Once.mono (h : Once step ok s P ls s')
    (hpq : ∀ ls t, Run step ok s ls t → P ls t → Q ls t) : Once step ok s Q ls s' := by
  obtain ⟨ls₁, ls₂, t, hls, hbefore, hp, hafter⟩ := h
  exact ⟨ls₁, ls₂, t, hls, hbefore, hpq ls₁ t hbefore hp, hafter⟩

/-- The induction rule for what speaks of the run so far. -/
theorem Run.along (I : List L → S → Prop) (hstart : I [] s)
    (hstep : ∀ ls t l t', Run step ok s ls t → I ls t → ok t l → step l t = some t' →
      I (ls ++ [l]) t')
    (h : Run step ok s ls s') : I ls s' := by
  have hrest : ∀ {t u : S} {ms : List L}, Run step ok t ms u → ∀ pre, Run step ok s pre t →
      I pre t → I (pre ++ ms) u := by
    intro t u ms hrun
    induction hrun with
    | nil t =>
      intro pre _ hi
      rw [List.append_nil]
      exact hi
    | @cons t u v l ms hok hst _ ih =>
      intro pre hpre hi
      have hnext := ih (pre ++ [l]) (hpre.append (.cons hok hst (.nil u)))
        (hstep _ _ _ _ hpre hi hok hst)
      rwa [List.append_assoc] at hnext
  exact hrest h [] (.nil s) hstart

end Once

/-! ### Counting steps -/

/-- How many steps of a run are of a kind, by the states before and after them. -/
def countSteps (step : L → S → Option S) (kind : S → L → S → Bool) : List L → S → ℕ
  | [], _ => 0
  | l :: ls, s =>
    (step l s).elim 0 fun s' => (kind s l s').toNat + countSteps step kind ls s'

/-- Steps of one kind are no more than those of another, when the first use up a
potential that only the second raise. -/
theorem Run.countSteps_le {step : L → S → Option S} {ok : S → L → Prop} {s s' : S} {ls : List L}
    {kind kind' : S → L → S → Bool} (potential : S → ℕ)
    (hstep : ∀ s l s', ok s l → step l s = some s' →
      (kind s l s').toNat + potential s' ≤ (kind' s l s').toNat + potential s)
    (h : Run step ok s ls s') :
    countSteps step kind ls s + potential s' ≤ countSteps step kind' ls s + potential s := by
  induction h with
  | nil => exact le_rfl
  | cons hok hst _ ih =>
    have hone := hstep _ _ _ hok hst
    simp only [countSteps, hst, Option.elim_some]
    omega

/-! ### Runs that come to an end -/

section Rest
variable {step : L → S → Option S} {ok : S → L → Prop} {s s' : S} {ls : List L}

/-- A run whose every step takes from a potential is no longer than that. -/
theorem Run.length_le (I : S → Prop) (potential : S → ℕ)
    (hstep : ∀ s l s', I s → ok s l → step l s = some s' → I s' ∧ potential s' < potential s)
    (h : Run step ok s ls s') (hs : I s) : I s' ∧ ls.length + potential s' ≤ potential s := by
  induction h with
  | nil s => exact ⟨hs, by simp⟩
  | cons hok hst _ ih =>
    obtain ⟨hI, hlt⟩ := hstep _ _ _ hs hok hst
    obtain ⟨hlast, hle⟩ := ih hI
    refine ⟨hlast, ?_⟩
    rw [List.length_cons]
    omega

/-- Such a system runs, by any of its steps, to where none of them is enabled. -/
theorem Run.exists_rest (I : S → Prop) (potential : S → ℕ)
    (hstep : ∀ s l s', I s → ok s l → step l s = some s' → I s' ∧ potential s' < potential s)
    (hs : I s) : ∃ ls s', Run step ok s ls s' ∧ ∀ l, ok s' l → step l s' = none := by
  induction hn : potential s using Nat.strong_induction_on generalizing s with
  | _ n ih =>
    by_cases hstuck : ∀ l, ok s l → step l s = none
    · exact ⟨[], s, .nil s, hstuck⟩
    · push Not at hstuck
      obtain ⟨l, hok, hsome⟩ := hstuck
      obtain ⟨t, ht⟩ := Option.ne_none_iff_exists'.mp hsome
      obtain ⟨hI, hlt⟩ := hstep s l t hs hok ht
      obtain ⟨ls, s', hrun, hrest⟩ := ih (potential t) (hn ▸ hlt) hI rfl
      exact ⟨l :: ls, s', .cons hok ht hrun, hrest⟩

end Rest

end Foundation
