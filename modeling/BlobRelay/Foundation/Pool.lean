import BlobRelay.Foundation.Run

/-! # A pool of threads over shared state

Threads are appended when they start and never leave the pool; a finished one
has no next step. `Holds` is an invariant in three parts (of the shared state,
of each thread against it, of each ordered pair of threads), and the rules below
reduce its preservation to the thread that moves and the others seeing it move. -/

namespace Foundation

structure Pool (W H : Type) where
  shared : W
  threads : List H

/-- What can happen next: the environment acts, a call arrives, or thread `i`
makes its next atomic step, with `f` the outcome of what that step asks of the
world outside. -/
inductive Move (E C F : Type)
  | env (e : E)
  | call (c : C)
  | run (i : ℕ) (f : F)
  deriving DecidableEq

/-- Whether this is a step of thread `i`. -/
def Move.runs {E C F : Type} (i : ℕ) : Move E C F → Bool
  | .run j _ => j == i
  | _ => false

namespace Pool
variable {W H E C F : Type}

section Step
variable (envStep : E → W → Option W) (start : C → H) (threadStep : F → W → H → Option (W × H))

def step : Move E C F → Pool W H → Option (Pool W H)
  | .env e, p => (envStep e p.shared).map fun w => {p with shared := w}
  | .call c, p => some {p with threads := p.threads ++ [start c]}
  | .run i f, p =>
    (p.threads[i]?).bind fun h =>
      (threadStep f p.shared h).map fun r => ⟨r.1, p.threads.set i r.2⟩

variable {envStep start threadStep}

theorem step_env {e : E} {p p' : Pool W H}
    (h : step envStep start threadStep (.env e) p = some p') :
    ∃ w, envStep e p.shared = some w ∧ p' = {p with shared := w} := by
  obtain ⟨w, hw, he⟩ := Option.map_eq_some_iff.mp h
  exact ⟨w, hw, he.symm⟩

theorem step_call {c : C} {p p' : Pool W H}
    (h : step envStep start threadStep (.call c) p = some p') :
    p' = {p with threads := p.threads ++ [start c]} :=
  (Option.some.inj h).symm

theorem step_run {i : ℕ} {f : F} {p p' : Pool W H}
    (h : step envStep start threadStep (.run i f) p = some p') :
    ∃ t w t', p.threads[i]? = some t ∧ threadStep f p.shared t = some (w, t') ∧
      p' = ⟨w, p.threads.set i t'⟩ := by
  obtain ⟨t, ht, hrest⟩ := Option.bind_eq_some_iff.mp h
  obtain ⟨r, hr, he⟩ := Option.map_eq_some_iff.mp hrest
  exact ⟨t, r.1, r.2, ht, hr, he.symm⟩

theorem step_of_run {i : ℕ} {f : F} {p : Pool W H} {t t' : H} {w : W}
    (ht : p.threads[i]? = some t) (h : threadStep f p.shared t = some (w, t')) :
    step envStep start threadStep (.run i f) p = some ⟨w, p.threads.set i t'⟩ := by
  simp only [step, ht, Option.bind_some, h, Option.map_some]

/-- A step as one of the threads sees it: another's, or its own. -/
theorem step_at {l : Move E C F} {p p' : Pool W H} {i : ℕ} {t : H}
    (h : step envStep start threadStep l p = some p') (ht : p.threads[i]? = some t) :
    (l.runs i = false ∧ p'.threads[i]? = some t) ∨
      ∃ f t', l = .run i f ∧ threadStep f p.shared t = some (p'.shared, t') ∧
        p'.threads[i]? = some t' := by
  have hlt : i < p.threads.length := (List.getElem?_eq_some_iff.mp ht).1
  cases l with
  | env e =>
    obtain ⟨w, _, rfl⟩ := step_env h
    exact Or.inl ⟨rfl, ht⟩
  | call c =>
    obtain rfl := step_call h
    exact Or.inl ⟨rfl, (List.getElem?_append_left hlt).trans ht⟩
  | run j f =>
    obtain ⟨u, w, u', hu, hone, rfl⟩ := step_run h
    by_cases hji : j = i
    · subst hji
      obtain rfl := Option.some.inj (hu.symm.trans ht)
      exact Or.inr ⟨f, u', rfl, hone, List.getElem?_set_self hlt⟩
    · exact Or.inl ⟨beq_eq_false_iff_ne.mpr hji, (List.getElem?_set_ne hji).trans ht⟩

/-- A thread that is not there yet has no step; it can only be called. -/
theorem step_absent {l : Move E C F} {p p' : Pool W H} {i : ℕ}
    (h : step envStep start threadStep l p = some p') (hi : p.threads[i]? = none) :
    l.runs i = false ∧ (p'.threads[i]? = none ∨ ∃ c, p'.threads[i]? = some (start c)) := by
  cases l with
  | env e =>
    obtain ⟨w, _, rfl⟩ := step_env h
    exact ⟨rfl, Or.inl hi⟩
  | call c =>
    obtain rfl := step_call h
    refine ⟨rfl, ?_⟩
    rcases Nat.lt_or_eq_of_le (List.getElem?_eq_none_iff.mp hi) with hlt | heq
    · left
      rw [List.getElem?_eq_none_iff, List.length_append, List.length_singleton]
      omega
    · right
      exact ⟨c, by rw [← heq, List.getElem?_concat_length]⟩
  | run j f =>
    obtain ⟨u, w, u', hu, _, rfl⟩ := step_run h
    have hji : j ≠ i := by
      rintro rfl
      cases hi.symm.trans hu
    exact ⟨beq_eq_false_iff_ne.mpr hji, Or.inl ((List.getElem?_set_ne hji).trans hi)⟩

end Step

/-- The shared state before and after a step of thread `i`. -/
def ownStep (step : Move E C F → Pool W H → Option (Pool W H)) (i : ℕ) (p : Pool W H)
    (l : Move E C F) : List (W × W) :=
  if l.runs i then ((step l p).map fun p' => (p.shared, p'.shared)).toList else []

/-! ### Invariants of pools -/

structure Holds (sharedP : W → Prop) (threadP : W → H → Prop) (pairP : H → H → Prop)
    (p : Pool W H) : Prop where
  shared : sharedP p.shared
  thread : ∀ (i : ℕ) (t : H), p.threads[i]? = some t → threadP p.shared t
  pair : ∀ (i j : ℕ) (t u : H), i ≠ j → p.threads[i]? = some t → p.threads[j]? = some u → pairP t u

variable {sharedP : W → Prop} {threadP : W → H → Prop} {pairP : H → H → Prop}

theorem getElem_set {ts : List H} {i j : ℕ} {t u : H} (h : (ts.set i t)[j]? = some u) :
    (j = i ∧ u = t) ∨ (j ≠ i ∧ ts[j]? = some u) := by
  by_cases hij : i = j
  · subst hij
    rw [List.getElem?_set] at h
    split at h
    · split at h
      · exact Or.inl ⟨rfl, (Option.some.inj h).symm⟩
      · exact absurd h (by simp)
    · exact absurd rfl ‹_›
  · rw [List.getElem?_set_ne hij] at h
    exact Or.inr ⟨Ne.symm hij, h⟩

theorem getElem_snoc {ts : List H} {j : ℕ} {t u : H} (h : (ts ++ [t])[j]? = some u) :
    (j = ts.length ∧ u = t) ∨ (j < ts.length ∧ ts[j]? = some u) := by
  rcases Nat.lt_trichotomy j ts.length with hj | hj | hj
  · rw [List.getElem?_append_left hj] at h
    exact Or.inr ⟨hj, h⟩
  · subst hj
    rw [List.getElem?_append_right le_rfl] at h
    simp only [Nat.sub_self, List.getElem?_cons_zero, Option.some.injEq] at h
    exact Or.inl ⟨rfl, h.symm⟩
  · rw [List.getElem?_eq_none (by simp only [List.length_append, List.length_singleton]; omega)] at h
    exact absurd h (by simp)

theorem Holds.of_env {p : Pool W H} (hp : Holds sharedP threadP pairP p) {w : W}
    (hshared : sharedP w) (hthread : ∀ (i : ℕ) t, p.threads[i]? = some t → threadP w t) :
    Holds sharedP threadP pairP {p with shared := w} :=
  ⟨hshared, hthread, hp.pair⟩

theorem Holds.of_call {p : Pool W H} (hp : Holds sharedP threadP pairP p) {t : H}
    (hself : threadP p.shared t)
    (hpair : ∀ (i : ℕ) u, p.threads[i]? = some u → pairP t u ∧ pairP u t) :
    Holds sharedP threadP pairP {p with threads := p.threads ++ [t]} := by
  refine ⟨hp.shared, ?_, ?_⟩
  · intro i u hu
    rcases getElem_snoc hu with ⟨_, rfl⟩ | ⟨_, hu⟩
    · exact hself
    · exact hp.thread i u hu
  · intro i j u v hij hu hv
    rcases getElem_snoc hu with ⟨hi, rfl⟩ | ⟨_, hu'⟩
    · rcases getElem_snoc hv with ⟨hj, rfl⟩ | ⟨_, hv'⟩
      · exact absurd (hi.trans hj.symm) hij
      · exact (hpair j v hv').1
    · rcases getElem_snoc hv with ⟨_, rfl⟩ | ⟨_, hv'⟩
      · exact (hpair i u hu').2
      · exact hp.pair i j u v hij hu' hv'

/-- The interference rule: thread `i` moves to `t'` and leaves `w`; the others
have to keep their invariant against `w` and their relation to `t'`. -/
theorem Holds.of_run {p : Pool W H} (hp : Holds sharedP threadP pairP p) {i : ℕ} {w : W} {t' : H}
    (hshared : sharedP w) (hself : threadP w t')
    (hothers : ∀ (j : ℕ) u, j ≠ i → p.threads[j]? = some u → threadP w u ∧ pairP t' u ∧ pairP u t') :
    Holds sharedP threadP pairP ⟨w, p.threads.set i t'⟩ := by
  refine ⟨hshared, ?_, ?_⟩
  · intro j u hu
    rcases getElem_set hu with ⟨_, rfl⟩ | ⟨hj, hv⟩
    · exact hself
    · exact (hothers j u hj hv).1
  · intro j k u v hjk hu hv
    rcases getElem_set hu with ⟨hj, rfl⟩ | ⟨hj, hu'⟩
    · rcases getElem_set hv with ⟨hk, rfl⟩ | ⟨hk, hv'⟩
      · exact absurd (hj.trans hk.symm) hjk
      · exact (hothers k v hk hv').2.1
    · rcases getElem_set hv with ⟨_, rfl⟩ | ⟨hk, hv'⟩
      · exact (hothers j u hj hu').2.2
      · exact hp.pair j k u v hjk hu' hv'

/-! ### Sums over the threads -/

/-- A quantity of each thread, over the whole pool. -/
def total (f : H → ℕ) (p : Pool W H) : ℕ := (p.threads.map f).sum

theorem sum_set (f : H → ℕ) {ts : List H} {i : ℕ} {t : H} (h : ts[i]? = some t) (t' : H) :
    ((ts.set i t').map f).sum + f t = (ts.map f).sum + f t' := by
  induction ts generalizing i with
  | nil => cases h
  | cons u ts ih =>
    cases i with
    | zero =>
      rw [List.getElem?_cons_zero, Option.some.injEq] at h
      subst h
      simp only [List.set_cons_zero, List.map_cons, List.sum_cons]
      omega
    | succ i =>
      have hrest := ih h
      simp only [List.set_cons_succ, List.map_cons, List.sum_cons]
      omega

theorem total_run (f : H → ℕ) {p : Pool W H} {i : ℕ} {t : H} (h : p.threads[i]? = some t) (w : W)
    (t' : H) : total f ⟨w, p.threads.set i t'⟩ + f t = total f p + f t' :=
  sum_set f h t'

theorem le_total (f : H → ℕ) {p : Pool W H} {i : ℕ} {t : H} (h : p.threads[i]? = some t) :
    f t ≤ total f p :=
  List.single_le_sum (fun _ _ => Nat.zero_le _) _ (List.mem_map_of_mem (List.mem_of_getElem? h))

/-! ### What each thread keeps for itself -/

/-- What a started thread has, and keeps by every step of its own in whatever world, every
thread has in every run. -/
theorem run_threads {envStep : E → W → Option W} {start : C → H}
    {threadStep : F → W → H → Option (W × H)} {I : H → Prop} (hstart : ∀ c, I (start c))
    (hstep : ∀ f w t w' t', threadStep f w t = some (w', t') → I t → I t')
    {ok : Pool W H → Move E C F → Prop} {ls : List (Move E C F)} {p p' : Pool W H}
    (hrun : Run (step envStep start threadStep) ok p ls p') (hp : ∀ t ∈ p.threads, I t) :
    ∀ t ∈ p'.threads, I t := by
  refine hrun.invariant (fun p => ∀ t ∈ p.threads, I t) (fun p l p' hp _ hst => ?_) hp
  cases l with
  | env e =>
    obtain ⟨w, _, rfl⟩ := step_env hst
    exact hp
  | call c =>
    obtain rfl := step_call hst
    intro t ht
    rcases List.mem_append.mp ht with ht | ht
    · exact hp t ht
    · rw [List.mem_singleton.mp ht]
      exact hstart c
  | run i f =>
    obtain ⟨t, w, t', hi, hone, rfl⟩ := step_run hst
    intro u hu
    rcases List.mem_or_eq_of_mem_set hu with hu | rfl
    · exact hp u hu
    · exact hstep f p.shared t w u hone (hp t (List.mem_of_getElem? hi))

/-! ### Threads that only stand by -/

/-- The pool without its first `n` threads, and the moves in it. -/
def behind (n : ℕ) (p : Pool W H) : Pool W H := ⟨p.shared, p.threads.drop n⟩

def moveBehind (n : ℕ) : Move E C F → Move E C F
  | .run i f => .run (i - n) f
  | m => m

theorem step_behind {envStep : E → W → Option W} {start : C → H}
    {threadStep : F → W → H → Option (W × H)} {n i : ℕ} {f : F} {p p' : Pool W H} (hi : n ≤ i)
    (h : step envStep start threadStep (.run i f) p = some p') :
    step envStep start threadStep (.run (i - n) f) (p.behind n) = some (p'.behind n) := by
  obtain ⟨t, w, t', ht, hstep, rfl⟩ := step_run h
  have hmoved : (p.threads.drop n)[i - n]? = some t := by
    rw [List.getElem?_drop, Nat.add_sub_cancel' hi]
    exact ht
  have hset : (p.threads.set i t').drop n = (p.threads.drop n).set (i - n) t' := by
    rw [List.drop_set, if_neg (by omega)]
  simp only [step, behind, hmoved, Option.bind_some, hstep, Option.map_some, hset]

/-! ### Threads that stand for others -/

section MapThreads
variable {H' : Type} {envStep : E → W → Option W} {start : C → H} {start' : C → H'}
  {threadStep : F → W → H → Option (W × H)} {threadStep' : F → W → H' → Option (W × H')}
  {g : H → H'} {p p' : Pool W H}

def mapThreads (g : H → H') (p : Pool W H) : Pool W H' := ⟨p.shared, p.threads.map g⟩

theorem step_mapThreads (hstart : ∀ c, g (start c) = start' c)
    (hstep : ∀ f w t w' t', threadStep f w t = some (w', t') →
      (w' = w ∧ g t' = g t) ∨ threadStep' f w (g t) = some (w', g t'))
    {l : Move E C F} (h : step envStep start threadStep l p = some p') :
    p'.mapThreads g = p.mapThreads g ∨
      step envStep start' threadStep' l (p.mapThreads g) = some (p'.mapThreads g) := by
  cases l with
  | env e =>
    obtain ⟨w, hw, rfl⟩ := step_env h
    right
    show (envStep e p.shared).map _ = _
    rw [hw]
    rfl
  | call c =>
    obtain rfl := step_call h
    right
    simp only [step, mapThreads, List.map_append, List.map_cons, List.map_nil, hstart]
  | run i f =>
    obtain ⟨t, w, t', ht, hone, rfl⟩ := step_run h
    have hmapped : (p.threads.map g)[i]? = some (g t) := by
      rw [List.getElem?_map, ht, Option.map_some]
    rcases hstep _ _ _ _ _ hone with ⟨rfl, hsame⟩ | hmatched
    · left
      obtain ⟨hlt, hget⟩ := List.getElem?_eq_some_iff.mp hmapped
      simp only [mapThreads, List.map_set, hsame]
      rw [← hget, List.set_getElem_self]
    · right
      simp only [step, mapThreads, hmapped, Option.bind_some, hmatched, Option.map_some,
        List.map_set]

theorem run_mapThreads {ok : Move E C F → Prop} (hstart : ∀ c, g (start c) = start' c)
    (hstep : ∀ f w t w' t', threadStep f w t = some (w', t') →
      (w' = w ∧ g t' = g t) ∨ threadStep' f w (g t) = some (w', g t'))
    {ls : List (Move E C F)}
    (h : Run (step envStep start threadStep) (fun _ l => ok l) p ls p') :
    ∃ ls', Run (step envStep start' threadStep') (fun _ l => ok l) (p.mapThreads g) ls'
      (p'.mapThreads g) := by
  refine h.refine (mapThreads g) fun p l p' hok hst => ?_
  rcases step_mapThreads hstart hstep hst with hsame | hmatched
  · exact Or.inl hsame
  · exact Or.inr ⟨l, hok, hmatched⟩

end MapThreads

end Pool
end Foundation
