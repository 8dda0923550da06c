import BlobRelay.Foundation.Pool

/-! # Updates by compare-exchange

A call updates a shared cell by a partial function. It loads the cell, gives up
when the function has no value there, and otherwise exchanges; when the cell has
changed in between, what it finds is its next load. Each step of it is nothing or
the whole update at once, so pools of such calls refine pools of atomic updates; and a
call has to repeat its exchange only when others have changed the cell. -/

namespace Foundation.CompareExchange
variable {A V : Type}

inductive Loop (A V : Type)
  | called (a : A)
  | loaded (a : A) (expected : V)
  | returned (a : A) (updated : Bool)

inductive Once (A : Type)
  | called (a : A)
  | returned (a : A) (updated : Bool)

section Steps
variable (update : A → V → Option V)

def loopStep [DecidableEq V] (_ : Unit) (v : V) : Loop A V → Option (V × Loop A V)
  | .called a => some (v, .loaded a v)
  | .loaded a expected =>
    match update a expected with
    | none => some (v, .returned a false)
    | some v' => if v = expected then some (v', .returned a true) else some (v, .loaded a v)
  | .returned _ _ => none

def onceStep (_ : Unit) (v : V) : Once A → Option (V × Once A)
  | .called a =>
    match update a v with
    | none => some (v, .returned a false)
    | some v' => some (v', .returned a true)
  | .returned _ _ => none

/-- The atomic call that the loop stands for: it has returned as soon as a value is
loaded at which the loop will give up. -/
def Loop.once : Loop A V → Once A
  | .called a => .called a
  | .loaded a expected => if (update a expected).isNone then .returned a false else .called a
  | .returned a updated => .returned a updated

variable {update} {v v' : V} {t t' : Loop A V}

theorem once_loaded (update : A → V → Option V) (a : A) (v : V) :
    (Loop.once update (.loaded a v) = .called a) ∨
      onceStep update () v (.called a) = some (v, Loop.once update (.loaded a v)) := by
  cases h : update a v with
  | none =>
    right
    simp only [onceStep, h, Loop.once, Option.isNone_none, if_true]
  | some y =>
    left
    simp only [Loop.once, h, Option.isNone_some, Bool.false_eq_true, if_false]

/-- A step of the loop is the atomic update or nothing. -/
theorem loopStep_once [DecidableEq V] (h : loopStep update () v t = some (v', t')) :
    (v' = v ∧ t'.once update = t.once update) ∨
      onceStep update () v (t.once update) = some (v', t'.once update) := by
  cases t with
  | called a =>
    cases h
    rcases once_loaded update a v with hcalled | hgives
    · exact Or.inl ⟨rfl, hcalled⟩
    · exact Or.inr hgives
  | loaded a expected =>
    cases hu : update a expected with
    | none =>
      simp only [loopStep, hu] at h
      cases h
      left
      simp only [Loop.once, hu, Option.isNone_none, if_true, and_self]
    | some y =>
      have hcalled : Loop.once update (.loaded a expected) = .called a := by
        simp only [Loop.once, hu, Option.isNone_some, Bool.false_eq_true, if_false]
      simp only [loopStep, hu] at h
      rw [hcalled]
      split at h
      · rename_i heq
        cases h
        right
        rw [heq]
        simp only [onceStep, hu, Loop.once]
      · cases h
        rcases once_loaded update a v with hagain | hgives
        · exact Or.inl ⟨rfl, hagain⟩
        · exact Or.inr hgives
  | returned a updated => cases h

end Steps

/-! ### One call among others -/

def Loop.running : Loop A V → Bool
  | .returned _ _ => false
  | _ => true

def Loop.exchanging : Loop A V → Bool
  | .loaded _ _ => true
  | _ => false

/-- What the cell was before and after each step of a call, by where the call is: only
an update changes it, and it is the last step. `G` holds where an update is made. -/
inductive Record (update : A → V → Option V) (G : A → V → Prop) : List (V × V) → Loop A V → Prop
  | called {a : A} : Record update G [] (.called a)
  | loaded {a : A} {v : V} {seen : List (V × V)} : (∀ s ∈ seen, s.2 = s.1) → (v, v) ∈ seen →
      Record update G seen (.loaded a v)
  | updated {a : A} {v v' : V} {earlier : List (V × V)} : (∀ s ∈ earlier, s.2 = s.1) → G a v →
      update a v = some v' → Record update G (earlier ++ [(v, v')]) (.returned a true)
  | refused {a : A} {v : V} {seen : List (V × V)} : (∀ s ∈ seen, s.2 = s.1) → (v, v) ∈ seen →
      update a v = none → Record update G seen (.returned a false)

namespace Record
variable {update : A → V → Option V} {G : A → V → Prop} {a : A} {seen : List (V × V)}

theorem of_updated (h : Record update G seen (.returned a true)) :
    ∃ earlier v v', seen = earlier ++ [(v, v')] ∧ (∀ s ∈ earlier, s.2 = s.1) ∧ G a v ∧
      update a v = some v' := by
  cases h with
  | updated hsame hG hu => exact ⟨_, _, _, rfl, hsame, hG, hu⟩

theorem of_refused (h : Record update G seen (.returned a false)) :
    (∀ s ∈ seen, s.2 = s.1) ∧ ∃ v, (v, v) ∈ seen ∧ update a v = none := by
  cases h with
  | refused hsame hmem hu => exact ⟨hsame, _, hmem, hu⟩

end Record

theorem unchanged_snoc {seen : List (V × V)} (h : ∀ s ∈ seen, s.2 = s.1) (v : V) :
    ∀ s ∈ seen ++ [(v, v)], s.2 = s.1 := by
  intro s hs
  rcases List.mem_append.mp hs with hold | hnew
  · exact h s hold
  · obtain rfl := List.mem_singleton.mp hnew
    rfl

section Calls
variable [DecidableEq V] {update : A → V → Option V} {G : A → V → Prop} {v v' : V}
  {t t' : Loop A V} {seen : List (V × V)}

theorem Record.loopStep (h : Record update G seen t) (hG : ∀ a, t = .loaded a v → G a v)
    (hstep : loopStep update () v t = some (v', t')) :
    Record update G (seen ++ [(v, v')]) t' := by
  cases h with
  | called =>
    cases hstep
    exact .loaded (unchanged_snoc (fun s hs => absurd hs List.not_mem_nil) v)
      (List.mem_append_right _ List.mem_cons_self)
  | @loaded a expected _ hsame hmem =>
    cases hu : update a expected with
    | none =>
      simp only [CompareExchange.loopStep, hu] at hstep
      cases hstep
      exact .refused (unchanged_snoc hsame v) (List.mem_append_left _ hmem) hu
    | some y =>
      simp only [CompareExchange.loopStep, hu] at hstep
      split at hstep
      · rename_i heq
        subst heq
        cases hstep
        exact .updated hsame (hG a rfl) hu
      · cases hstep
        exact .loaded (unchanged_snoc hsame v) (List.mem_append_right _ List.mem_cons_self)
  | updated => cases hstep
  | refused => cases hstep

variable {E : Type} {envStep : E → V → Option V}
  {ok : Pool V (Loop A V) → Move E A Unit → Prop} {p p' : Pool V (Loop A V)}
  {ls : List (Move E A Unit)} {i : ℕ}

/-- The record of call `i`, empty until it is made. -/
def RecordAt (update : A → V → Option V) (G : A → V → Prop) (i : ℕ) (seen : List (V × V))
    (p : Pool V (Loop A V)) : Prop :=
  (p.threads[i]? = none → seen = []) ∧ ∀ t, p.threads[i]? = some t → Record update G seen t

theorem recordAt_step {l : Move E A Unit}
    (hG : ∀ f a, l = .run i f → p.threads[i]? = some (.loaded a p.shared) → G a p.shared)
    (h : Pool.step envStep Loop.called (loopStep update) l p = some p')
    (hI : RecordAt update G i seen p) :
    RecordAt update G i
      (seen ++ Pool.ownStep (Pool.step envStep Loop.called (loopStep update)) i p l) p' := by
  cases hi : p.threads[i]? with
  | none =>
    obtain ⟨hother, hnext⟩ := Pool.step_absent h hi
    rw [Pool.ownStep, hother, if_neg Bool.false_ne_true, List.append_nil, hI.1 hi]
    refine ⟨fun _ => rfl, fun t ht => ?_⟩
    rcases hnext with hnone | ⟨a, hcalled⟩
    · cases hnone.symm.trans ht
    · cases hcalled.symm.trans ht
      exact .called
  | some u =>
    rcases Pool.step_at h hi with ⟨hother, hsame⟩ | ⟨f, u', rfl, hone, hnew⟩
    · rw [Pool.ownStep, hother, if_neg Bool.false_ne_true, List.append_nil]
      refine ⟨fun hn => (by cases hsame.symm.trans hn), fun t ht => ?_⟩
      cases hsame.symm.trans ht
      exact hI.2 u hi
    · have hown : Move.runs i (.run i f : Move E A Unit) = true := beq_self_eq_true i
      rw [Pool.ownStep, if_pos hown, h, Option.map_some, Option.toList_some]
      refine ⟨fun hn => (by cases hnew.symm.trans hn), fun t ht => ?_⟩
      cases hnew.symm.trans ht
      refine (hI.2 u hi).loopStep (fun a ha => ?_) hone
      subst ha
      exact hG f a rfl hi

/-- In every run from a pool without calls, a call's steps are as `Record` says. -/
theorem record_run (hG : ∀ p f a, ok p (.run i f) → p.threads[i]? = some (.loaded a p.shared) →
      G a p.shared)
    (hrun : Run (Pool.step envStep Loop.called (loopStep update)) ok p ls p')
    (hnone : p.threads[i]? = none) (ht : p'.threads[i]? = some t) :
    Record update G (observe (Pool.step envStep Loop.called (loopStep update))
      (Pool.ownStep (Pool.step envStep Loop.called (loopStep update)) i) ls p) t := by
  have hstart : RecordAt update G i [] p := by
    refine ⟨fun _ => rfl, fun t ht => ?_⟩
    cases hnone.symm.trans ht
  have hend := hrun.history (RecordAt update G i)
    (fun seen p l p' hok hst hI => recordAt_step (fun f a hl => by
      subst hl
      exact hG p f a hok) hst hI) hstart
  exact hend.2 t ht

/-- The exchange of call `i` fails. -/
def retries (i : ℕ) (p : Pool V (Loop A V)) (l : Move E A Unit) (p' : Pool V (Loop A V)) : Bool :=
  l.runs i && (p.threads[i]?.any Loop.exchanging && p'.threads[i]?.any Loop.exchanging)

/-- Another changes the cell while call `i` runs. -/
def changes (i : ℕ) (p : Pool V (Loop A V)) (l : Move E A Unit) (p' : Pool V (Loop A V)) : Bool :=
  !l.runs i && (p.threads[i]?.any Loop.running && decide (p'.shared ≠ p.shared))

/-- Whether call `i` expects what the cell no longer holds. -/
def stale (i : ℕ) (p : Pool V (Loop A V)) : ℕ :=
  match p.threads[i]? with
  | some (.loaded _ expected) => if expected = p.shared then 0 else 1
  | _ => 0

theorem stale_le (i : ℕ) (p : Pool V (Loop A V)) : stale i p ≤ 1 := by
  unfold stale
  split
  · split <;> omega
  · omega

theorem retries_step {l : Move E A Unit}
    (h : Pool.step envStep Loop.called (loopStep update) l p = some p') :
    (retries i p l p').toNat + stale i p' ≤ (changes i p l p').toNat + stale i p := by
  cases hi : p.threads[i]? with
  | none =>
    obtain ⟨hother, hnext⟩ := Pool.step_absent h hi
    rcases hnext with hnone | ⟨a, hcalled⟩
    · simp [retries, hother, stale, hnone]
    · simp [retries, hother, stale, hcalled]
  | some t =>
    rcases Pool.step_at h hi with ⟨hother, hsame⟩ | ⟨f, t', rfl, hone, hnew⟩
    · have hretry : retries i p l p' = false := by simp [retries, hother]
      rw [hretry, Bool.toNat_false, Nat.zero_add]
      cases t with
      | called a => simp [stale, hsame]
      | returned a b => simp [stale, hsame]
      | loaded a expected =>
        by_cases hv : p'.shared = p.shared
        · simp [stale, hsame, hi, hv]
        · have hchange : changes i p l p' = true := by
            simp [changes, hother, hi, Loop.running, hv]
          have hle := stale_le i p'
          rw [hchange, Bool.toNat_true]
          omega
    · cases t with
      | called a =>
        obtain ⟨hv, rfl⟩ := Prod.mk.inj (Option.some.inj hone)
        simp [retries, hi, Loop.exchanging, stale, hnew, hv]
      | returned a b => cases hone
      | loaded a expected =>
        cases hu : update a expected with
        | none =>
          simp only [loopStep, hu] at hone
          obtain ⟨_, rfl⟩ := Prod.mk.inj (Option.some.inj hone)
          simp [retries, Loop.exchanging, stale, hnew]
        | some y =>
          simp only [loopStep, hu] at hone
          split at hone
          · obtain ⟨_, rfl⟩ := Prod.mk.inj (Option.some.inj hone)
            simp [retries, Loop.exchanging, stale, hnew]
          · rename_i hne
            obtain ⟨hv, rfl⟩ := Prod.mk.inj (Option.some.inj hone)
            -- a failed exchange uses up that the expected value was stale
            have hstale : stale i p = 1 := by simp [stale, hi, Ne.symm hne]
            have hfresh : stale i p' = 0 := by simp [stale, hnew, hv]
            have hretry := Bool.toNat_le (retries i p (.run i f : Move E A Unit) p')
            omega

theorem retries_le_changes
    (h : Run (Pool.step envStep Loop.called (loopStep update)) ok p ls p')
    (hnone : p.threads[i]? = none) :
    countSteps (Pool.step envStep Loop.called (loopStep update)) (retries i) ls p ≤
      countSteps (Pool.step envStep Loop.called (loopStep update)) (changes i) ls p := by
  have hle : countSteps (Pool.step envStep Loop.called (loopStep update)) (retries i) ls p +
      stale i p' ≤
        countSteps (Pool.step envStep Loop.called (loopStep update)) (changes i) ls p + stale i p :=
    h.countSteps_le (stale i) fun _ _ _ _ hst => retries_step hst
  have hstart : stale i p = 0 := by simp [stale, hnone]
  omega

end Calls
end Foundation.CompareExchange
