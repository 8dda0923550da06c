import BlobRelay.ReserveLoop

/-! # Exact reservation (session_store.h)

Any number of calls of `reserve`, with `remove` giving back what was reserved before.
Each call that returns true has added its size in one step, and each that returns false
has seen a counter it did not fit, as natural numbers; but `current + size` is computed
in 64 bits, and a call that passes 2^64 is granted. -/

namespace BlobRelay
open Foundation Foundation.CompareExchange

/-- The calls, and how much `remove` has given back. -/
structure Ledger where
  pool : Pool ℕ (Loop ℕ ℕ)
  givenBack : ℕ

def ledgerStep (quota : ℕ) (l : Move ℕ ℕ Unit) (σ : Ledger) : Option Ledger :=
  (reserveLoops quota l σ.pool).map fun p =>
    ⟨p, match l with
      | .env size => σ.givenBack + size
      | _ => σ.givenBack⟩

def granted : Loop ℕ ℕ → ℕ
  | .returned size true => size
  | _ => 0

/-- Sizes are 64-bit numbers, and what is given back was reserved, `v` of it before the
first of the calls. -/
def GivesBackReserved (v : ℕ) (σ : Ledger) : Move ℕ ℕ Unit → Prop
  | .env size => σ.givenBack + size ≤ v + σ.pool.total granted
  | .call size => size < 2^64
  | .run _ _ => True

/-- No exchange that succeeds passes 2^64. -/
def ExchangesFit (p : Pool ℕ (Loop ℕ ℕ)) : Move ℕ ℕ Unit → Prop
  | .run i _ => ∀ size, p.threads[i]? = some (.loaded size p.shared) → p.shared + size < 2^64
  | _ => True

/-- The counter before and after each step of call `i`. -/
def accesses (quota i : ℕ) (ls : List (Move ℕ ℕ Unit)) (p : Pool ℕ (Loop ℕ ℕ)) : List (ℕ × ℕ) :=
  observe (reserveLoops quota) (Pool.ownStep (reserveLoops quota) i) ls p

/-- What the calls of a run from `⟨v, []⟩` to `p` do, each in 64-bit steps, is what they
would do in natural numbers at once. -/
structure ExactRun (quota v : ℕ) (ls : List (Move ℕ ℕ Unit)) (p : Pool ℕ (Loop ℕ ℕ)) : Prop where
  counter : p.shared ≤ quota
  added : ∀ i size : ℕ, p.threads[i]? = some (.returned size true) →
    ∃ earlier c, accesses quota i ls ⟨v, []⟩ = earlier ++ [(c, c + size)] ∧ c + size ≤ quota ∧
      ∀ s ∈ earlier, s.2 = s.1
  refused : ∀ i size : ℕ, p.threads[i]? = some (.returned size false) →
    (∀ s ∈ accesses quota i ls ⟨v, []⟩, s.2 = s.1) ∧
      ∃ c, (c, c) ∈ accesses quota i ls ⟨v, []⟩ ∧ quota < c + size
  retried : ∀ i : ℕ, countSteps (reserveLoops quota) (retries i) ls ⟨v, []⟩ ≤
    countSteps (reserveLoops quota) (changes i) ls ⟨v, []⟩

variable {quota v : ℕ} {σ σ' : Ledger} {l : Move ℕ ℕ Unit} {ls : List (Move ℕ ℕ Unit)}

theorem reserveLoops_eq (hq : quota ≠ 0) : reserveLoops quota =
    Pool.step (fun size v => some (release quota size v)) Loop.called
      (loopStep (reserveUpdate quota)) := by
  have hstep : reserveLoopStep quota = loopStep (reserveUpdate quota) := by
    funext f currentSize t
    unfold reserveLoopStep
    exact if_pos hq
  rw [reserveLoops, hstep]

theorem reserveUpdate_some {size c c' : ℕ} (hfit : c + size < 2^64)
    (h : reserveUpdate quota size c = some c') : c' = c + size ∧ c + size ≤ quota := by
  unfold reserveUpdate at h
  rw [add64_of_lt hfit] at h
  split at h
  · cases h
  · cases h
    exact ⟨rfl, by omega⟩

/-- A refusal is right whether or not the sum passes 2^64. -/
theorem reserveUpdate_none {size c : ℕ} (h : reserveUpdate quota size c = none) :
    quota < c + size := by
  unfold reserveUpdate at h
  split at h
  · rename_i hgt
    have hle : add64 c size ≤ c + size := Nat.mod_le _ _
    omega
  · cases h

/-! ### The counter -/

/-- The counter is what was reserved and not given back, and within the quota. -/
structure Balanced (quota v : ℕ) (σ : Ledger) : Prop where
  balance : σ.pool.shared + σ.givenBack = v + σ.pool.total granted
  within : σ.pool.shared ≤ quota

theorem balanced_run {i : ℕ} {f : Unit} {p' : Pool ℕ (Loop ℕ ℕ)} (hq : quota ≠ 0)
    (h : Balanced quota v σ) (hfit : ExchangesFit σ.pool (.run i f))
    (hst : reserveLoops quota (.run i f) σ.pool = some p') :
    Balanced quota v ⟨p', σ.givenBack⟩ := by
  rw [reserveLoops_eq hq] at hst
  obtain ⟨t, c, t', ht, hone, rfl⟩ := Pool.step_run hst
  have hmoved := Pool.total_run granted ht c t'
  have hbalance := h.balance
  have hkeep : c = σ.pool.shared → granted t = 0 → granted t' = 0 →
      Balanced quota v ⟨⟨c, σ.pool.threads.set i t'⟩, σ.givenBack⟩ := by
    intro hc hold hnew
    refine ⟨?_, ?_⟩
    · show c + σ.givenBack = v + Pool.total granted ⟨c, σ.pool.threads.set i t'⟩
      omega
    · show c ≤ quota
      rw [hc]
      exact h.within
  cases t with
  | called size =>
    obtain ⟨rfl, rfl⟩ := Prod.mk.inj (Option.some.inj hone)
    exact hkeep rfl rfl rfl
  | returned size updated => cases hone
  | loaded size expected =>
    cases hu : reserveUpdate quota size expected with
    | none =>
      simp only [loopStep, hu] at hone
      obtain ⟨rfl, rfl⟩ := Prod.mk.inj (Option.some.inj hone)
      exact hkeep rfl rfl rfl
    | some y =>
      simp only [loopStep, hu] at hone
      split at hone
      · rename_i heq
        obtain ⟨rfl, rfl⟩ := Prod.mk.inj (Option.some.inj hone)
        subst heq
        obtain ⟨rfl, hle⟩ := reserveUpdate_some (hfit size ht) hu
        simp only [granted] at hmoved
        refine ⟨?_, hle⟩
        show σ.pool.shared + size + σ.givenBack = v + Pool.total granted ⟨_, _⟩
        omega
      · obtain ⟨rfl, rfl⟩ := Prod.mk.inj (Option.some.inj hone)
        exact hkeep rfl rfl rfl

theorem balanced_step (hq : quota ≠ 0) (hlt : quota < 2^64) (h : Balanced quota v σ)
    (hback : GivesBackReserved v σ l) (hfit : ExchangesFit σ.pool l)
    (hst : ledgerStep quota l σ = some σ') : Balanced quota v σ' := by
  obtain ⟨p', hp, rfl⟩ := Option.map_eq_some_iff.mp hst
  have hbalance := h.balance
  have hwithin := h.within
  cases l with
  | env size =>
    obtain ⟨c, hc, rfl⟩ := Pool.step_env hp
    have hle : size ≤ σ.pool.shared := by
      have hreserved : σ.givenBack + size ≤ v + σ.pool.total granted := hback
      omega
    have hcounter : c = σ.pool.shared - size := by
      rw [← Option.some.inj hc, release, if_pos hq, sub64_of_le (by omega) hle]
    refine ⟨?_, ?_⟩
    · show c + (σ.givenBack + size) = v + σ.pool.total granted
      omega
    · show c ≤ quota
      omega
  | call size =>
    obtain rfl := Pool.step_call hp
    refine ⟨?_, hwithin⟩
    show σ.pool.shared + σ.givenBack = v + Pool.total granted ⟨_, σ.pool.threads ++ [.called size]⟩
    rw [Pool.total, List.map_append, List.sum_append]
    exact hbalance
  | run i f => exact balanced_run hq h hfit hp

/-! ### Every run -/

/-- In every run in which no exchange that succeeds passes 2^64, `reserve` is exact:
its 64-bit arithmetic, its stale loads and its repeated exchanges come to one addition
in natural numbers within the quota, or to none. -/
theorem reserve_exact (hq : 1 ≤ quota) (hlt : quota < 2^64) (hv : v ≤ quota)
    (hrun : Run (ledgerStep quota)
      (fun σ l => GivesBackReserved v σ l ∧ ExchangesFit σ.pool l) ⟨⟨v, []⟩, 0⟩ ls σ) :
    ExactRun quota v ls σ.pool := by
  have hq0 : quota ≠ 0 := by omega
  have hpool : Run (reserveLoops quota) ExchangesFit ⟨v, []⟩ ls σ.pool := by
    have hmapped : Run (reserveLoops quota) ExchangesFit ⟨v, []⟩ (ls.map id) σ.pool :=
      hrun.simulate Ledger.pool id fun σ l σ' hok hst => by
        obtain ⟨p', hp, rfl⟩ := Option.map_eq_some_iff.mp hst
        exact ⟨hok.2, hp⟩
    rwa [List.map_id] at hmapped
  have hbalanced : Balanced quota v σ :=
    hrun.invariant (Balanced quota v)
      (fun σ l σ' h hok hst => balanced_step hq0 hlt h hok.1 hok.2 hst) ⟨rfl, hv⟩
  have hrecord : ∀ i t, σ.pool.threads[i]? = some t →
      Record (reserveUpdate quota) (fun size c => c + size < 2^64) (accesses quota i ls ⟨v, []⟩) t := by
    intro i t ht
    rw [reserveLoops_eq hq0] at hpool
    rw [accesses, reserveLoops_eq hq0]
    exact record_run (fun p f size hok hloaded => hok size hloaded) hpool rfl ht
  refine ⟨hbalanced.within, fun i size ht => ?_, fun i size ht => ?_, fun i => ?_⟩
  · obtain ⟨earlier, c, c', hacc, hsame, hfit, hu⟩ := (hrecord i _ ht).of_updated
    obtain ⟨rfl, hle⟩ := reserveUpdate_some hfit hu
    exact ⟨earlier, c, hacc, hle, hsame⟩
  · obtain ⟨hsame, c, hseen, hu⟩ := (hrecord i _ ht).of_refused
    exact ⟨hsame, c, hseen, reserveUpdate_none hu⟩
  · rw [reserveLoops_eq hq0] at hpool ⊢
    exact retries_le_changes hpool rfl

/-- A call whose exchange passes 2^64 is granted, and the counter falls: from then on
the run is not exact. -/
theorem inexact_of_wrap {i size : ℕ} {p p' : Pool ℕ (Loop ℕ ℕ)}
    {ok : Pool ℕ (Loop ℕ ℕ) → Move ℕ ℕ Unit → Prop} (hq : quota ≠ 0)
    (hrun : Run (reserveLoops quota) ok ⟨v, []⟩ ls p) (hcounter : p.shared ≤ quota)
    (hquota : quota < 2^64) (hsize : size < 2^64)
    (hi : p.threads[i]? = some (.loaded size p.shared)) (hwrap : 2^64 ≤ p.shared + size)
    (hst : reserveLoops quota (.run i ()) p = some p') :
    ¬ ExactRun quota v (ls ++ [.run i ()]) p' := by
  intro hexact
  obtain ⟨low, hsum, hlow⟩ : ∃ low, add64 p.shared size = low ∧ low + 2^64 = p.shared + size :=
    ⟨_, rfl, by unfold add64; omega⟩
  have hu : reserveUpdate quota size p.shared = some low := by
    rw [reserveUpdate, hsum, if_neg (by omega)]
  have hone : loopStep (reserveUpdate quota) () p.shared (.loaded size p.shared) =
      some (low, .returned size true) := by
    simp only [loopStep, hu, if_true]
  rw [reserveLoops_eq hq] at hst
  obtain ⟨t, c, t', ht, hown, rfl⟩ := Pool.step_run hst
  obtain rfl := Option.some.inj (ht.symm.trans hi)
  obtain ⟨rfl, rfl⟩ := Prod.mk.inj (Option.some.inj (hown.symm.trans hone))
  have hlt : i < p.threads.length := (List.getElem?_eq_some_iff.mp hi).1
  obtain ⟨earlier, c', hacc, _, _⟩ := hexact.added i size (List.getElem?_set_self hlt)
  have hruns : Move.runs i (.run i () : Move ℕ ℕ Unit) = true := beq_self_eq_true i
  have hlast : observe (reserveLoops quota) (Pool.ownStep (reserveLoops quota) i) [.run i ()] p =
      [(p.shared, c)] := by
    rw [reserveLoops_eq hq, observe_cons _ hst, observe, List.append_nil, Pool.ownStep,
      if_pos hruns, hst, Option.map_some, Option.toList_some]
  rw [accesses, hrun.observe_append, hlast] at hacc
  have hpair := List.append_inj_right' hacc rfl
  simp only [List.cons.injEq, Prod.mk.injEq, and_true] at hpair
  omega

theorem reserve_wraps : ¬ ∀ (quota v : ℕ) (ls : List (Move ℕ ℕ Unit)) (σ : Ledger), 1 ≤ quota →
    quota < 2^64 → v ≤ quota →
    Run (ledgerStep quota) (GivesBackReserved v) ⟨⟨v, []⟩, 0⟩ ls σ →
    ExactRun quota v ls σ.pool := by
  intro h
  have hrun : Run (ledgerStep (2^64 - 1)) (GivesBackReserved (2^64 - 1)) ⟨⟨2^64 - 1, []⟩, 0⟩
      [.call 1, .run 0 (), .run 0 ()] ⟨⟨0, [.returned 1 true]⟩, 0⟩ :=
    .cons (by decide : 1 < 2^64) rfl (.cons trivial rfl (.cons trivial rfl (.nil _)))
  obtain ⟨earlier, c, hacc, _⟩ :=
    (h _ _ _ _ (by decide) (by decide) le_rfl hrun).added 0 1 rfl
  have hlast : (accesses (2^64 - 1) 0 [.call 1, .run 0 (), .run 0 ()] ⟨2^64 - 1, []⟩).getLast? =
      some (2^64 - 1, 0) := by decide
  rw [hacc, List.getLast?_concat] at hlast
  cases hlast

/-- Two calls load the same counter; the second has to repeat its exchange. -/
theorem reserve_exact_interleaved : ExactRun 10 0
    [.call 4, .call 5, .run 0 (), .run 1 (), .run 0 (), .run 1 (), .run 1 (), .env 4]
    ⟨5, [.returned 4 true, .returned 5 true]⟩ := by
  have hrun : Run (ledgerStep 10) (fun σ l => GivesBackReserved 0 σ l ∧ ExchangesFit σ.pool l)
      ⟨⟨0, []⟩, 0⟩
      [.call 4, .call 5, .run 0 (), .run 1 (), .run 0 (), .run 1 (), .run 1 (), .env 4]
      ⟨⟨5, [.returned 4 true, .returned 5 true]⟩, 4⟩ := by
    refine .cons ⟨(by decide : 4 < 2^64), trivial⟩ rfl
      (.cons ⟨(by decide : 5 < 2^64), trivial⟩ rfl ?_)
    refine .cons ⟨trivial, fun size h => by cases h⟩ rfl
      (.cons ⟨trivial, fun size h => by cases h⟩ rfl ?_)
    refine .cons ⟨trivial, fun size h => ?_⟩ rfl (.cons ⟨trivial, fun size h => by cases h⟩ rfl ?_)
    · cases h
      decide
    refine .cons ⟨trivial, fun size h => ?_⟩ rfl (.cons ⟨?_, trivial⟩ rfl (.nil _))
    · cases h
      decide
    · show 0 + 4 ≤ 0 + 9
      decide
  exact reserve_exact (by decide) (by decide) (by decide) hrun

end BlobRelay
