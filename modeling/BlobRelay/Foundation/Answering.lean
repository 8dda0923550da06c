import Mathlib.Tactic

/-! # Machines that answer calls

A machine takes a call in a state and gives a reply and the next state, or gets stuck; a
specification always answers. One refines the other when related states answer every call
alike and stay related, and then they answer every sequence of calls alike. -/

namespace Foundation

variable {C A B S T : Type}

/-- The replies to a list of calls, one after the other. -/
def replies (step : C → S → Option (A × S)) : List C → S → Option (List A × S)
  | [], s => some ([], s)
  | c :: cs, s => (step c s).bind fun r =>
    (replies step cs r.2).map fun rest => (r.1 :: rest.1, rest.2)

/-- What a specification answers. -/
def answers (spec : C → T → B × T) : List C → T → List B × T
  | [], t => ([], t)
  | c :: cs, t =>
    let r := spec c t
    let rest := answers spec cs r.2
    (r.1 :: rest.1, rest.2)

/-- Every call meets the condition in the state that the specification is in by then. -/
def Throughout (spec : C → T → B × T) (ok : T → C → Prop) : List C → T → Prop
  | [], _ => True
  | c :: cs, t => ok t c ∧ Throughout spec ok cs (spec c t).2

instance Throughout.decidable (spec : C → T → B × T) (ok : T → C → Prop)
    [∀ t c, Decidable (ok t c)] : ∀ cs t, Decidable (Throughout spec ok cs t)
  | [], _ => .isTrue trivial
  | c :: cs, t =>
    have := Throughout.decidable spec ok cs (spec c t).2
    inferInstanceAs (Decidable (ok t c ∧ Throughout spec ok cs (spec c t).2))

/-- One call: the machine is not stuck, replies as the specification does, and stays
related to it. -/
def Matches (step : C → S → Option (A × S)) (spec : C → T → B × T) (related : S → T → Prop)
    (alike : A → B → Prop) (c : C) (s : S) (t : T) : Prop :=
  ∃ a s', step c s = some (a, s') ∧ alike a (spec c t).1 ∧ related s' (spec c t).2

/-- Any sequence of calls. -/
theorem replies_refine {step : C → S → Option (A × S)} {spec : C → T → B × T}
    {ok : T → C → Prop} {related : S → T → Prop} {alike : A → B → Prop}
    (hstep : ∀ c s t, related s t → ok t c → Matches step spec related alike c s t)
    {s : S} {t : T} (h : related s t) {cs : List C} (hok : Throughout spec ok cs t) :
    ∃ as s', replies step cs s = some (as, s') ∧
      List.Forall₂ alike as (answers spec cs t).1 ∧ related s' (answers spec cs t).2 := by
  induction cs generalizing s t with
  | nil => exact ⟨[], s, rfl, .nil, h⟩
  | cons c cs ih =>
    obtain ⟨hone, hrest⟩ := hok
    obtain ⟨a, s₁, hs, halike, hrel⟩ := hstep c s t h hone
    obtain ⟨as, s', hreplies, hall, hlast⟩ := ih hrel hrest
    refine ⟨a :: as, s', ?_, .cons halike hall, hlast⟩
    simp only [replies, hs, Option.bind_some, hreplies, Option.map_some]

end Foundation
