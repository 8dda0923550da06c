import Mathlib.Tactic

/-! # Actions of a set

Actions that commute with each other and do nothing a second time. What a list of them
comes to depends only on which of them are in the list. -/

namespace Foundation
variable {ι S : Type} {act : ι → S → S} {is js : List ι}

/-- The actions of a list, one after the other. -/
def actEach (act : ι → S → S) (is : List ι) (s : S) : S := is.foldl (fun s i => act i s) s

@[simp] theorem actEach_nil (s : S) : actEach act [] s = s := rfl

@[simp] theorem actEach_cons (i : ι) (is : List ι) (s : S) :
    actEach act (i :: is) s = actEach act is (act i s) := rfl

theorem actEach_append (is js : List ι) (s : S) :
    actEach act (is ++ js) s = actEach act js (actEach act is s) :=
  List.foldl_append

structure SetAction (act : ι → S → S) : Prop where
  commute : ∀ i j, Function.Commute (act i) (act j)
  twice : ∀ i s, act i (act i s) = act i s

namespace SetAction

theorem act_actEach (h : SetAction act) (i : ι) (is : List ι) (s : S) :
    act i (actEach act is s) = actEach act is (act i s) := by
  induction is generalizing s with
  | nil => rfl
  | cons j is ih => rw [actEach_cons, ih, (h.commute i j).eq s, actEach_cons]

/-- An action that is done later anyway need not be done before. -/
theorem actEach_act (h : SetAction act) {i : ι} (hi : i ∈ is) (s : S) :
    actEach act is (act i s) = actEach act is s := by
  induction is generalizing s with
  | nil => cases hi
  | cons j is ih =>
    rw [actEach_cons, actEach_cons]
    rcases List.mem_cons.mp hi with rfl | hi
    · rw [h.twice]
    · rw [(h.commute j i).eq s, ih hi]

theorem absorb (h : SetAction act) (hle : ∀ i ∈ js, i ∈ is) (s : S) :
    actEach act is (actEach act js s) = actEach act is s := by
  induction js generalizing s with
  | nil => rfl
  | cons j js ih =>
    rw [actEach_cons, ih (fun i hi => hle i (List.mem_cons_of_mem j hi)),
      h.actEach_act (hle j List.mem_cons_self)]

theorem actEach_commute (h : SetAction act) (is js : List ι) (s : S) :
    actEach act is (actEach act js s) = actEach act js (actEach act is s) := by
  induction is generalizing s with
  | nil => rfl
  | cons i is ih => rw [actEach_cons, h.act_actEach, ih, actEach_cons]

/-- Order and multiplicity do not matter. -/
theorem congr (h : SetAction act) (heq : ∀ i, i ∈ is ↔ i ∈ js) (s : S) :
    actEach act is s = actEach act js s :=
  calc actEach act is s = actEach act is (actEach act js s) :=
        (h.absorb (fun i hi => (heq i).mpr hi) s).symm
    _ = actEach act js (actEach act is s) := h.actEach_commute is js s
    _ = actEach act js s := h.absorb (fun i hi => (heq i).mp hi) s

end SetAction
end Foundation
