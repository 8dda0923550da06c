import Mathlib.Data.List.GetD
import Mathlib.Tactic

/-! # A text repeated without end

`stretch text p n` is the `n` elements from position `p` of `text` repeated for ever: what
it is within one repetition, across the border of two, and how stretches join. -/

namespace Foundation
variable {α : Type} [Inhabited α]

def stretch (text : List α) (p n : ℕ) : List α :=
  (List.range' p n).map fun i => text.getD (i % text.length) default

@[simp] theorem length_stretch (text : List α) (p n : ℕ) : (stretch text p n).length = n := by
  rw [stretch, List.length_map, List.length_range']

theorem stretch_append (text : List α) (p m n : ℕ) :
    stretch text p m ++ stretch text (p + m) n = stretch text p (m + n) := by
  have hrange : List.range' p (m + n) = List.range' p m ++ List.range' (p + m) n := by
    simp
  rw [stretch, stretch, stretch, hrange, List.map_append]

/-- Positions a whole number of repetitions apart start alike. -/
theorem stretch_mod (text : List α) (p n : ℕ) :
    stretch text (p % text.length) n = stretch text p n := by
  refine List.ext_getElem (by simp) fun i _ _ => ?_
  simp only [stretch, List.getElem_map, List.getElem_range', Nat.one_mul, Nat.mod_add_mod]

theorem stretch_within {text : List α} {p n : ℕ} (h : p % text.length + n ≤ text.length) :
    stretch text p n = (text.drop (p % text.length)).take n := by
  refine List.ext_getElem ?_ fun i hi _ => ?_
  · rw [length_stretch, List.length_take, List.length_drop]
    omega
  · rw [length_stretch] at hi
    have hlt : p % text.length + i < text.length := by omega
    have hmod : (p + i) % text.length = p % text.length + i := by
      rw [Nat.add_mod, Nat.mod_eq_of_lt (by omega : i < text.length), Nat.mod_eq_of_lt hlt]
    simp only [stretch, List.getElem_map, List.getElem_range', Nat.one_mul, List.getElem_take,
      List.getElem_drop, hmod]
    rw [List.getD_eq_getElem _ _ hlt]

theorem stretch_start {text : List α} {n : ℕ} (h : n ≤ text.length) :
    stretch text 0 n = text.take n := by
  rw [stretch_within (by rw [Nat.zero_mod]; omega), Nat.zero_mod, List.drop_zero]

/-- Over the border of a repetition: the rest of one, then the start of the next. -/
theorem stretch_across {text : List α} {p n : ℕ} (htext : 0 < text.length)
    (h : text.length < p % text.length + n) :
    stretch text p n = text.drop (p % text.length) ++
      stretch text 0 (n - (text.length - p % text.length)) := by
  have hlt := Nat.mod_lt p htext
  have hend : (p + (text.length - p % text.length)) % text.length = 0 := by
    have hp := Nat.div_add_mod p text.length
    have hsum : p + (text.length - p % text.length) = text.length * (p / text.length + 1) := by
      rw [Nat.mul_add, Nat.mul_one]
      omega
    rw [hsum, Nat.mul_mod_right]
  have hsplit : n = (text.length - p % text.length) + (n - (text.length - p % text.length)) := by
    omega
  rw [hsplit, ← stretch_append, stretch_within (by omega), ← stretch_mod text (p + _), hend,
    List.take_of_length_le (by rw [List.length_drop]), ← hsplit]

theorem stretch_next {text : List α} {n : ℕ} :
    stretch text 0 (text.length + n) = text ++ stretch text 0 n := by
  rw [← stretch_append, stretch_start le_rfl, List.take_length,
    ← stretch_mod text (0 + text.length), Nat.zero_add, Nat.mod_self]

/-- A list is a stretch when its two parts are. -/
theorem eq_stretch_iff {text all : List α} {p m : ℕ} (hm : m ≤ all.length) :
    all = stretch text p all.length ↔
      all.take m = stretch text p m ∧
        all.drop m = stretch text (p + m) (all.drop m).length := by
  have hlen : (stretch text p m).length = m := length_stretch text p m
  have hsplit : stretch text p all.length =
      stretch text p m ++ stretch text (p + m) (all.drop m).length := by
    rw [stretch_append, List.length_drop, Nat.add_sub_cancel' hm]
  rw [hsplit]
  constructor
  · intro h
    constructor
    · conv_lhs => rw [h]
      exact List.take_left' hlen
    · conv_lhs => rw [h]
      exact List.drop_left' hlen
  · intro ⟨hstart, hend⟩
    rw [← hstart, ← hend, List.take_append_drop]

end Foundation
