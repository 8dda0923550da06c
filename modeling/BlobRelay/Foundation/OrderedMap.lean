import Mathlib.Tactic

/-! # Ordered maps: lookups after an update, and totals of a measure

`Std.ExtTreeMap` with the lookups stated by equality of keys, and `total f m`,
the sum of `f` over the values of `m`. Every fact about a total comes from one
rule: two maps that agree away from a key differ by the weights at that key. -/

namespace Foundation.OrderedMap
open Std

variable {α β : Type} [Ord α] [TransOrd α] [LawfulEqOrd α] [DecidableEq α]

@[simp]
theorem get_insertIfNew (m : ExtTreeMap α β) (k a : α) (v : β) :
    (m.insertIfNew k v)[a]? = if k = a then some (m[k]?.getD v) else m[a]? := by
  rw [ExtTreeMap.getElem?_insertIfNew]
  simp only [Std.compare_eq_iff_eq, ExtTreeMap.mem_iff_isSome_getElem?]
  by_cases hk : k = a
  · subst hk
    cases h : m[k]? <;> simp
  · simp [hk]

@[simp]
theorem get_erase (m : ExtTreeMap α β) (k a : α) :
    (m.erase k)[a]? = if k = a then none else m[a]? := by
  rw [ExtTreeMap.getElem?_erase]
  simp only [Std.compare_eq_iff_eq]

@[simp]
theorem get_modify (m : ExtTreeMap α β) (k a : α) (f : β → β) :
    (m.modify k f)[a]? = if k = a then m[k]?.map f else m[a]? := by
  rw [ExtTreeMap.getElem?_modify]
  simp only [Std.compare_eq_iff_eq]

omit [DecidableEq α] in
theorem mem_keys_iff (m : ExtTreeMap α β) (k : α) : k ∈ m.keys ↔ ∃ v, m[k]? = some v := by
  rw [ExtTreeMap.mem_keys, ExtTreeMap.mem_iff_isSome_getElem?, Option.isSome_iff_exists]

omit [DecidableEq α] in
/-- The keys are the one sorted list of what is in the map. -/
theorem keys_eq {m : ExtTreeMap α β} {ks : List α}
    (hsorted : ks.Pairwise fun a b => compare a b = .lt)
    (hmem : ∀ k, k ∈ ks ↔ ∃ v, m[k]? = some v) : m.keys = ks := by
  have : Std.Irrefl fun a b : α => compare a b = .lt := ⟨fun a hlt => by
    rw [Std.compare_self] at hlt
    cases hlt⟩
  have : Std.Antisymm fun a b : α => compare a b = .lt := ⟨fun a b hlt hgt => by
    rw [Std.OrientedCmp.gt_of_lt hlt] at hgt
    cases hgt⟩
  refine ExtTreeMap.ordered_keys.eq_of_mem_iff hsorted fun k => ?_
  rw [mem_keys_iff, hmem]

omit [DecidableEq α] in
/-- A map that has lost the keys with `p` lists the others, in the same order. -/
theorem keys_restrict {m m' : ExtTreeMap α β} {p : α → Bool}
    (h : ∀ k, m'[k]? = if p k then none else m[k]?) : m'.keys = m.keys.filter fun k => !p k := by
  refine keys_eq (ExtTreeMap.ordered_keys.filter _) fun k => ?_
  rw [List.mem_filter, mem_keys_iff, h]
  cases p k <;> simp

/-! ### Totals -/

/-- The measure of what a lookup returned; an absent key weighs nothing. -/
def weight (f : β → ℕ) : Option β → ℕ
  | none => 0
  | some v => f v

@[simp] theorem weight_none (f : β → ℕ) : weight f none = 0 := rfl
@[simp] theorem weight_some (f : β → ℕ) (v : β) : weight f (some v) = f v := rfl

def total (f : β → ℕ) (m : ExtTreeMap α β) : ℕ := (m.keys.map fun k => weight f m[k]?).sum

theorem total_eq_sum (f : β → ℕ) (m : ExtTreeMap α β) (K : Finset α)
    (hK : ∀ k ∈ m.keys, k ∈ K) : total f m = ∑ k ∈ K, weight f m[k]? := by
  have hkeys : total f m = ∑ k ∈ m.keys.toFinset, weight f m[k]? := by
    rw [total, List.sum_toFinset _ ExtTreeMap.nodup_keys]
  rw [hkeys]
  apply Finset.sum_subset
  · intro k hk
    exact hK k (List.mem_toFinset.mp hk)
  · intro k _ hk
    have hnone : m[k]? = none := by
      rw [List.mem_toFinset, mem_keys_iff] at hk
      exact Option.eq_none_iff_forall_ne_some.mpr (fun v hv => hk ⟨v, hv⟩)
    rw [hnone, weight_none]

/-- Maps that agree away from `k` have totals that differ by the weights at `k`. -/
theorem total_update (f : β → ℕ) (m m' : ExtTreeMap α β) (k : α)
    (h : ∀ a, a ≠ k → m'[a]? = m[a]?) :
    total f m' + weight f m[k]? = total f m + weight f m'[k]? := by
  let K := insert k (m.keys.toFinset ∪ m'.keys.toFinset)
  have hm := total_eq_sum f m K (fun a ha => by simp [K, ha])
  have hm' := total_eq_sum f m' K (fun a ha => by simp [K, ha])
  have hk : k ∈ K := Finset.mem_insert_self k _
  have hrest : ∑ a ∈ K.erase k, weight f m'[a]? = ∑ a ∈ K.erase k, weight f m[a]? :=
    Finset.sum_congr rfl fun a ha => by rw [h a (Finset.ne_of_mem_erase ha)]
  rw [hm, hm', ← Finset.add_sum_erase K _ hk, ← Finset.add_sum_erase K (fun a => weight f m[a]?) hk,
    hrest]
  omega

theorem total_erase (f : β → ℕ) (m : ExtTreeMap α β) (k : α) :
    total f (m.erase k) + weight f m[k]? = total f m := by
  have h := total_update f m (m.erase k) k (fun a ha => by simp [Ne.symm ha])
  simpa using h

theorem total_modify (f : β → ℕ) (m : ExtTreeMap α β) (k : α) (g : β → β) :
    total f (m.modify k g) + weight f m[k]? = total f m + weight f (m[k]?.map g) := by
  have h := total_update f m (m.modify k g) k (fun a ha => by simp [Ne.symm ha])
  simpa using h

theorem total_insertIfNew_zero (f : β → ℕ) (m : ExtTreeMap α β) (k : α) (v : β) (hv : f v = 0) :
    total f (m.insertIfNew k v) = total f m := by
  have h := total_update f m (m.insertIfNew k v) k (fun a ha => by simp [Ne.symm ha])
  rw [get_insertIfNew, if_pos rfl, weight_some] at h
  cases hk : m[k]? with
  | none =>
    rw [hk, Option.getD_none, weight_none, hv] at h
    omega
  | some u =>
    rw [hk, Option.getD_some, weight_some] at h
    omega

omit [DecidableEq α] in
theorem total_restrict (f : β → ℕ) {m m' : ExtTreeMap α β} {p : α → Bool}
    (h : ∀ k, m'[k]? = if p k then none else m[k]?) :
    ((m.keys.filter p).map fun k => weight f m[k]?).sum + total f m' = total f m := by
  have hkept : (m'.keys.map fun k => weight f m'[k]?) =
      (m.keys.filter fun k => !p k).map fun k => weight f m[k]? := by
    rw [keys_restrict h]
    refine List.map_congr_left fun k hk => ?_
    have hp : p k = false := by simpa using (List.mem_filter.mp hk).2
    rw [h, hp, if_neg Bool.false_ne_true]
  have hperm := (List.filter_append_perm p m.keys).map fun k => weight f m[k]?
  rw [total, total, hkept, ← hperm.sum_eq, List.map_append, List.sum_append]

theorem weight_le_total (f : β → ℕ) (m : ExtTreeMap α β) (k : α) :
    weight f m[k]? ≤ total f m := by
  have h := total_erase f m k
  omega

/-- Numbers at different keys, each at most the weight there. -/
theorem sum_le_total (f : β → ℕ) (xs : List (α × ℕ)) (m : ExtTreeMap α β)
    (hkeys : (xs.map Prod.fst).Nodup) (hle : ∀ x ∈ xs, x.2 ≤ weight f m[x.1]?) :
    (xs.map Prod.snd).sum ≤ total f m := by
  induction xs generalizing m with
  | nil => exact Nat.zero_le _
  | cons x xs ih =>
    rw [List.map_cons, List.nodup_cons] at hkeys
    have hrest : ∀ y ∈ xs, y.2 ≤ weight f (m.erase x.1)[y.1]? := by
      intro y hy
      have hne : x.1 ≠ y.1 := fun heq => hkeys.1 (heq ▸ List.mem_map_of_mem hy)
      rw [get_erase, if_neg hne]
      exact hle y (List.mem_cons_of_mem x hy)
    have hsum := ih (m.erase x.1) hkeys.2 hrest
    have hone := total_erase f m x.1
    have hx := hle x List.mem_cons_self
    rw [List.map_cons, List.sum_cons]
    omega

omit [LawfulEqOrd α] [DecidableEq α] in
theorem total_eq_zero (f : β → ℕ) (m : ExtTreeMap α β)
    (h : ∀ (k : α) (v : β), m[k]? = some v → f v = 0) : total f m = 0 := by
  refine List.sum_eq_zero fun n hn => ?_
  obtain ⟨k, _, rfl⟩ := List.mem_map.mp hn
  cases hk : m[k]? with
  | none => rfl
  | some v => exact h k v hk

omit [LawfulEqOrd α] [DecidableEq α] in
theorem total_empty (f : β → ℕ) : total f (∅ : ExtTreeMap α β) = 0 :=
  total_eq_zero f ∅ fun k v hk => by simp at hk

end Foundation.OrderedMap
