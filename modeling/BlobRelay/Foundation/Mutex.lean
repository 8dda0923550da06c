import BlobRelay.Foundation.Pool

/-! # Threads that hold a mutex

Each thread of a pool holds the mutex of at most one key, and the locked keys are
kept with the shared state. `Exclusive` says that the locked keys are those that
threads hold, each by one thread; the rules below keep it when a thread takes a
mutex that is free, gives its own back, or does neither. -/

namespace Foundation.Mutex
open Pool

variable {K H : Type}

structure Exclusive (holds : H → Option K) (locked : List K) (threads : List H) : Prop where
  nodup : locked.Nodup
  owner : ∀ k ∈ locked, ∃ (i : ℕ) (t : H), threads[i]? = some t ∧ holds t = some k
  locked : ∀ (i : ℕ) (t : H) (k : K), threads[i]? = some t → holds t = some k → k ∈ locked
  one : ∀ (i j : ℕ) (t u : H) (k : K), threads[i]? = some t → threads[j]? = some u →
    holds t = some k → holds u = some k → i = j

variable {holds : H → Option K} {locked : List K} {threads : List H} {i : ℕ} {t t' : H} {k : K}

theorem exclusive_free (hfree : ∀ t ∈ threads, holds t = none) :
    Exclusive holds [] threads := by
  have hnone : ∀ (i : ℕ) (t : H) (k : K), threads[i]? = some t → holds t ≠ some k := by
    intro i t k ht hk
    rw [hfree t (List.mem_of_getElem? ht)] at hk
    cases hk
  exact ⟨List.nodup_nil, nofun, fun i t k ht hk => absurd hk (hnone i t k ht),
    fun i j t u k ht _ hk => absurd hk (hnone i t k ht)⟩

namespace Exclusive

/-- A thread holds nothing when it starts. -/
theorem start (h : Exclusive holds locked threads) (ht : holds t = none) :
    Exclusive holds locked (threads ++ [t]) := by
  have hold : ∀ (j : ℕ) (u : H) (k : K), (threads ++ [t])[j]? = some u → holds u = some k →
      threads[j]? = some u := by
    intro j u k hu hk
    rcases getElem_snoc hu with ⟨_, rfl⟩ | ⟨_, hu⟩
    · rw [ht] at hk
      cases hk
    · exact hu
  constructor
  · exact h.nodup
  · intro k hk
    obtain ⟨j, u, hu, huk⟩ := h.owner k hk
    have hlt : j < threads.length := (List.getElem?_eq_some_iff.mp hu).1
    exact ⟨j, u, (List.getElem?_append_left hlt).trans hu, huk⟩
  · intro j u k hu hk
    exact h.locked j u k (hold j u k hu hk) hk
  · intro j l u v k hu hv hku hkv
    exact h.one j l u v k (hold j u k hu hku) (hold l v k hv hkv) hku hkv

/-- A step between two accesses to the mutex. -/
theorem keep (h : Exclusive holds locked threads) (ht : threads[i]? = some t)
    (hsame : holds t' = holds t) : Exclusive holds locked (threads.set i t') := by
  have hlt : i < threads.length := (List.getElem?_eq_some_iff.mp ht).1
  have hold : ∀ (j : ℕ) (u : H) (k : K), (threads.set i t')[j]? = some u → holds u = some k →
      ∃ v, threads[j]? = some v ∧ holds v = some k := by
    intro j u k hu hk
    rcases getElem_set hu with ⟨rfl, rfl⟩ | ⟨_, hu⟩
    · exact ⟨t, ht, hsame ▸ hk⟩
    · exact ⟨u, hu, hk⟩
  constructor
  · exact h.nodup
  · intro k hk
    obtain ⟨j, u, hu, huk⟩ := h.owner k hk
    by_cases hij : i = j
    · subst hij
      obtain rfl := Option.some.inj (hu.symm.trans ht)
      exact ⟨i, t', List.getElem?_set_self hlt, hsame.trans huk⟩
    · exact ⟨j, u, (List.getElem?_set_ne hij).trans hu, huk⟩
  · intro j u k hu hk
    obtain ⟨v, hv, hvk⟩ := hold j u k hu hk
    exact h.locked j v k hv hvk
  · intro j l u v k hu hv hku hkv
    obtain ⟨u', hu', hku'⟩ := hold j u k hu hku
    obtain ⟨v', hv', hkv'⟩ := hold l v k hv hkv
    exact h.one j l u' v' k hu' hv' hku' hkv'

/-- Taking a mutex that nobody holds. -/
theorem acquire (h : Exclusive holds locked threads) (ht : threads[i]? = some t)
    (hfree : holds t = none) (hk : k ∉ locked) (ht' : holds t' = some k) :
    Exclusive holds (k :: locked) (threads.set i t') := by
  have hlt : i < threads.length := (List.getElem?_eq_some_iff.mp ht).1
  constructor
  · exact List.nodup_cons.mpr ⟨hk, h.nodup⟩
  · intro c hc
    rcases List.mem_cons.mp hc with rfl | hc
    · exact ⟨i, t', List.getElem?_set_self hlt, ht'⟩
    · obtain ⟨j, u, hu, huc⟩ := h.owner c hc
      have hij : i ≠ j := by
        rintro rfl
        rw [Option.some.inj (ht.symm.trans hu), huc] at hfree
        cases hfree
      exact ⟨j, u, (List.getElem?_set_ne hij).trans hu, huc⟩
  · intro j u c hu hc
    rcases getElem_set hu with ⟨_, rfl⟩ | ⟨_, hu⟩
    · exact List.mem_cons.mpr (Or.inl (Option.some.inj (hc.symm.trans ht')))
    · exact List.mem_cons_of_mem k (h.locked j u c hu hc)
  · intro j l u v c hu hv hcu hcv
    rcases getElem_set hu with ⟨hj, rfl⟩ | ⟨_, hu⟩
    · rcases getElem_set hv with ⟨hl, rfl⟩ | ⟨_, hv⟩
      · exact hj.trans hl.symm
      · rw [ht'] at hcu
        exact absurd (Option.some.inj hcu ▸ h.locked l v c hv hcv) hk
    · rcases getElem_set hv with ⟨_, hvt⟩ | ⟨_, hv⟩
      · rw [hvt, ht'] at hcv
        exact absurd (Option.some.inj hcv ▸ h.locked j u c hu hcu) hk
      · exact h.one j l u v c hu hv hcu hcv

/-- Giving back the mutex that the thread holds. -/
theorem release [DecidableEq K] (h : Exclusive holds locked threads)
    (ht : threads[i]? = some t) (hk : holds t = some k) (ht' : holds t' = none) :
    Exclusive holds (locked.erase k) (threads.set i t') := by
  have hold : ∀ (j : ℕ) (u : H) (c : K), (threads.set i t')[j]? = some u → holds u = some c →
      j ≠ i ∧ threads[j]? = some u := by
    intro j u c hu hc
    rcases getElem_set hu with ⟨_, rfl⟩ | ⟨hj, hu⟩
    · rw [ht'] at hc
      cases hc
    · exact ⟨hj, hu⟩
  constructor
  · exact h.nodup.erase k
  · intro c hc
    obtain ⟨hne, hmem⟩ := h.nodup.mem_erase_iff.mp hc
    obtain ⟨j, u, hu, huc⟩ := h.owner c hmem
    have hij : i ≠ j := by
      rintro rfl
      rw [Option.some.inj (hu.symm.trans ht), hk] at huc
      exact hne (Option.some.inj huc).symm
    exact ⟨j, u, (List.getElem?_set_ne hij).trans hu, huc⟩
  · intro j u c hu hc
    obtain ⟨hj, hu⟩ := hold j u c hu hc
    refine h.nodup.mem_erase_iff.mpr ⟨?_, h.locked j u c hu hc⟩
    rintro rfl
    exact hj (h.one j i u t c hu ht hc hk)
  · intro j l u v c hu hv hcu hcv
    exact h.one j l u v c (hold j u c hu hcu).2 (hold l v c hv hcv).2 hcu hcv

/-- The keys that the threads hold are different, and they are the locked ones. -/
theorem held (h : Exclusive holds locked threads) :
    (threads.filterMap holds).Nodup ∧ ∀ k ∈ threads.filterMap holds, k ∈ locked := by
  constructor
  · rw [List.Nodup, List.pairwise_filterMap, List.pairwise_iff_getElem]
    intro i j hi hj hij k hk l hl heq
    subst heq
    have hsame := h.one i j threads[i] threads[j] k (List.getElem?_eq_getElem hi)
      (List.getElem?_eq_getElem hj) hk hl
    omega
  · intro k hk
    obtain ⟨t, ht, hholds⟩ := List.mem_filterMap.mp hk
    obtain ⟨i, hi⟩ := List.mem_iff_getElem?.mp ht
    exact h.locked i t k hi hholds

end Exclusive
end Foundation.Mutex
