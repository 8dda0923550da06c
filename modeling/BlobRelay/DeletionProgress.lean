import BlobRelay.DeletionAtomicity
import BlobRelay.Quiescence

/-! # Deletions in their steps come to an end

A handler may now wait for a mutex, but who holds one is inside a deletion and does not
wait: it gives the mutex back within two steps of its own. So the handlers still come to
rest, in any order of their steps. -/

namespace BlobRelay
open Foundation Foundation.FileStore Foundation.Mutex

def Caller.deletionLeft (t : Caller) : ℕ :=
  match t.deletion with
  | none => 2
  | some d => match d.pc with
    | .released => 1
    | .present => 0

/-- A deletion takes up to three of these steps for one of `Handler.work`. -/
def Caller.work (bytes entries : ℕ) (t : Caller) : ℕ :=
  3 * t.handler.work bytes entries + t.deletionLeft

/-- The handlers over the world as it stands. -/
def LockedSystem.plain (σ : LockedSystem) : System :=
  ⟨σ.shared.world, σ.threads.map Caller.handler⟩

variable {cfg : Config} {f : Fault} {w w' : World} {t t' : Handler} {σ σ' : LockedSystem}
  {l : SystemMove} {i bytes entries v : ℕ}

theorem deletionLeft_le (t : Caller) : t.deletionLeft ≤ 2 := by
  unfold Caller.deletionLeft
  split
  · omega
  · split <;> omega

/-! ### The counter aside -/

theorem bounded_withCurrentSize {hs : List Handler} :
    Bounded bytes entries ⟨w.withCurrentSize v, hs⟩ ↔ Bounded bytes entries ⟨w, hs⟩ :=
  ⟨fun h => ⟨h.files, h.entries⟩, fun h => ⟨h.files, h.entries⟩⟩

/-- A handler of a bounded pool that steps leaves the pool bounded and has less to do. -/
theorem bounded_handler {hs : List Handler} (h : Bounded bytes entries ⟨w, hs⟩)
    (ht : hs[i]? = some t) (hst : handlerStep cfg f w t = some (w', t')) :
    Bounded bytes entries ⟨w', hs.set i t'⟩ ∧ t'.work bytes entries < t.work bytes entries := by
  have hone : systemStep cfg (.run i f) ⟨w, hs⟩ = some ⟨w', hs.set i t'⟩ := by
    simp only [systemStep, Pool.step, ht, Option.bind_some, hst, Option.map_some]
  have hinside : Inside ⟨w, hs⟩ (.run i f) := trivial
  obtain ⟨hbound, hless⟩ := bounded_step h hinside hone
  have hset : Pool.total (Handler.work bytes entries) (⟨w', hs.set i t'⟩ : System) +
      t.work bytes entries = Pool.total (Handler.work bytes entries) (⟨w, hs⟩ : System) +
        t'.work bytes entries := Pool.sum_set _ ht t'
  exact ⟨hbound, by omega⟩

/-! ### One step -/

theorem plain_thread {t : Caller} (ht : σ.threads[i]? = some t) :
    σ.plain.threads[i]? = some t.handler := by
  show (σ.threads.map Caller.handler)[i]? = _
  rw [List.getElem?_map, ht, Option.map_some]

theorem locked_bounded_run {t t' : Caller} {w' : LockedWorld} (hinv : LockedInv σ)
    (h : Bounded bytes entries σ.plain) (ht : σ.threads[i]? = some t)
    (hst : CallerStepped cfg f σ.shared t w' t') :
    Bounded bytes entries (LockedSystem.plain ⟨w', σ.threads.set i t'⟩) ∧
      t'.work bytes entries < t.work bytes entries := by
  have hthread := plain_thread ht
  have hplain : LockedSystem.plain ⟨w', σ.threads.set i t'⟩ =
      ⟨w'.world, σ.plain.threads.set i t'.handler⟩ := by
    unfold LockedSystem.plain
    rw [List.map_set]
  have hsame : t'.handler = t.handler → σ.plain.threads.set i t'.handler = σ.plain.threads :=
    atomic_stutters ht
  have hleft := deletionLeft_le t'
  rw [hplain]
  cases hst with
  | whole hnone hdel hfree hstep =>
    obtain ⟨hbound, hless⟩ := bounded_handler h hthread hstep
    refine ⟨hbound, ?_⟩
    have hbefore : t.deletionLeft = 2 := by rw [Caller.deletionLeft, hnone]
    unfold Caller.work
    dsimp only at hless hleft ⊢
    omega
  | @nothing s b hnone hdel hwhole =>
    have hstep := handlerStep_deletes cfg f
      (σ.shared.world.withCurrentSize σ.shared.world.manager.currentSize) hdel
    rw [hwhole, Option.map_some] at hstep
    obtain ⟨hbound, hless⟩ := bounded_handler h hthread hstep
    refine ⟨hbound, ?_⟩
    have hbefore : t.deletionLeft = 2 := by rw [Caller.deletionLeft, hnone]
    unfold Caller.work
    dsimp only at hless hleft ⊢
    omega
  | @entered s b e hnone hdel hfree he =>
    rw [hsame rfl]
    refine ⟨⟨h.files, h.entries⟩, ?_⟩
    have hbefore : t.deletionLeft = 2 := by rw [Caller.deletionLeft, hnone]
    have hafter : (⟨t.handler, some ⟨s, b, e, .released⟩⟩ : Caller).deletionLeft = 1 := rfl
    unfold Caller.work
    dsimp only at hafter ⊢
    omega
  | @asked d hd hpc =>
    rw [hsame rfl]
    refine ⟨h, ?_⟩
    have hbefore : t.deletionLeft = 1 := by rw [Caller.deletionLeft, hd]; simp only [hpc]
    have hafter : (⟨t.handler, some {d with pc := .present}⟩ : Caller).deletionLeft = 0 := rfl
    unfold Caller.work
    dsimp only at hafter ⊢
    omega
  | @ended d r w₁ g hd hlive hwhole hw =>
    have hstands := hinv.stands i t d ht hd
    have hstep := handlerStep_deletes cfg g
      (σ.shared.world.withCurrentSize σ.shared.world.manager.currentSize) hstands.deletes
    rw [hwhole (hstands.entry hlive), Option.map_some] at hstep
    obtain ⟨hbound, hless⟩ := bounded_handler h hthread hstep
    refine ⟨bounded_withCurrentSize.mp hbound, ?_⟩
    unfold Caller.work
    dsimp only at hless hleft ⊢
    omega

/-- The moves when nothing new comes from outside. -/
def LockedInside (σ : LockedSystem) (l : SystemMove) : Prop := Inside σ.plain l

theorem locked_bounded_step (hinv : LockedInv σ) (h : Bounded bytes entries σ.plain)
    (hl : LockedInside σ l) (hst : lockedStep cfg l σ = some σ') :
    (LockedInv σ' ∧ Bounded bytes entries σ'.plain) ∧
      σ'.total (Caller.work bytes entries) < σ.total (Caller.work bytes entries) := by
  cases l with
  | env a => cases hl
  | call c => cases hl
  | run i f =>
    obtain ⟨t, w', t', ht, hone, rfl⟩ := Pool.step_run hst
    have hstepped := callerStep_cases hone
    obtain ⟨hbound, hless⟩ := locked_bounded_run hinv h ht hstepped
    have htotal := Pool.total_run (Caller.work bytes entries) ht w' t'
    exact ⟨⟨lockedInv_run hinv ht hstepped, hbound⟩, by omega⟩

/-! ### Nobody waits for ever -/

/-- Inside a deletion a handler can go on as long as its session is live. -/
theorem deletion_goes_on (cfg : Config) (f : Fault) {t : Caller} {d : Deletion} (hd : t.deletion = some d)
    (hlive : σ.shared.world.manager.Live d.session) :
    ∃ r, callerStep cfg f σ.shared t = some r := by
  obtain ⟨impl, hs⟩ := hlive
  simp only [callerStep, hd, deletionStep, hs, Option.map_some]
  exact ⟨_, rfl⟩

theorem reference_of_locks {s : ℕ} (h : t.locks = some s) : t.reference = some s := by
  unfold Handler.locks at h
  split at h <;> first | exact h | cases h

theorem reference_of_deletes {s b : ℕ} (h : t.deletes = some (s, b)) :
    t.reference = some s := by
  cases t with
  | put messages pc =>
    cases pc with
    | exhausted u =>
      cases h
      rfl
    | _ => cases h
  | get request pc => cases h
  | remove r ids pc =>
    cases pc with
    | removing rest =>
      cases rest with
      | nil => cases h
      | cons c rest =>
        cases h
        rfl
    | _ => cases h
  | dispose r pc =>
    cases pc with
    | deleting rest =>
      cases rest with
      | nil => cases h
      | cons c rest =>
        cases h
        rfl
    | _ => cases h

/-- A handler that cannot go on has finished, would use an erased session, or waits for a
mutex whose holder can go on. -/
theorem waits_for_holder (cfg : Config) (f : Fault) {t : Caller} (hinv : LockedInv σ)
    (ht : σ.threads[i]? = some t) (hfin : t.handler.finished = false)
    (hlive : ¬ Dangles σ.shared.world t.handler) :
    ∃ j σ', lockedStep cfg (.run j f) σ = some σ' := by
  have hof : ∀ (j : ℕ) (u : Caller), σ.threads[j]? = some u →
      (∃ r, callerStep cfg f σ.shared u = some r) →
        ∃ j σ', lockedStep cfg (.run j f) σ = some σ' := by
    intro j u hu ⟨r, hr⟩
    refine ⟨j, ⟨r.1, σ.threads.set j r.2⟩, ?_⟩
    simp only [lockedStep, Pool.step, hu, Option.bind_some, hr, Option.map_some]
  have hsession : ∀ s, t.handler.reference = some s → σ.shared.world.manager.Live s := by
    intro s hs
    by_contra hdead
    exact hlive ⟨s, hs, hdead⟩
  have hwaits : ∀ s, t.handler.reference = some s → s ∈ σ.shared.locked →
      ∃ j σ', lockedStep cfg (.run j f) σ = some σ' := by
    intro s hs hlocked
    obtain ⟨j, u, hu, hholds⟩ := hinv.exclusive.owner s hlocked
    obtain ⟨d, hd, rfl⟩ := Option.map_eq_some_iff.mp hholds
    exact hof j u hu (deletion_goes_on cfg f hd (hsession _ hs))
  cases hd : t.deletion with
  | some d =>
    have hstands := hinv.stands i t d ht hd
    exact hof i t ht (deletion_goes_on cfg f hd
      (hsession _ (reference_of_deletes hstands.deletes)))
  | none =>
    cases hdel : t.handler.deletes with
    | some x =>
      obtain ⟨s, b⟩ := x
      have href := reference_of_deletes hdel
      by_cases hlocked : s ∈ σ.shared.locked
      · exact hwaits s href hlocked
      · obtain ⟨impl, hs⟩ := hsession s href
        refine hof i t ht ?_
        simp only [callerStep, hd, hdel, if_neg hlocked, enterDeletion, hs, Option.map_some]
        exact ⟨_, rfl⟩
    | none =>
      obtain ⟨r, hr⟩ := handlerStep_of_live cfg f hfin hlive
      cases hlock : t.handler.locks with
      | some s =>
        by_cases hlocked : s ∈ σ.shared.locked
        · exact hwaits s (reference_of_locks hlock) hlocked
        · refine hof i t ht ?_
          simp only [callerStep, hd, hdel, hlock, Option.any_some, hlocked, hr, Option.map_some]
          exact ⟨_, rfl⟩
      | none =>
        refine hof i t ht ?_
        simp only [callerStep, hd, hdel, hlock, Option.any_none, hr, Option.map_some]
        exact ⟨_, rfl⟩

theorem locked_stuck_ended (hinv : LockedInv σ)
    (h : ∀ l, LockedInside σ l → lockedStep cfg l σ = none) {t : Caller} (ht : t ∈ σ.threads) :
    t.handler.finished = true ∨ Dangles σ.shared.world t.handler := by
  obtain ⟨i, hi⟩ := List.mem_iff_getElem?.mp ht
  cases hfin : t.handler.finished with
  | true => exact Or.inl rfl
  | false =>
    right
    by_contra hlive
    obtain ⟨j, σ', hj⟩ := waits_for_holder cfg .none hinv hi hfin hlive
    rw [h (.run j .none) trivial] at hj
    cases hj

/-- Left to its handlers, the finer system makes a bounded number of steps too, and from
wherever it is they can go on until each has ended or would use an erased session; the
mutexes that are then still held are those of erased sessions. -/
theorem locked_comes_to_rest {σ₀ : System} {ls₀ ls : List SystemMove} (h₀ : Initial cfg σ₀)
    (hbefore : Run (lockedStep cfg) (fun σ _ => Headroom σ.shared.world) (idle σ₀) ls₀ σ)
    (hbytes : ∀ i, (σ.shared.world.files.data i).length ≤ bytes)
    (hentries : ∀ (s : ℕ) impl, σ.shared.world.manager.blobSessions[s]? = some impl →
      impl.entries.length ≤ entries)
    (hrun : Run (lockedStep cfg) LockedInside σ ls σ') :
    ls.length ≤ σ.total (Caller.work (bytes + σ.plain.total Handler.load)
        (entries + σ.threads.length)) ∧
      ∃ ms σ'', Run (lockedStep cfg) LockedInside σ' ms σ'' ∧
        (∀ t ∈ σ''.threads, t.handler.finished = true ∨ Dangles σ''.shared.world t.handler) ∧
        ∀ s ∈ σ''.shared.locked, ¬ σ''.shared.world.manager.Live s := by
  have hinv := lockedInv_start h₀ (fun _ _ hroom => hroom) hbefore
  have hbounded := bounded_of (σ := σ.plain) hbytes hentries
  have hlength : σ.plain.threads.length = σ.threads.length := List.length_map _
  rw [hlength] at hbounded
  have hstep := fun (σ₁ : LockedSystem) l σ₂
      (h : LockedInv σ₁ ∧ Bounded (bytes + σ.plain.total Handler.load)
        (entries + σ.threads.length) σ₁.plain)
      (hl : LockedInside σ₁ l) (hst : lockedStep cfg l σ₁ = some σ₂) =>
    locked_bounded_step h.1 h.2 hl hst
  obtain ⟨hlast, hlen⟩ := hrun.length_le _ _ hstep ⟨hinv, hbounded⟩
  obtain ⟨ms, σ'', hrest, hstuck⟩ := Run.exists_rest _ _ hstep hlast
  have hinv'' := (hrest.length_le _ _ hstep hlast).1.1
  refine ⟨by omega, ms, σ'', hrest, fun t ht => locked_stuck_ended hinv'' hstuck ht, ?_⟩
  intro s hs hlive
  obtain ⟨j, u, hu, hholds⟩ := hinv''.exclusive.owner s hs
  obtain ⟨d, hd, rfl⟩ := Option.map_eq_some_iff.mp hholds
  obtain ⟨r, hr⟩ := deletion_goes_on cfg .none hd hlive
  have hnone := hstuck (.run j .none) trivial
  simp only [lockedStep, Pool.step, hu, Option.bind_some, hr, Option.map_some] at hnone
  cases hnone

/-- An upload, and a removal that stops inside its deletion. -/
def insideRemoval : List SystemMove := (List.replicate 7 0 ++ [1, 1]).map fun i => .run i .none

theorem locked_comes_to_rest_removal : ∃ σ σ' : LockedSystem,
    exec (lockedStep smallConfig) (fun σ _ => decide (Headroom σ.shared.world))
      [.env (.createSession none), .call (.put [.metadata ⟨1, 1, none⟩, .chunk [1, 2]]),
        .call (.remove 1 [1])] (idle smallStart) = some σ ∧
    exec (lockedStep smallConfig) (fun _ _ => true) insideRemoval σ = some σ' ∧
    σ'.shared.locked = [1] ∧
    insideRemoval.length ≤ σ.total (Caller.work (σ.plain.total Handler.load) σ.threads.length) ∧
    ∃ ms σ'', Run (lockedStep smallConfig) LockedInside σ' ms σ'' ∧
      (∀ t ∈ σ''.threads, t.handler.finished = true ∨ Dangles σ''.shared.world t.handler) ∧
      ∀ s ∈ σ''.shared.locked, ¬ σ''.shared.world.manager.Live s := by
  let σ : LockedSystem := ⟨⟨(oneSession none).shared, []⟩,
    [⟨.put [.metadata ⟨1, 1, none⟩, .chunk [1, 2]] .called, none⟩, ⟨.remove 1 [1] .called, none⟩]⟩
  have hstarted : exec (lockedStep smallConfig) (fun σ _ => decide (Headroom σ.shared.world))
      [.env (.createSession none), .call (.put [.metadata ⟨1, 1, none⟩, .chunk [1, 2]]),
        .call (.remove 1 [1])] (idle smallStart) = some σ := rfl
  have hbefore : Run (lockedStep smallConfig) (fun σ _ => Headroom σ.shared.world)
      (idle smallStart) _ σ := .of_exec hstarted fun _ _ _ hc => of_decide_eq_true hc
  obtain ⟨σ', hexec, hend⟩ := (Option.any_eq_true
      (fun σ : LockedSystem => decide (σ.shared.locked = [1])) _).mp
    (by decide : (exec (lockedStep smallConfig) (fun _ _ => true) insideRemoval σ).any _ = true)
  have hrun : Run (lockedStep smallConfig) LockedInside σ insideRemoval σ' := by
    refine .of_exec hexec fun _ l hl _ => ?_
    obtain ⟨i, _, rfl⟩ := List.mem_map.mp hl
    trivial
  have hrest := locked_comes_to_rest smallStart_initial hbefore (fun _ => le_rfl)
    oneSession_entries hrun
  rw [Nat.zero_add, Nat.zero_add] at hrest
  exact ⟨σ, σ', hstarted, hexec, of_decide_eq_true hend, hrest.1, hrest.2⟩

end BlobRelay
