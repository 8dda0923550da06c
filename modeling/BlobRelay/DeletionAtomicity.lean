import BlobRelay.DeletionMutex
import BlobRelay.Reception

/-! # Deletions are atomic, but for the counter

A deletion in its steps does what one step does, at its last access to the file, except
that its size is back in the usage counter from the start. So as long as reservations are
decided as they would be without what the begun deletions have given back, a run of the
finer system is a run of the service with the deletions in one step each. -/

namespace BlobRelay
open Foundation Foundation.FileStore Foundation.Mutex

variable {cfg : Config} {f : Fault} {w w' : World} {t t' : Handler} {v : ℕ}

/-! ### Values of the counter -/

theorem reserve_refused_snd {quota n cur : ℕ} (h : (reserve quota n cur).1 = false) :
    (reserve quota n cur).2 = cur := by
  unfold reserve at h ⊢
  split
  · rename_i hq
    rw [if_pos hq] at h
    split
    · rfl
    · rename_i hle
      rw [if_neg hle] at h
      cases h
  · rfl

/-- What is given back too early and what is still to be given back make up. -/
theorem charged_release {quota cur m n : ℕ} (hn : n < 2^64) :
    charged quota (release quota n cur) (m + n) = charged quota cur m := by
  unfold charged release sub64
  split
  · omega
  · rfl

theorem release_charged_add {quota cur m n : ℕ} (hn : n < 2^64) :
    release quota n (charged quota cur (m + n)) = charged quota cur m := by
  unfold charged release sub64
  split
  · omega
  · rfl

/-- A reservation that is decided alike before and after `m` bytes are given back. -/
theorem reserve_charged_alike {quota cur m n : ℕ}
    (halike : (reserve quota n (charged quota cur m)).1 = (reserve quota n cur).1) :
    (reserve quota n (charged quota cur m)).2 = charged quota (reserve quota n cur).2 m := by
  cases hgranted : (reserve quota n cur).1 with
  | false =>
    rw [reserve_refused_snd hgranted, reserve_refused_snd (halike.trans hgranted)]
  | true =>
    rw [reserve_charged hgranted, reserve_charged (halike.trans hgranted), charged_charged,
      charged_charged, Nat.add_comm]

/-! ### The counter aside -/

theorem envStep_withCurrentSize (a : EnvAction) :
    envStep cfg a (w.withCurrentSize v) = (envStep cfg a w).map (World.withCurrentSize v) := by
  cases a with
  | createSession u => rfl
  | add s path =>
    simp only [envStep, World.add, World.withCurrentSize]
    cases w.manager.blobSessions[s]? with
    | none => rfl
    | some impl =>
      simp only [Option.map_some]
      by_cases hp : w.files.present path = true
      · simp only [hp, if_true]
        rfl
      · simp only [hp]
        rfl
  | outsideWrite path bytes =>
    simp only [envStep, outsideWrite, World.withCurrentSize]
    split
    · rfl
    · rw [Option.map_map]
      rfl
  | outsideDelete path => rfl

/-- A step that neither reserves nor deletes does not see the counter. -/
theorem putStep_withCurrentSize {messages : List PutStreamingRequest} {pc : PutPc}
    (hr : (Handler.put messages pc).reserves = none)
    (hd : (Handler.put messages pc).deletes = none) :
    putStep cfg f messages (w.withCurrentSize v) pc =
      (putStep cfg f messages w pc).map fun r => (r.1.withCurrentSize v, r.2) := by
  cases pc with
  | called =>
    cases messages with
    | nil => rfl
    | cons m rest =>
      cases m with
      | metadata metadata =>
        simp only [putStep, World.withCurrentSize, BlobSessionManager.getSessionImpl]
        split
        · cases w.manager.blobSessions[metadata.sessionId]? <;> rfl
        · rfl
      | chunk bytes => rfl
      | unset => rfl
  | located s blobSizeOpt rest =>
    simp only [putStep, World.createBlobFile, World.withCurrentSize]
    cases w.manager.blobSessions[s]? <;> rfl
  | created u rest =>
    simp only [putStep, World.withCurrentSize]
    cases openBlobFile (f ≠ .openFails) u.path w.files <;> rfl
  | receiving u out n rest =>
    cases rest with
    | nil => rfl
    | cons m rest =>
      cases m with
      | chunk bytes => cases hr
      | metadata metadata => rfl
      | unset => rfl
  | exhausted u => cases hd
  | received u n =>
    simp only [putStep, World.withCurrentSize]
    split
    · split <;> rfl
    · rfl
  | tagging u =>
    simp only [putStep, World.withCurrentSize]
    cases w.manager.blobSessions[u.session]? <;> rfl
  | finished u o => rfl

theorem getPcStep_withCurrentSize {request : GetStreamingRequest} {pc : GetPc} :
    getPcStep cfg f request (w.withCurrentSize v) pc = getPcStep cfg f request w pc := by
  cases pc <;> rfl

theorem handlerStep_withCurrentSize (cfg : Config) (f : Fault) (w : World) (v : ℕ)
    (hr : t.reserves = none) (hd : t.deletes = none) :
    handlerStep cfg f (w.withCurrentSize v) t =
      (handlerStep cfg f w t).map fun r => (r.1.withCurrentSize v, r.2) := by
  cases t with
  | put messages pc =>
    simp only [handlerStep, putStep_withCurrentSize hr hd, Option.map_map]
    rfl
  | get request pc =>
    simp only [handlerStep, getPcStep_withCurrentSize, Option.map_map]
    rfl
  | remove s ids pc =>
    cases pc with
    | called =>
      simp only [handlerStep, removeStep, World.withCurrentSize,
        BlobSessionManager.getSessionImpl]
      cases w.manager.blobSessions[s]? <;> rfl
    | removing rest =>
      cases rest with
      | nil => rfl
      | cons b rest => cases hd
    | finished r => rfl
  | dispose s pc =>
    cases pc with
    | called =>
      simp only [handlerStep, disposeStep, World.withCurrentSize,
        BlobSessionManager.getSessionImpl]
      cases w.manager.blobSessions[s]? <;> rfl
    | listing =>
      simp only [handlerStep, disposeStep, World.withCurrentSize]
      cases w.manager.blobSessions[s]? <;> rfl
    | deleting rest =>
      cases rest with
      | nil =>
        simp only [handlerStep, disposeStep, World.withCurrentSize, BlobSessionManager.dispose]
        cases w.manager.blobSessions[s]? with
        | none => rfl
        | some impl => rfl
      | cons b rest => cases hd
    | finished r => rfl

/-- A reservation that is decided alike at two values of the counter. -/
theorem handlerStep_reserving {s b n : ℕ} (ht : t.reserves = some (s, b, n))
    (halike : (reserve cfg.quota n v).1 = (reserve cfg.quota n w.manager.currentSize).1)
    (h : handlerStep cfg f w t = some (w', t')) :
    w'.manager.currentSize = (reserve cfg.quota n w.manager.currentSize).2 ∧
      handlerStep cfg f (w.withCurrentSize v) t =
        some (w'.withCurrentSize (reserve cfg.quota n v).2, t') := by
  unfold Handler.reserves at ht
  split at ht
  · rename_i messages u out total bytes rest
    cases ht
    obtain ⟨⟨w₁, pc⟩, hput, he⟩ := Option.map_eq_some_iff.mp h
    cases he
    have hcases : ∀ (impl : BlobSessionImpl), w.manager.blobSessions[u.session]? = some impl →
        w₁.manager.currentSize = (reserve cfg.quota bytes.length w.manager.currentSize).2 ∧
          putStep cfg f messages (w.withCurrentSize v)
            (.receiving u out total (.chunk bytes :: rest)) =
              some (w₁.withCurrentSize (reserve cfg.quota bytes.length v).2, pc) := by
      intro impl hs
      have hs' : (w.withCurrentSize v).manager.blobSessions[u.session]? = some impl := hs
      have hv : (w.withCurrentSize v).manager.currentSize = v := rfl
      simp only [putStep, World.reserveSessionStore, hs, Option.map_some] at hput
      simp only [putStep, World.reserveSessionStore, hs', hv, Option.map_some]
      cases hgranted : (reserve cfg.quota bytes.length w.manager.currentSize).1 with
      | false =>
        rw [hgranted] at halike hput
        cases hput
        rw [halike, reserve_refused_snd hgranted, reserve_refused_snd halike]
        exact ⟨rfl, rfl⟩
      | true =>
        rw [hgranted] at halike hput
        rw [halike]
        cases hb : impl.blobs[u.blobId]? with
        | none =>
          simp only [hb, if_true] at hput
          cases hput
          exact ⟨rfl, rfl⟩
        | some e =>
          simp only [hb, if_true] at hput
          cases hput
          exact ⟨rfl, rfl⟩
    cases hs : w.manager.blobSessions[u.session]? with
    | none =>
      simp only [putStep, World.reserveSessionStore, hs, Option.map_none] at hput
      cases hput
    | some impl =>
      obtain ⟨hsize, hsame⟩ := hcases impl hs
      refine ⟨hsize, ?_⟩
      simp only [handlerStep, hsame, Option.map_some]
  · cases ht

theorem handlerStep_deletes (cfg : Config) (f : Fault) (w : World) {s b : ℕ}
    (ht : t.deletes = some (s, b)) :
    handlerStep cfg f w t =
      (w.deleteBlobFile cfg s b f.deletes).map fun r => (r.2, t.deleted r.1) := by
  cases t with
  | put messages pc =>
    cases pc with
    | exhausted u =>
      cases ht
      simp only [handlerStep, putStep]
      cases w.deleteBlobFile cfg u.session u.blobId f.deletes with
      | none => rfl
      | some r =>
        obtain ⟨x, w₁⟩ := r
        cases x <;> rfl
    | _ => cases ht
  | get request pc => cases ht
  | remove r ids pc =>
    cases pc with
    | removing rest =>
      cases rest with
      | nil => cases ht
      | cons c rest =>
        cases ht
        simp only [handlerStep, removeStep]
        cases w.deleteBlobFile cfg s b f.deletes with
        | none => rfl
        | some r =>
          obtain ⟨x, w₁⟩ := r
          cases x <;> rfl
    | _ => cases ht
  | dispose r pc =>
    cases pc with
    | deleting rest =>
      cases rest with
      | nil => cases ht
      | cons c rest =>
        cases ht
        simp only [handlerStep, disposeStep]
        cases w.deleteBlobFile cfg s b f.deletes with
        | none => rfl
        | some r =>
          obtain ⟨x, w₁⟩ := r
          cases x <;> rfl
    | _ => cases ht

/-! ### Each step is one step of the service, or none -/

/-- The service with the begun deletions still to be made. -/
def atomic (cfg : Config) (σ : LockedSystem) : System :=
  ⟨σ.shared.world.withCurrentSize
      (charged cfg.quota σ.shared.world.manager.currentSize (σ.total Caller.givenBack)),
    σ.threads.map Caller.handler⟩

/-- The size that the next step reserves. -/
def reservesNext (σ : LockedSystem) : SystemMove → Option ℕ
  | .run i _ => σ.threads[i]?.bind fun t => t.handler.reserves.map fun x => x.2.2
  | _ => none

/-- The next step's reservation, if it makes one, is decided as it would be without what
the begun deletions have given back. -/
def DecidesAlike (cfg : Config) (σ : LockedSystem) (l : SystemMove) : Prop :=
  ∀ n ∈ reservesNext σ l, (reserve cfg.quota n (atomic cfg σ).shared.manager.currentSize).1 =
    (reserve cfg.quota n σ.shared.world.manager.currentSize).1

instance (cfg : Config) (σ : LockedSystem) (l : SystemMove) : Decidable (DecidesAlike cfg σ l) :=
  inferInstanceAs (Decidable (∀ n ∈ reservesNext σ l, _))

theorem decidesAlike_unlimited (hq : cfg.quota = 0) (σ : LockedSystem) (l : SystemMove) :
    DecidesAlike cfg σ l := by
  intro n _
  rw [reserve, reserve, if_neg (not_not.mpr hq), if_neg (not_not.mpr hq)]

section Refine
variable {σ σ' : LockedSystem} {l : SystemMove} {i : ℕ} {t t' : Caller} {w' : LockedWorld}

theorem atomic_thread (ht : σ.threads[i]? = some t) :
    (atomic cfg σ).threads[i]? = some t.handler := by
  show (σ.threads.map Caller.handler)[i]? = _
  rw [List.getElem?_map, ht, Option.map_some]

/-- A step of the handler in the finer system that is one of the service. -/
theorem atomic_moves {w₁ : World} {h₁ : Handler} (g : Fault) (ht : σ.threads[i]? = some t)
    (hstep : handlerStep cfg g (atomic cfg σ).shared t.handler = some (w₁, h₁))
    (hsame : atomic cfg ⟨w', σ.threads.set i t'⟩ =
      ⟨w₁, (σ.threads.map Caller.handler).set i h₁⟩) :
    ∃ l', systemStep cfg l' (atomic cfg σ) = some (atomic cfg ⟨w', σ.threads.set i t'⟩) := by
  refine ⟨.run i g, ?_⟩
  rw [hsame]
  show ((atomic cfg σ).threads[i]?).bind _ = _
  rw [atomic_thread ht, Option.bind_some, hstep, Option.map_some]
  rfl

/-- The counter and the threads after a step, what it has given back counted in. -/
theorem atomic_set {v : ℕ} (hv : charged cfg.quota w'.world.manager.currentSize
      (Pool.total Caller.givenBack ⟨w', σ.threads.set i t'⟩) = v) :
    atomic cfg ⟨w', σ.threads.set i t'⟩ =
      ⟨w'.world.withCurrentSize v, (σ.threads.map Caller.handler).set i t'.handler⟩ := by
  unfold atomic
  rw [hv, List.map_set]

theorem atomic_stutters (ht : σ.threads[i]? = some t) (hsame : t'.handler = t.handler) :
    (σ.threads.map Caller.handler).set i t'.handler = σ.threads.map Caller.handler := by
  have hmapped : (σ.threads.map Caller.handler)[i]? = some t.handler := by
    rw [List.getElem?_map, ht, Option.map_some]
  obtain ⟨hlt, hget⟩ := List.getElem?_eq_some_iff.mp hmapped
  rw [hsame, ← hget]
  exact List.set_getElem_self hlt

theorem atomic_run (h : LockedInv σ) (ht : σ.threads[i]? = some t)
    (halike : DecidesAlike cfg σ (.run i f)) (hst : CallerStepped cfg f σ.shared t w' t') :
    atomic cfg ⟨w', σ.threads.set i t'⟩ = atomic cfg σ ∨
      ∃ l', systemStep cfg l' (atomic cfg σ) = some (atomic cfg ⟨w', σ.threads.set i t'⟩) := by
  have htotal := Pool.total_run Caller.givenBack ht w' t'
  cases hst with
  | @whole w₁ t₁ hnone hdel hfree hstep =>
    right
    have hzero : t.givenBack = 0 := by rw [Caller.givenBack, hnone, Option.elim_none]
    have hsame : Pool.total Caller.givenBack
        (⟨⟨w₁, σ.shared.locked⟩, σ.threads.set i ⟨t₁, none⟩⟩ : LockedSystem) =
          σ.total Caller.givenBack := by
      rw [hzero] at htotal
      exact htotal
    cases hr : t.handler.reserves with
    | none =>
      have hsize : w₁.manager.currentSize = σ.shared.world.manager.currentSize := by
        cases handlerStep_books hstep with
        | nothing _ _ _ hkeep => exact hkeep.currentSize
        | reserves hres => cases hr.symm.trans hres
        | deletes hdel' => cases hdel.symm.trans hdel'
        | erases => exact BlobSessionManager.currentSize_dispose
      have hmoved := handlerStep_withCurrentSize cfg f σ.shared.world
        (atomic cfg σ).shared.manager.currentSize hr hdel
      rw [hstep, Option.map_some] at hmoved
      refine atomic_moves f ht hmoved (atomic_set ?_)
      rw [hsame, hsize]
      rfl
    | some x =>
      obtain ⟨s, b, n⟩ := x
      have hnext : reservesNext σ (.run i f) = some n := by
        simp only [reservesNext, ht, Option.bind_some, hr, Option.map_some]
      obtain ⟨hsize, hmoved⟩ := handlerStep_reserving hr (halike n hnext) hstep
      refine atomic_moves f ht hmoved (atomic_set ?_)
      rw [hsame, hsize]
      exact (reserve_charged_alike (halike n hnext)).symm
  | @nothing s b hnone hdel hsame =>
    right
    have hzero : t.givenBack = 0 := by rw [Caller.givenBack, hnone, Option.elim_none]
    have hmoved := handlerStep_deletes cfg f (atomic cfg σ).shared hdel
    rw [show (atomic cfg σ).shared = σ.shared.world.withCurrentSize _ from rfl, hsame,
      Option.map_some] at hmoved
    refine atomic_moves f ht hmoved (atomic_set ?_)
    rw [hzero] at htotal
    exact congrArg (charged cfg.quota _) htotal
  | @entered s b e hnone hdel hfree he =>
    left
    have hzero : t.givenBack = 0 := by rw [Caller.givenBack, hnone, Option.elim_none]
    have hone : Pool.total Caller.givenBack
        (⟨⟨σ.shared.world.giveBack cfg e.2, s :: σ.shared.locked⟩,
          σ.threads.set i ⟨t.handler, some ⟨s, b, e, .released⟩⟩⟩ : LockedSystem) =
          σ.total Caller.givenBack + e.2 := by
      rw [hzero] at htotal
      exact htotal
    rw [atomic_set rfl, atomic_stutters ht rfl, hone]
    show (⟨σ.shared.world.withCurrentSize (charged cfg.quota (release cfg.quota e.2 _) _), _⟩ :
      System) = _
    rw [charged_release (h.inWord.recorded s b e he)]
    rfl
  | @asked d hd _ =>
    left
    have hsame : t.givenBack = (⟨t.handler, some {d with pc := .present}⟩ : Caller).givenBack := by
      rw [Caller.givenBack, hd]
      rfl
    rw [hsame] at htotal
    rw [atomic_set rfl, atomic_stutters ht rfl, Nat.add_right_cancel htotal]
    rfl
  | @ended d r w₁ g hd hlive hwhole hw =>
    right
    have hstands := h.stands i t d ht hd
    have hgiven : t.givenBack = d.entry.2 := by rw [Caller.givenBack, hd, Option.elim_some]
    have hone : σ.total Caller.givenBack = Pool.total Caller.givenBack
        (⟨⟨w₁, σ.shared.locked.erase d.session⟩,
          σ.threads.set i ⟨t.handler.deleted r, none⟩⟩ : LockedSystem) + d.entry.2 := by
      rw [hgiven] at htotal
      exact htotal.symm
    have hsize : w₁.manager.currentSize = σ.shared.world.manager.currentSize := by
      rcases hw with ⟨rfl, _⟩ | ⟨fs, rfl⟩
      · rfl
      · rfl
    have hmoved := handlerStep_deletes cfg g (atomic cfg σ).shared hstands.deletes
    rw [show (atomic cfg σ).shared = σ.shared.world.withCurrentSize _ from rfl,
      hwhole (hstands.entry hlive), Option.map_some] at hmoved
    refine atomic_moves g ht hmoved (atomic_set ?_)
    rw [hone, release_charged_add hstands.size, hsize]

theorem atomic_step (h : LockedInv σ) (hroom : Headroom σ.shared.world)
    (halike : DecidesAlike cfg σ l) (hst : lockedStep cfg l σ = some σ') :
    atomic cfg σ' = atomic cfg σ ∨ ∃ l', Headroom (atomic cfg σ).shared ∧
      systemStep cfg l' (atomic cfg σ) = some (atomic cfg σ') := by
  cases l with
  | env a =>
    right
    obtain ⟨w', hw, rfl⟩ := Pool.step_env hst
    unfold lockedEnvStep at hw
    split at hw
    · cases hw
    · obtain ⟨w₁, henv, rfl⟩ := Option.map_eq_some_iff.mp hw
      have hsize := (keepsAccounts_envStep henv).currentSize
      refine ⟨.env a, hroom, ?_⟩
      show (envStep cfg a (σ.shared.world.withCurrentSize _)).map _ = _
      rw [envStep_withCurrentSize, henv, Option.map_some, Option.map_some]
      show some (⟨w₁.withCurrentSize _, _⟩ : System) = some ⟨w₁.withCurrentSize (charged cfg.quota
        w₁.manager.currentSize _), _⟩
      rw [hsize]
      rfl
  | call c =>
    right
    obtain rfl := Pool.step_call hst
    refine ⟨.call c, hroom, ?_⟩
    have htotal : Pool.total Caller.givenBack
        ⟨σ.shared, σ.threads ++ [⟨c.start, none⟩]⟩ = σ.total Caller.givenBack := by
      simp only [Pool.total, List.map_append, List.sum_append]
      rfl
    simp only [atomic, htotal, List.map_append]
    rfl
  | run i f =>
    obtain ⟨t, w', t', ht, hone, rfl⟩ := Pool.step_run hst
    rcases atomic_run h ht halike (callerStep_cases hone) with hsame | ⟨l', hmoved⟩
    · exact Or.inl hsame
    · exact Or.inr ⟨l', hroom, hmoved⟩

end Refine

/-- What is asked of a step of the finer system. -/
def Alike (cfg : Config) (σ : LockedSystem) (l : SystemMove) : Prop :=
  Headroom σ.shared.world ∧ DecidesAlike cfg σ l

theorem atomic_idle {σ : System} (h : InWord σ.shared) : atomic cfg (idle σ) = σ := by
  have hzero : Pool.total Caller.givenBack (idle σ) = 0 := by
    simp only [Pool.total, idle, List.map_map]
    exact List.sum_eq_zero fun n hn => by
      obtain ⟨t, _, rfl⟩ := List.mem_map.mp hn
      rfl
  unfold atomic
  rw [hzero, charged_zero (show (idle σ).shared.world.manager.currentSize < _ from h.currentSize)]
  have hthreads : (idle σ).threads.map Caller.handler = σ.threads := by
    simp only [idle, List.map_map]
    exact List.map_id σ.threads
  rw [hthreads]
  rfl

/-- When no deletion has begun, no mutex is held, and nothing is left to be made. -/
theorem idle_atomic {σ : LockedSystem} (h : LockedInv σ)
    (hidle : ∀ t ∈ σ.threads, t.deletion = none) : idle (atomic cfg σ) = σ := by
  obtain ⟨⟨w, locked⟩, threads⟩ := σ
  have hfree : locked = [] := by
    refine List.eq_nil_iff_forall_not_mem.mpr fun s hs => ?_
    obtain ⟨i, t, ht, hholds⟩ := h.exclusive.owner s hs
    rw [Caller.holds, hidle t (List.mem_of_getElem? ht)] at hholds
    cases hholds
  have hzero : Pool.total Caller.givenBack (⟨⟨w, locked⟩, threads⟩ : LockedSystem) = 0 := by
    refine List.sum_eq_zero fun n hn => ?_
    obtain ⟨t, ht, rfl⟩ := List.mem_map.mp hn
    rw [Caller.givenBack, hidle t ht, Option.elim_none]
  have hthreads : (threads.map Caller.handler).map (fun t => (⟨t, none⟩ : Caller)) = threads := by
    rw [List.map_map]
    refine (List.map_congr_left fun t ht => ?_).trans (List.map_id threads)
    show (⟨t.handler, none⟩ : Caller) = t
    rw [← hidle t ht]
  unfold idle atomic
  rw [hzero, charged_zero h.inWord.currentSize]
  dsimp only
  rw [hthreads, hfree]
  rfl

/-! ### Each step of the service is made of the finer ones -/

section Embed
variable {threads : List Caller} {h : Handler} {i s b : ℕ} {d : Deletion}

theorem alike_of_deletes {w : LockedWorld} {o : Option Deletion} (hroom : Headroom w.world)
    (ht : threads[i]? = some ⟨h, o⟩) (hdel : h.deletes = some (s, b)) :
    Alike cfg ⟨w, threads⟩ (.run i f) := by
  refine ⟨hroom, fun n hn => ?_⟩
  simp only [reservesNext, ht, Option.bind_some, reserves_of_deletes hdel, Option.map_none] at hn
  cases hn

theorem lockedStep_deletion (cfg : Config) (f : Fault) (w : LockedWorld)
    {r : World × DeletionResult} (ht : threads[i]? = some ⟨h, some d⟩) (hstep : deletionStep f d w.world = some r) :
    lockedStep cfg (.run i f) ⟨w, threads⟩ =
      some ⟨(w.continued h d.session r).1, threads.set i (w.continued h d.session r).2⟩ := by
  simp only [lockedStep, Pool.step, ht, Option.bind_some, callerStep, hstep, Option.map_some]

theorem lockedStep_enters {w : World} {r : World × DeletionResult}
    (ht : threads[i]? = some ⟨h, none⟩) (hdel : h.deletes = some (s, b))
    (hstep : enterDeletion cfg s b w = some r) :
    lockedStep cfg (.run i f) ⟨⟨w, []⟩, threads⟩ =
      some ⟨(LockedWorld.entered ⟨w, []⟩ h r).1,
        threads.set i (LockedWorld.entered ⟨w, []⟩ h r).2⟩ := by
  simp only [lockedStep, Pool.step, ht, Option.bind_some, callerStep, hdel, List.not_mem_nil,
    if_false, hstep, Option.map_some]

/-- A whole deletion, with nobody else running. -/
theorem deletion_run {w w' : World} {r : Except Exn Unit} (hroom : Headroom w)
    (ht : threads[i]? = some ⟨h, none⟩) (hdel : h.deletes = some (s, b))
    (hwhole : w.deleteBlobFile cfg s b f.deletes = some (r, w')) :
    ∃ ls, Run (lockedStep cfg) (Alike cfg) ⟨⟨w, []⟩, threads⟩ ls
      ⟨⟨w', []⟩, threads.set i ⟨h.deleted r, none⟩⟩ := by
  obtain ⟨impl, hs, he⟩ := Option.map_eq_some_iff.mp hwhole
  have hlt : i < threads.length := (List.getElem?_eq_some_iff.mp ht).1
  cases hb : impl.blobs[b]? with
  | none =>
    rw [hb] at he
    cases he
    have henter : enterDeletion cfg s b w = some (w, .returned (.ok ())) := by
      simp only [enterDeletion, hs, Option.map_some, hb]
    exact ⟨_, .cons (alike_of_deletes hroom ht hdel) (lockedStep_enters (f := f) ht hdel henter)
      (.nil _)⟩
  | some e =>
    rw [hb] at he
    dsimp only at he
    have henter : enterDeletion cfg s b w =
        some (w.giveBack cfg e.2, .inside ⟨s, b, e, .released⟩) := by
      simp only [enterDeletion, hs, Option.map_some, hb]
    have hgiven : (threads.set i ⟨h, some ⟨s, b, e, .released⟩⟩)[i]? =
        some ⟨h, some ⟨s, b, e, .released⟩⟩ := List.getElem?_set_self hlt
    have hasked : (threads.set i ⟨h, some ⟨s, b, e, .present⟩⟩)[i]? =
        some ⟨h, some ⟨s, b, e, .present⟩⟩ := List.getElem?_set_self hlt
    have hs' : (w.giveBack cfg e.2).manager.blobSessions[s]? = some impl := hs
    have hfirst : ∀ {ls : List SystemMove} {σ' : LockedSystem},
        Run (lockedStep cfg) (Alike cfg) ⟨⟨w.giveBack cfg e.2, [s]⟩,
          threads.set i ⟨h, some ⟨s, b, e, .released⟩⟩⟩ ls σ' →
        Run (lockedStep cfg) (Alike cfg) ⟨⟨w, []⟩, threads⟩ (.run i f :: ls) σ' :=
      fun hrest => .cons (alike_of_deletes hroom ht hdel) (lockedStep_enters ht hdel henter) hrest
    have hlast : ∀ {t : Caller} {pc : DeletionPc} {x : Except Exn Unit} {u : World},
        (threads.set i t)[i]? = some ⟨h, some ⟨s, b, e, pc⟩⟩ →
        deletionStep f ⟨s, b, e, pc⟩ (w.giveBack cfg e.2) = some (u, .returned x) →
        Run (lockedStep cfg) (Alike cfg) ⟨⟨w.giveBack cfg e.2, [s]⟩, threads.set i t⟩ [.run i f]
          ⟨⟨u, []⟩, threads.set i ⟨h.deleted x, none⟩⟩ := by
      intro t pc x u hthread hstep
      have hone := lockedStep_deletion cfg f ⟨w.giveBack cfg e.2, [s]⟩ hthread hstep
      simp only [LockedWorld.continued, List.erase_cons_head, List.set_set] at hone
      exact .cons (alike_of_deletes hroom hthread hdel) hone (.nil _)
    by_cases hp : w.files.present e.1 = true
    · have hp' : (w.giveBack cfg e.2).files.present e.1 = true := hp
      by_cases hexists : f = .existsThrows
      · subst hexists
        cases he
        refine ⟨_, hfirst (hlast hgiven ?_)⟩
        simp only [deletionStep, hs', Option.map_some, if_true]
        rfl
      · have hthird : Run (lockedStep cfg) (Alike cfg) ⟨⟨w.giveBack cfg e.2, [s]⟩,
            threads.set i ⟨h, some ⟨s, b, e, .present⟩⟩⟩ [.run i f]
            ⟨⟨w', []⟩, threads.set i ⟨h.deleted r, none⟩⟩ := by
          refine hlast hasked ?_
          simp only [deletionStep, hs', Option.map_some, hp', if_true]
          by_cases hremove : f = .removeThrows
          · subst hremove
            rw [show Fault.deletes .removeThrows = .removeThrows from rfl, hp] at he
            cases he
            rfl
          · have hsucceeds : f.deletes = .succeeds := by
              cases f <;> first | rfl | contradiction
            rw [hsucceeds, hp] at he
            cases he
            rw [if_neg hremove]
            rfl
        have hsays : deletionStep f ⟨s, b, e, .released⟩ (w.giveBack cfg e.2) =
            some (w.giveBack cfg e.2, .inside ⟨s, b, e, .present⟩) := by
          simp only [deletionStep, hs', Option.map_some, if_neg hexists, hp', if_true]
        have hsecond := lockedStep_deletion cfg f ⟨w.giveBack cfg e.2, [s]⟩ hgiven hsays
        simp only [LockedWorld.continued, List.set_set] at hsecond
        exact ⟨_, hfirst (.cons (alike_of_deletes hroom hgiven hdel) hsecond hthird)⟩
    · rw [Bool.not_eq_true] at hp
      have hp' : (w.giveBack cfg e.2).files.present e.1 = false := hp
      refine ⟨_, hfirst (hlast hgiven ?_)⟩
      simp only [deletionStep, hs', Option.map_some, hp']
      by_cases hexists : f = .existsThrows
      · subst hexists
        cases he
        rfl
      · rw [if_neg hexists]
        rw [hp] at he
        cases f <;> first | contradiction | (cases he; rfl)

theorem embed_step {σ σ' : System} {l : SystemMove} (hroom : Headroom σ.shared)
    (hword : InWord σ.shared) (hst : systemStep cfg l σ = some σ') :
    ∃ ls, Run (lockedStep cfg) (Alike cfg) (idle σ) ls (idle σ') := by
  have halike : ∀ m, Alike cfg (idle σ) m := by
    intro m
    refine ⟨hroom, fun n _ => ?_⟩
    rw [atomic_idle hword]
    rfl
  cases l with
  | env a =>
    obtain ⟨w, hw, rfl⟩ := Pool.step_env hst
    have hone : lockedStep cfg (.env a) (idle σ) = some (idle ⟨w, σ.threads⟩) := by
      show (lockedEnvStep cfg a ⟨σ.shared, []⟩).map _ = _
      simp only [lockedEnvStep, hw]
      cases a.locks <;> rfl
    exact ⟨_, .cons (halike _) hone (.nil _)⟩
  | call c =>
    obtain rfl := Pool.step_call hst
    have hone : lockedStep cfg (.call c) (idle σ) =
        some (idle ⟨σ.shared, σ.threads ++ [c.start]⟩) := by
      simp only [lockedStep, Pool.step, idle, List.map_append]
      rfl
    exact ⟨_, .cons (halike _) hone (.nil _)⟩
  | run i f =>
    obtain ⟨t, w, t', ht, hstep, rfl⟩ := Pool.step_run hst
    have hthread : (idle σ).threads[i]? = some ⟨t, none⟩ := by
      show (σ.threads.map _)[i]? = _
      rw [List.getElem?_map, ht, Option.map_some]
    have hset : idle ⟨w, σ.threads.set i t'⟩ =
        ⟨⟨w, []⟩, (idle σ).threads.set i ⟨t', none⟩⟩ := by
      unfold idle
      rw [List.map_set]
    cases hdel : t.deletes with
    | none =>
      have hone : lockedStep cfg (.run i f) (idle σ) =
          some ⟨⟨w, []⟩, (idle σ).threads.set i ⟨t', none⟩⟩ := by
        show ((idle σ).threads[i]?).bind _ = _
        have hcaller : callerStep cfg f (idle σ).shared ⟨t, none⟩ =
            some (⟨w, []⟩, ⟨t', none⟩) := by
          simp only [callerStep, hdel, idle, hstep]
          cases t.locks <;> rfl
        rw [hthread, Option.bind_some, hcaller]
        rfl
      rw [hset]
      exact ⟨_, .cons (halike _) hone (.nil _)⟩
    | some x =>
      obtain ⟨s, b⟩ := x
      rw [handlerStep_deletes cfg f σ.shared hdel] at hstep
      obtain ⟨⟨r, w₁⟩, hwhole, he⟩ := Option.map_eq_some_iff.mp hstep
      cases he
      rw [hset]
      exact deletion_run hroom hthread hdel hwhole

end Embed

/-! ### Every run -/

section Runs
variable {σ₀ : System} {σ : LockedSystem} {ls : List SystemMove}

theorem lockedInv_alike (h₀ : Initial cfg σ₀)
    (hrun : Run (lockedStep cfg) (Alike cfg) (idle σ₀) ls σ) : LockedInv σ :=
  lockedInv_start h₀ (fun _ _ hok => hok.1) hrun

theorem atomic_refines (h₀ : Initial cfg σ₀)
    (hrun : Run (lockedStep cfg) (Alike cfg) (idle σ₀) ls σ) :
    ∃ ls', Run (systemStep cfg) (fun σ _ => Headroom σ.shared) σ₀ ls' (atomic cfg σ) := by
  have hcarried := hrun.carry LockedInv
    (fun σ l σ' h hok hst => lockedInv_step h hok.1 hst) (lockedInv_initial h₀)
  obtain ⟨ls', hrun'⟩ : ∃ ls', Run (systemStep cfg) (fun σ _ => Headroom σ.shared)
      (atomic cfg (idle σ₀)) ls' (atomic cfg σ) :=
    hcarried.refine (atomic cfg)
      fun σ l σ' hok hst => atomic_step hok.2 hok.1.1 hok.1.2 hst
  rw [atomic_idle (inWord_constructed h₀.1)] at hrun'
  exact ⟨ls', hrun'⟩

theorem atomic_embeds {σ : System} (h₀ : Initial cfg σ₀)
    (hrun : Run (systemStep cfg) (fun σ _ => Headroom σ.shared) σ₀ ls σ) :
    ∃ ls', Run (lockedStep cfg) (Alike cfg) (idle σ₀) ls' (idle σ) := by
  have hword : ∀ σ l σ', InWord σ.shared → Headroom σ.shared → systemStep cfg l σ = some σ' →
      InWord σ'.shared := by
    intro σ l σ' hσ hroom hst
    have hone : Run (systemStep cfg) (fun σ _ => Headroom σ.shared) σ [l] σ' :=
      .cons hroom hst (.nil σ')
    exact inWord_run hone hσ
  exact (hrun.carry _ hword (inWord_constructed h₀.1)).embed idle
    fun σ l σ' hok hst => embed_step hok.1 hok.2 hst

/-- In every run that decides its reservations alike, the finer system stands for a state
that the service comes to with whole deletions, and a mutex is held by one handler at a
time. When no deletion is under way the two states are the same. -/
theorem deletions_atomic (h₀ : Initial cfg σ₀)
    (hrun : Run (lockedStep cfg) (Alike cfg) (idle σ₀) ls σ) :
    (∃ ls', Run (systemStep cfg) (fun σ _ => Headroom σ.shared) σ₀ ls' (atomic cfg σ)) ∧
      Exclusive Caller.holds σ.shared.locked σ.threads ∧
      ((∀ t ∈ σ.threads, t.deletion = none) → idle (atomic cfg σ) = σ) := by
  have hinv := lockedInv_alike h₀ hrun
  exact ⟨atomic_refines h₀ hrun, hinv.exclusive, idle_atomic hinv⟩

theorem deletions_atomic_uploadInDeletion : ∃ (σ : LockedSystem) (ls' : List SystemMove),
    σ.shared.locked = [1] ∧ σ.shared.world.manager.currentSize = 2 ∧
    Run (systemStep smallConfig) (fun σ _ => Headroom σ.shared) smallStart ls'
      (atomic smallConfig σ) ∧
    (atomic smallConfig σ).shared.manager.currentSize = 10 := by
  obtain ⟨σ, hσ, hend⟩ := (Option.any_eq_true (fun σ : LockedSystem =>
      decide (σ.shared.locked = [1]) && decide (σ.shared.world.manager.currentSize = 2) &&
      decide ((atomic smallConfig σ).shared.manager.currentSize = 10)) _).mp
    (by decide : (exec (lockedStep smallConfig)
      (fun σ l => decide (Headroom σ.shared.world) && decide (DecidesAlike smallConfig σ l))
      (uploadInDeletion 2) (idle smallStart)).any _ = true)
  simp only [Bool.and_eq_true, decide_eq_true_eq] at hend
  obtain ⟨⟨hlocked, hsize⟩, hatomic⟩ := hend
  have hrun : Run (lockedStep smallConfig) (Alike smallConfig) (idle smallStart)
      (uploadInDeletion 2) σ := .of_exec hσ fun _ _ _ hc => by
    obtain ⟨hroom, halike⟩ := Bool.and_eq_true_iff.mp hc
    exact ⟨of_decide_eq_true hroom, of_decide_eq_true halike⟩
  obtain ⟨⟨ls', hrun'⟩, _⟩ := deletions_atomic smallStart_initial hrun
  exact ⟨σ, ls', hlocked, hsize, hrun', hatomic⟩

/-- With eight bytes the upload is granted because of the deletion that is under way, and
the tables record more than the quota, as they do in no run with whole deletions. -/
theorem deletion_overlaps_upload : ∃ σ : LockedSystem,
    exec (lockedStep smallConfig) (fun σ _ => decide (Headroom σ.shared.world))
      (uploadInDeletion 8) (idle smallStart) = some σ ∧
    σ.shared.world.manager.currentSize = 8 ∧
    σ.shared.world.manager.recordedTotal = 16 ∧ smallConfig.quota = 10 := by
  obtain ⟨σ, hσ, hend⟩ := (Option.any_eq_true (fun σ : LockedSystem =>
      decide (σ.shared.world.manager.currentSize = 8) &&
      decide (σ.shared.world.manager.recordedTotal = 16)) _).mp
    (by decide : (exec (lockedStep smallConfig) (fun σ _ => decide (Headroom σ.shared.world))
      (uploadInDeletion 8) (idle smallStart)).any _ = true)
  obtain ⟨hsize, htotal⟩ := Bool.and_eq_true_iff.mp hend
  exact ⟨σ, hσ, of_decide_eq_true hsize, of_decide_eq_true htotal, rfl⟩

/-- Between deletions the finer system comes to exactly the states of the service. -/
theorem atomic_runs_iff (h₀ : Initial cfg σ₀) (σ : System) :
    (∃ ls, Run (lockedStep cfg) (Alike cfg) (idle σ₀) ls (idle σ)) ↔
      ∃ ls, Run (systemStep cfg) (fun σ _ => Headroom σ.shared) σ₀ ls σ := by
  constructor
  · intro ⟨ls, hrun⟩
    have hsame : atomic cfg (idle σ) = σ := atomic_idle (lockedInv_alike h₀ hrun).inWord
    rw [← hsame]
    exact atomic_refines h₀ hrun
  · intro ⟨ls, hrun⟩
    exact atomic_embeds h₀ hrun

theorem atomic_runs_iff_uploadInDeletion : ∃ ls σ,
    Run (lockedStep smallConfig) (Alike smallConfig) (idle smallStart) ls (idle σ) ∧
      σ.shared.manager.currentSize = 2 := by
  obtain ⟨σ, hσ, hend⟩ := (Option.any_eq_true (fun σ : System =>
      decide (σ.shared.manager.currentSize = 2)) _).mp
    (by decide : (runs smallConfig (uploadInDeletion 2) smallStart).any _ = true)
  have hrun : Run (systemStep smallConfig) (fun σ _ => Headroom σ.shared) smallStart
      (uploadInDeletion 2) σ := .of_exec hσ fun _ _ _ hc => of_decide_eq_true hc
  obtain ⟨ls, hfine⟩ := (atomic_runs_iff smallStart_initial σ).mpr ⟨_, hrun⟩
  exact ⟨ls, σ, hfine, of_decide_eq_true hend⟩

end Runs

end BlobRelay
