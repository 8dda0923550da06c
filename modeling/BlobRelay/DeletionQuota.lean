import BlobRelay.DeletionMutex
import BlobRelay.QuotaSafety

/-! # The quota while deletions are under way

A deletion gives its size back before the file and the entry are gone, so the tables can
record more than the counter says: by what the deletions under way have given back, and
by no more than that. -/

namespace BlobRelay
open Foundation Foundation.FileStore Foundation.OrderedMap Foundation.Mutex

/-- The moves of a run in which no chunk comes near 2^64, no call of the file system inside
`delete_blob_file` throws, and no session is erased while its mutex is held. -/
def QuotaSteps (cfg : Config) (σ : LockedSystem) : SystemMove → Prop
  | .call (.put messages) => ChunksFit cfg messages
  | .run i f => ∀ t ∈ σ.threads[i]?, (t.handler.deletes ≠ none → f.deletes = .succeeds) ∧
      ∀ s ∈ t.handler.erases, s ∉ σ.shared.locked
  | _ => True

structure QuotaStepsInv (cfg : Config) (σ : LockedSystem) : Prop where
  locked : LockedInv σ
  live : ∀ t ∈ σ.threads, ∀ d, t.deletion = some d → σ.shared.world.manager.Live d.session
  chunks : ∀ t ∈ σ.threads, ChunksFit cfg t.handler.pending
  recorded : σ.shared.world.manager.recordedTotal ≤
    σ.shared.world.manager.currentSize + σ.total Caller.givenBack
  quota : σ.shared.world.manager.currentSize ≤ cfg.quota

variable {cfg : Config} {f : Fault} {w w' : World} {σ σ' : LockedSystem} {l : SystemMove}
  {i s b : ℕ} {e : Path × ℕ} {t t' : Caller}

/-! ### What is under deletion is recorded -/

theorem givenBack_eq_sum (threads : List Caller) : (threads.map Caller.givenBack).sum =
    ((threads.filterMap Caller.deletion).map fun d => d.entry.2).sum := by
  induction threads with
  | nil => rfl
  | cons t threads ih =>
    rw [List.map_cons, List.sum_cons, ih, Caller.givenBack]
    cases hd : t.deletion with
    | none => rw [Option.elim_none, Nat.zero_add, List.filterMap_cons_none hd]
    | some d =>
      rw [Option.elim_some, List.filterMap_cons_some hd, List.map_cons, List.sum_cons]

theorem Entry.size_le_weight (he : w.manager.Entry s b e) :
    e.2 ≤ weight BlobSessionImpl.recordedSize w.manager.blobSessions[s]? := by
  obtain ⟨impl, hs, hb⟩ := he
  have hle := weight_le_total Prod.snd impl.blobs b
  rw [hb, weight_some] at hle
  rw [hs, weight_some]
  exact hle

/-- Deletions hold different mutexes, so their sizes are parts of the total, and so is that
of an entry whose session is not locked. -/
theorem givenBack_le_recorded (h : QuotaStepsInv cfg σ) (hfree : s ∉ σ.shared.locked)
    (he : σ.shared.world.manager.Entry s b e) :
    σ.total Caller.givenBack + e.2 ≤ σ.shared.world.manager.recordedTotal := by
  let xs := (σ.threads.filterMap Caller.deletion).map fun d => (d.session, d.entry.2)
  obtain ⟨hnodup, hlocked⟩ := h.locked.exclusive.held
  have hheld : σ.threads.filterMap Caller.holds = xs.map Prod.fst := by
    rw [List.map_map]
    show σ.threads.filterMap (fun t => t.deletion.map Deletion.session) = _
    rw [← List.map_filterMap]
    rfl
  have hkeys : (((s, e.2) :: xs).map Prod.fst).Nodup := by
    rw [List.map_cons, List.nodup_cons, ← hheld]
    exact ⟨fun hs => hfree (hlocked s hs), hnodup⟩
  have hle : ∀ x ∈ (s, e.2) :: xs, x.2 ≤ weight BlobSessionImpl.recordedSize
      σ.shared.world.manager.blobSessions[x.1]? := by
    intro x hx
    rcases List.mem_cons.mp hx with rfl | hx
    · exact Entry.size_le_weight he
    · obtain ⟨d, hd, rfl⟩ := List.mem_map.mp hx
      obtain ⟨t, ht, hdel⟩ := List.mem_filterMap.mp hd
      obtain ⟨i, hi⟩ := List.mem_iff_getElem?.mp ht
      exact Entry.size_le_weight ((h.locked.stands i t d hi hdel).entry (h.live t ht d hdel))
  have hsum := sum_le_total BlobSessionImpl.recordedSize _ _ hkeys hle
  have htotal : σ.total Caller.givenBack = (xs.map Prod.snd).sum := by
    rw [Pool.total, givenBack_eq_sum, List.map_map]
    rfl
  rw [List.map_cons, List.sum_cons] at hsum
  rw [htotal, Nat.add_comm]
  exact hsum

/-- Giving a size back at the start of a deletion does not take the counter below zero. -/
theorem giveBack_recorded (hq : cfg.quota ≠ 0) (hlt : cfg.quota < 2^64) (h : QuotaStepsInv cfg σ)
    (hfree : s ∉ σ.shared.locked) (he : σ.shared.world.manager.Entry s b e) :
    release cfg.quota e.2 σ.shared.world.manager.currentSize + e.2 =
      σ.shared.world.manager.currentSize := by
  have hpart := givenBack_le_recorded h hfree he
  have hcover := h.recorded
  rw [release_recorded hq hlt h.quota (by omega)]
  omega

/-! ### One step -/

theorem recordedTotal_eraseEntry (cfg : Config) (he : w.manager.Entry s b e) :
    (w.eraseEntry s b).manager.recordedTotal + e.2 = w.manager.recordedTotal := by
  obtain ⟨impl, hs, hb⟩ := he
  exact (World.erases_erase cfg hs hb).recorded

/-- The counter and the total, when a handler books as it does with whole deletions. -/
theorem covered_books {m : ℕ} (hq : cfg.quota ≠ 0) {u : Handler} (hdel : u.deletes = none)
    (hfit : ∀ x ∈ u.reserves, cfg.quota + x.2.2 < 2^64)
    (hle : w.manager.recordedTotal ≤ w.manager.currentSize + m)
    (hquota : w.manager.currentSize ≤ cfg.quota) (hb : Books cfg f u w w') :
    w'.manager.recordedTotal ≤ w'.manager.currentSize + m ∧
      w'.manager.currentSize ≤ cfg.quota := by
  cases hb with
  | nothing _ _ _ hk =>
    rw [hk.recorded, hk.currentSize]
    exact ⟨hle, hquota⟩
  | @reserves _ _ n _ _ _ ht hres hm =>
    rw [hm]
    rcases World.reserveSessionStore_cases hres with
      ⟨_, rfl, _⟩ | ⟨e, _, hch⟩ | ⟨_, _, _, hgranted, rfl⟩
    · exact ⟨hle, hquota⟩
    · obtain ⟨hcur, hbound⟩ := reserve_granted hq hquota (hfit _ ht) hch.reserved
      have hadd : add64 e.2 n ≤ e.2 + n := Nat.mod_le _ _
      have hrec := hch.recorded
      dsimp only at hcur hbound
      rw [hch.currentSize, hcur]
      exact ⟨by omega, hbound⟩
    · obtain ⟨hcur, hbound⟩ := reserve_granted hq hquota (hfit _ ht) hgranted
      dsimp only at hcur hbound ⊢
      rw [hcur]
      exact ⟨hle.trans (by omega), hbound⟩
  | deletes ht => cases hdel.symm.trans ht
  | @erases s _ =>
    have hrec := BlobSessionManager.recordedTotal_dispose (m := w.manager) (s := s)
    dsimp only
    rw [BlobSessionManager.currentSize_dispose]
    exact ⟨by omega, hquota⟩

theorem QuotaStepsInv.live_set {w' : World} (h : QuotaStepsInv cfg σ)
    (hothers : ∀ t ∈ σ.threads, ∀ d, t.deletion = some d →
      σ.shared.world.manager.Live d.session → w'.manager.Live d.session)
    (hown : ∀ d, t'.deletion = some d → w'.manager.Live d.session) :
    ∀ u ∈ σ.threads.set i t', ∀ d, u.deletion = some d → w'.manager.Live d.session := by
  intro u hu d hd
  rcases List.mem_or_eq_of_mem_set hu with hu | rfl
  · exact hothers u hu d hd (h.live u hu d hd)
  · exact hown d hd

theorem QuotaStepsInv.live_left {w' : World} (h : QuotaStepsInv cfg σ)
    (hothers : ∀ t ∈ σ.threads, ∀ d, t.deletion = some d →
      σ.shared.world.manager.Live d.session → w'.manager.Live d.session)
    (hown : t'.deletion = none) :
    ∀ u ∈ σ.threads.set i t', ∀ d, u.deletion = some d → w'.manager.Live d.session := by
  apply h.live_set hothers
  intro d hd
  rw [hown] at hd
  cases hd

theorem QuotaStepsInv.chunks_set (h : QuotaStepsInv cfg σ)
    (hown : ChunksFit cfg t'.handler.pending) :
    ∀ u ∈ σ.threads.set i t', ChunksFit cfg u.handler.pending := by
  intro u hu
  rcases List.mem_or_eq_of_mem_set hu with hu | rfl
  · exact h.chunks u hu
  · exact hown

theorem pending_deleted (r : Except Exn Unit) (u : Handler) :
    ∀ m ∈ (u.deleted r).pending, m ∈ u.pending := by
  intro m hm
  unfold Handler.deleted at hm
  split at hm
  · cases hm
  · exact hm
  · exact hm
  · exact hm

theorem quotaStepsInv_run {w' : LockedWorld} (hq : cfg.quota ≠ 0) (hlt : cfg.quota < 2^64)
    (h : QuotaStepsInv cfg σ) (ht : σ.threads[i]? = some t)
    (hok : QuotaSteps cfg σ (.run i f)) (hst : CallerStepped cfg f σ.shared t w' t') :
    QuotaStepsInv cfg ⟨w', σ.threads.set i t'⟩ := by
  have hlocked := lockedInv_run h.locked ht hst
  have hmem := List.mem_of_getElem? ht
  have hfit := h.chunks t hmem
  obtain ⟨hdeletes, herases⟩ := hok t ht
  have htotal := Pool.total_run Caller.givenBack ht w' t'
  have hcover := h.recorded
  cases hst with
  | @whole w₁ t₁ hnone hdel hfree hstep =>
    have hzero : t.givenBack = 0 := by rw [Caller.givenBack, hnone, Option.elim_none]
    have hnext := covered_books hq hdel (chunksFit_reserves hfit) hcover h.quota
      (handlerStep_books hstep)
    have hkept : ∀ u ∈ σ.threads, ∀ d, u.deletion = some d →
        σ.shared.world.manager.Live d.session → w₁.manager.Live d.session := by
      intro u hu d hd hs
      rcases handlerStep_sessions hstep with ⟨_, hkeep⟩ | ⟨r, her, hm⟩
      · exact (hkeep.live _).mpr hs
      · obtain ⟨j, hj⟩ := List.mem_iff_getElem?.mp hu
        have hheld := h.locked.exclusive.locked j u d.session hj
          (by rw [Caller.holds, hd, Option.map_some])
        rw [hm]
        exact BlobSessionManager.live_dispose.mpr ⟨hs, fun heq => herases r her (heq ▸ hheld)⟩
    refine ⟨hlocked, h.live_left hkept rfl, h.chunks_set ?_, ?_, hnext.2⟩
    · exact fun bytes hb => hfit bytes (pending_handlerStep hstep _ hb)
    · rw [hzero] at htotal
      exact hnext.1.trans (Nat.add_le_add_left (ge_of_eq htotal) _)
  | nothing hnone hdel hsame =>
    have hzero : t.givenBack = 0 := by rw [Caller.givenBack, hnone, Option.elim_none]
    refine ⟨hlocked, h.live_left (fun _ _ _ _ hs => hs) rfl, h.chunks_set ?_, ?_, h.quota⟩
    · exact fun bytes hb => hfit bytes (pending_deleted (.ok ()) t.handler _ hb)
    · rw [hzero] at htotal
      exact hcover.trans (Nat.add_le_add_left (ge_of_eq htotal) _)
  | @entered s b e hnone hdel hfree he =>
    have hzero : t.givenBack = 0 := by rw [Caller.givenBack, hnone, Option.elim_none]
    have hback := giveBack_recorded hq hlt h hfree he
    refine ⟨hlocked, h.live_set (fun _ _ _ _ hs => hs) (fun d hd => ?_), h.chunks_set hfit, ?_, ?_⟩
    · obtain rfl := Option.some.inj hd
      exact he.live
    · rw [hzero] at htotal
      have hone : Pool.total Caller.givenBack (⟨_, σ.threads.set i _⟩ : LockedSystem) =
        σ.total Caller.givenBack + e.2 := htotal
      rw [hone]
      show σ.shared.world.manager.recordedTotal ≤ release cfg.quota e.2 _ + _
      omega
    · have hquota := h.quota
      show release cfg.quota e.2 _ ≤ _
      omega
  | @asked d hd _ =>
    have hsame : t.givenBack = (⟨t.handler, some {d with pc := .present}⟩ : Caller).givenBack := by
      rw [Caller.givenBack, hd]
      rfl
    rw [hsame] at htotal
    refine ⟨hlocked, h.live_set (fun _ _ _ _ hs => hs) (fun d' hd' => ?_), h.chunks_set hfit, ?_,
      h.quota⟩
    · obtain rfl := Option.some.inj hd'
      exact h.live t hmem d hd
    · exact hcover.trans (Nat.add_le_add_left (ge_of_eq (Nat.add_right_cancel htotal)) _)
  | @ended d r w₁ g hd hlive hwhole hw =>
    have hstands := h.locked.stands i t d ht hd
    have hsucceeds : f.deletes = .succeeds := hdeletes (by rw [hstands.deletes]; exact Option.some_ne_none _)
    obtain ⟨fs, rfl⟩ : ∃ fs, w₁ = {σ.shared.world.eraseEntry d.session d.blobId with files := fs} := by
      rcases hw with ⟨_, hne⟩ | hw
      · exact absurd hsucceeds hne
      · exact hw
    have hgiven : t.givenBack = d.entry.2 := by rw [Caller.givenBack, hd, Option.elim_some]
    have hrec := recordedTotal_eraseEntry cfg (hstands.entry hlive)
    refine ⟨hlocked, h.live_left (fun _ _ _ _ hs => (live_eraseEntry _ _ _).mpr hs) rfl,
      h.chunks_set (fun bytes hb => hfit bytes (pending_deleted r t.handler _ hb)), ?_, h.quota⟩
    rw [hgiven] at htotal
    have hone : Pool.total Caller.givenBack (⟨_, σ.threads.set i _⟩ : LockedSystem) + d.entry.2 =
      σ.total Caller.givenBack := htotal
    show (σ.shared.world.eraseEntry d.session d.blobId).manager.recordedTotal ≤
      σ.shared.world.manager.currentSize + _
    omega

theorem quotaStepsInv_step (hq : cfg.quota ≠ 0) (hlt : cfg.quota < 2^64)
    (h : QuotaStepsInv cfg σ) (hroom : Headroom σ.shared.world) (hok : QuotaSteps cfg σ l)
    (hst : lockedStep cfg l σ = some σ') : QuotaStepsInv cfg σ' := by
  have hlocked := lockedInv_step h.locked hroom hst
  cases l with
  | env a =>
    obtain ⟨w', hw, rfl⟩ := Pool.step_env hst
    unfold lockedEnvStep at hw
    split at hw
    · cases hw
    · obtain ⟨w₁, henv, rfl⟩ := Option.map_eq_some_iff.mp hw
      have hk := keepsAccounts_envStep henv
      have hlive : ∀ s, σ.shared.world.manager.Live s → w₁.manager.Live s := fun s hs => by
        rcases envStep_sessions henv with ⟨u, _, hm⟩ | ⟨_, hkeep⟩
        · rw [hm]
          exact (BlobSessionManager.live_createSession u).mpr (Or.inl hs)
        · exact (hkeep.live s).mpr hs
      refine ⟨hlocked, fun t ht d hd => hlive _ (h.live t ht d hd), h.chunks, ?_, ?_⟩
      · show w₁.manager.recordedTotal ≤ w₁.manager.currentSize + σ.total Caller.givenBack
        rw [hk.recorded, hk.currentSize]
        exact h.recorded
      · show w₁.manager.currentSize ≤ cfg.quota
        rw [hk.currentSize]
        exact h.quota
  | call c =>
    obtain rfl := Pool.step_call hst
    have htotal : Pool.total Caller.givenBack
        (⟨σ.shared, σ.threads ++ [⟨c.start, none⟩]⟩ : LockedSystem) =
          σ.total Caller.givenBack := by
      simp only [Pool.total, List.map_append, List.sum_append]
      rfl
    refine ⟨hlocked, fun t ht d hd => ?_, fun t ht => ?_, htotal ▸ h.recorded, h.quota⟩
    · rcases List.mem_append.mp ht with ht | ht
      · exact h.live t ht d hd
      · rw [List.mem_singleton.mp ht] at hd
        cases hd
    · rcases List.mem_append.mp ht with ht | ht
      · exact h.chunks t ht
      · rw [List.mem_singleton.mp ht]
        cases c with
        | put messages => exact hok
        | get request => exact nofun
        | remove s ids => exact nofun
        | dispose s => exact nofun
  | run i f =>
    obtain ⟨t, w', t', ht, hone, rfl⟩ := Pool.step_run hst
    exact quotaStepsInv_run hq hlt h ht hok (callerStep_cases hone)

theorem quotaStepsInv_initial {σ₀ : System} (h₀ : Initial cfg σ₀) :
    QuotaStepsInv cfg (idle σ₀) := by
  have hnone : (idle σ₀).threads = [] := by
    unfold idle
    rw [h₀.2]
    rfl
  have htotal : BlobSessionManager.empty.recordedTotal = 0 :=
    OrderedMap.total_empty BlobSessionImpl.recordedSize
  refine ⟨lockedInv_initial h₀, ?_, ?_, ?_, ?_⟩
  · rw [hnone]
    exact nofun
  · rw [hnone]
    exact nofun
  · show σ₀.shared.manager.recordedTotal ≤ _
    rw [h₀.1.manager, htotal]
    exact Nat.zero_le _
  · show σ₀.shared.manager.currentSize ≤ _
    rw [h₀.1.manager]
    exact Nat.zero_le _

/-- With the counter and the table of a deletion updated in separate steps, what the
sessions record is within the quota but for the deletions under way, and still no size
that is given back takes the counter below zero. -/
theorem quota_safety_in_steps {σ₀ : System} {ls : List SystemMove} (hq : cfg.quota ≠ 0)
    (hlt : cfg.quota < 2^64) (h₀ : Initial cfg σ₀)
    (hrun : Run (lockedStep cfg) (fun σ l => Headroom σ.shared.world ∧ QuotaSteps cfg σ l)
      (idle σ₀) ls σ) :
    σ.shared.world.manager.recordedTotal ≤
        σ.shared.world.manager.currentSize + σ.total Caller.givenBack ∧
      σ.shared.world.manager.currentSize ≤ cfg.quota ∧
      ∀ s b e, s ∉ σ.shared.locked → σ.shared.world.manager.Entry s b e →
        release cfg.quota e.2 σ.shared.world.manager.currentSize + e.2 =
          σ.shared.world.manager.currentSize := by
  have hinv : QuotaStepsInv cfg σ := hrun.invariant (QuotaStepsInv cfg)
    (fun _ _ _ h hok hst => quotaStepsInv_step hq hlt h hok.1 hok.2 hst)
    (quotaStepsInv_initial h₀)
  exact ⟨hinv.recorded, hinv.quota, fun s b e hfree he => giveBack_recorded hq hlt hinv hfree he⟩

/-- The bound is met: ten bytes of quota, sixteen recorded, eight of them under deletion. -/
theorem quota_safety_in_steps_uploadInDeletion : ∃ σ : LockedSystem,
    Run (lockedStep smallConfig)
      (fun σ l => Headroom σ.shared.world ∧ QuotaSteps smallConfig σ l) (idle smallStart)
      (uploadInDeletion 8) σ ∧
    σ.shared.world.manager.recordedTotal = 16 ∧ σ.total Caller.givenBack = 8 ∧
    16 ≤ σ.shared.world.manager.currentSize + 8 := by
  obtain ⟨σ, hσ, hend⟩ := (Option.any_eq_true (fun σ : LockedSystem =>
      decide (σ.shared.world.manager.recordedTotal = 16) &&
      decide (σ.total Caller.givenBack = 8)) _).mp
    (by decide : (exec (lockedStep smallConfig) (fun σ _ => decide (Headroom σ.shared.world) &&
        σ.threads.all fun t => t.handler.erases.isNone)
      (uploadInDeletion 8) (idle smallStart)).any _ = true)
  simp only [Bool.and_eq_true, decide_eq_true_eq] at hend
  obtain ⟨hrecorded, hgiven⟩ := hend
  have hrun : Run (lockedStep smallConfig)
      (fun σ l => Headroom σ.shared.world ∧ QuotaSteps smallConfig σ l) (idle smallStart)
      (uploadInDeletion 8) σ := by
    refine .of_exec hσ fun σ l hl hc => ?_
    obtain ⟨hroom, herases⟩ := Bool.and_eq_true_iff.mp hc
    refine ⟨of_decide_eq_true hroom, ?_⟩
    have hstep : ∀ i, QuotaSteps smallConfig σ (.run i .none) := by
      intro i t ht
      have hnone := List.all_eq_true.mp herases t (List.mem_of_getElem? ht)
      refine ⟨fun _ => rfl, fun s hs => ?_⟩
      rw [Option.mem_def.mp hs] at hnone
      cases hnone
    have hcall : ∀ s n, n < 2^63 → QuotaSteps smallConfig σ
        (.call (.put [.metadata ⟨1, s, none⟩, .chunk (List.replicate n 0)])) := by
      intro s n hn bytes hb
      simp only [List.mem_cons, reduceCtorEq, List.not_mem_nil, or_false, false_or,
        PutStreamingRequest.chunk.injEq] at hb
      rw [hb, List.length_replicate]
      show 10 + n < 2^64
      omega
    simp only [uploadInDeletion, List.mem_append, List.mem_cons, List.not_mem_nil, or_false,
      List.mem_replicate] at hl
    rcases hl with (((rfl | rfl | rfl) | ⟨_, rfl⟩) | rfl | rfl | rfl | rfl) | ⟨_, rfl⟩
    · trivial
    · trivial
    · exact hcall 1 8 (by norm_num)
    · exact hstep 0
    · trivial
    · exact hstep 1
    · exact hstep 1
    · exact hcall 2 8 (by norm_num)
    · exact hstep 2
  have hsafe := (quota_safety_in_steps (by decide) (by decide) smallStart_initial hrun).1
  rw [hrecorded, hgiven] at hsafe
  exact ⟨σ, hrun, hrecorded, hgiven, hsafe⟩

end BlobRelay
