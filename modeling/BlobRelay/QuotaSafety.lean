import BlobRelay.Accounts

/-! # The quota under any interleaving

The recorded sizes never add up to more than the usage counter, and the counter
never passes the quota. The first is an inequality: a reservation whose entry has
gone is charged and not recorded, and erasing a session drops its entries while
the counter stays. -/

namespace BlobRelay
open Foundation Foundation.FileStore

def WithinQuota (cfg : Config) (w : World) : Prop :=
  w.manager.recordedTotal ≤ w.manager.currentSize ∧ w.manager.currentSize ≤ cfg.quota

def PutPc.pending (messages : List PutStreamingRequest) : PutPc → List PutStreamingRequest
  | .called => messages
  | .located _ _ rest => rest
  | .created _ rest => rest
  | .receiving _ _ _ rest => rest
  | _ => []

def Handler.pending : Handler → List PutStreamingRequest
  | .put messages pc => pc.pending messages
  | _ => []

def ChunksFit (cfg : Config) (messages : List PutStreamingRequest) : Prop :=
  ∀ bytes : Bytes, .chunk bytes ∈ messages → cfg.quota + bytes.length < 2^64

/-- The moves of a run in which no chunk comes near 2^64 and no file-system call
inside `delete_blob_file` throws. -/
def QuotaMove (cfg : Config) (σ : System) : SystemMove → Prop
  | .call (.put messages) => ChunksFit cfg messages
  | .run i f => ∀ t, σ.threads[i]? = some t → t.deletes ≠ none → f.deletes = .succeeds
  | _ => True

variable {cfg : Config} {w w' : World}

/-! ### The counter -/

theorem reserve_granted {quota size cur : ℕ} (hq : quota ≠ 0) (hcur : cur ≤ quota)
    (hfit : quota + size < 2^64) (h : (reserve quota size cur).1 = true) :
    (reserve quota size cur).2 = cur + size ∧ cur + size ≤ quota := by
  obtain ⟨hle, hcharged⟩ := reserve_charges hq h
  rw [add64_of_lt (by omega)] at hle hcharged
  exact ⟨hcharged, by omega⟩

theorem release_recorded {quota size cur : ℕ} (hq : quota ≠ 0) (hlt : quota < 2^64)
    (hcur : cur ≤ quota) (hsize : size ≤ cur) : release quota size cur = cur - size := by
  unfold release
  rw [if_pos hq]
  exact sub64_of_le (by omega) hsize

/-! ### One step -/

theorem withinQuota_charges (hq : cfg.quota ≠ 0) {s b size : ℕ} {e : Path × ℕ}
    (hfit : cfg.quota + size < 2^64) (h : WithinQuota cfg w)
    (hch : World.Charges cfg s b size e w w') : WithinQuota cfg w' := by
  obtain ⟨hle, hquota⟩ := h
  obtain ⟨hcur, hbound⟩ := reserve_granted hq hquota hfit hch.reserved
  have he := hch.found.size_le
  have hrec := hch.recorded
  rw [add64_of_lt (by omega)] at hrec
  refine ⟨?_, ?_⟩
  · rw [hch.currentSize, hcur]
    omega
  · rw [hch.currentSize, hcur]
    exact hbound

theorem withinQuota_erases (hq : cfg.quota ≠ 0) (hlt : cfg.quota < 2^64) {s b : ℕ} {e : Path × ℕ}
    (h : WithinQuota cfg w) (her : World.Erases cfg s b e w w') : WithinQuota cfg w' := by
  obtain ⟨hle, hquota⟩ := h
  have he := her.found.size_le
  have hrec := her.recorded
  have hrel := release_recorded hq hlt hquota (he.trans hle)
  refine ⟨?_, ?_⟩
  · rw [her.currentSize, hrel]
    omega
  · rw [her.currentSize, hrel]
    omega

theorem withinQuota_lost (hq : cfg.quota ≠ 0) {size : ℕ} (hfit : cfg.quota + size < 2^64)
    (h : WithinQuota cfg w) (hr : (reserve cfg.quota size w.manager.currentSize).1 = true)
    (hc : w'.manager.currentSize = (reserve cfg.quota size w.manager.currentSize).2)
    (hrec : w'.manager.recordedTotal = w.manager.recordedTotal) : WithinQuota cfg w' := by
  obtain ⟨hle, hquota⟩ := h
  obtain ⟨hcur, hbound⟩ := reserve_granted hq hquota hfit hr
  refine ⟨?_, ?_⟩
  · rw [hc, hcur, hrec]
    omega
  · rw [hc, hcur]
    exact hbound

theorem withinQuota_reserved (hq : cfg.quota ≠ 0) {s b size : ℕ} {r : Except Exn Bool}
    (hfit : cfg.quota + size < 2^64) (h : WithinQuota cfg w)
    (hres : w.reserveSessionStore cfg s b size = some (r, w')) : WithinQuota cfg w' := by
  rcases World.reserveSessionStore_cases hres with
    ⟨_, rfl, _⟩ | ⟨e, _, hch⟩ | ⟨_, _, _, hgranted, rfl⟩
  · exact h
  · exact withinQuota_charges hq hfit h hch
  · exact withinQuota_lost hq hfit h hgranted rfl rfl

theorem withinQuota_deleted (hq : cfg.quota ≠ 0) (hlt : cfg.quota < 2^64) {s b : ℕ}
    {r : Except Exn Unit} (h : WithinQuota cfg w)
    (hdel : w.deleteBlobFile cfg s b .succeeds = some (r, w')) : WithinQuota cfg w' := by
  rcases World.deleteBlobFile_cases hdel with ⟨rfl, _⟩ | ⟨e, _, her⟩ | ⟨_, _, _, hfail, _⟩
  · exact h
  · exact withinQuota_erases hq hlt h her
  · exact absurd rfl hfail

theorem withinQuota_kept (h : WithinQuota cfg w) (hk : KeepsAccounts w w') :
    WithinQuota cfg w' := by
  rw [WithinQuota, hk.recorded, hk.currentSize]
  exact h

theorem withinQuota_books (hq : cfg.quota ≠ 0) (hlt : cfg.quota < 2^64) {f : Fault} {t : Handler}
    (hf : t.deletes ≠ none → f.deletes = .succeeds)
    (hfit : ∀ x ∈ t.reserves, cfg.quota + x.2.2 < 2^64) (h : WithinQuota cfg w)
    (hb : Books cfg f t w w') : WithinQuota cfg w' := by
  cases hb with
  | nothing _ _ _ hk => exact withinQuota_kept h hk
  | reserves ht hres hm =>
    rw [WithinQuota, hm]
    exact withinQuota_reserved hq (hfit _ ht) h hres
  | deletes ht hdel =>
    rw [hf (by rw [ht]; exact Option.some_ne_none _)] at hdel
    exact withinQuota_deleted hq hlt h hdel
  | @erases s _ =>
    have hrec := BlobSessionManager.recordedTotal_dispose (m := w.manager) (s := s)
    have hle := h.1
    refine ⟨?_, ?_⟩
    · rw [BlobSessionManager.currentSize_dispose]
      dsimp only
      omega
    · rw [BlobSessionManager.currentSize_dispose]
      exact h.2

/-! ### Chunks to come -/

theorem chunksFit_reserves {t : Handler} (h : ChunksFit cfg t.pending) :
    ∀ x ∈ t.reserves, cfg.quota + x.2.2 < 2^64 := by
  intro x hx
  unfold Handler.reserves at hx
  split at hx
  · cases hx
    exact h _ List.mem_cons_self
  · cases hx

theorem pending_putStepped {f : Fault} {messages : List PutStreamingRequest} {pc pc' : PutPc}
    (h : PutStepped cfg f messages w pc w' pc') :
    ∀ m ∈ pc'.pending messages, m ∈ pc.pending messages := by
  intro m hm
  cases h with
  | located heq =>
    rw [PutPc.pending, heq]
    exact List.mem_cons_of_mem _ hm
  | created => exact hm
  | opened => exact hm
  | charged => exact List.mem_cons_of_mem _ hm
  | _ => cases hm

theorem pending_handlerStep {f : Fault} {t t' : Handler}
    (h : handlerStep cfg f w t = some (w', t')) : ∀ m ∈ t'.pending, m ∈ t.pending := by
  cases t with
  | put messages pc =>
    obtain ⟨pc', rfl, hput⟩ := handlerStep_put h
    exact pending_putStepped hput
  | get request pc =>
    obtain ⟨_, pc', rfl, _⟩ := handlerStep_get h
    exact fun m hm => hm
  | remove s ids pc =>
    obtain ⟨⟨pc', rfl⟩, _⟩ := handlerStep_remove h
    exact fun m hm => hm
  | dispose s pc =>
    obtain ⟨⟨pc', rfl⟩, _⟩ := handlerStep_dispose h
    exact fun m hm => hm

/-! ### Every run -/

def QuotaInv (cfg : Config) (σ : System) : Prop :=
  Pool.Holds (WithinQuota cfg) (fun _ t => ChunksFit cfg t.pending) (fun _ _ => True) σ

theorem quotaInv_step (hq : cfg.quota ≠ 0) (hlt : cfg.quota < 2^64) {σ σ' : System}
    {l : SystemMove} (hσ : QuotaInv cfg σ) (hok : QuotaMove cfg σ l)
    (h : systemStep cfg l σ = some σ') : QuotaInv cfg σ' := by
  cases l with
  | env a =>
    obtain ⟨w₁, hw, rfl⟩ := Pool.step_env h
    exact hσ.of_env (withinQuota_kept hσ.shared (keepsAccounts_envStep hw)) hσ.thread
  | call c =>
    obtain rfl := Pool.step_call h
    refine hσ.of_call ?_ fun _ _ _ => ⟨trivial, trivial⟩
    cases c with
    | put messages => exact hok
    | get request => exact nofun
    | remove s ids => exact nofun
    | dispose s => exact nofun
  | run i f =>
    obtain ⟨t, w₁, t', ht, hstep, rfl⟩ := Pool.step_run h
    have hfit := hσ.thread i t ht
    have hw := withinQuota_books hq hlt (hok t ht) (chunksFit_reserves hfit) hσ.shared
      (handlerStep_books hstep)
    refine hσ.of_run hw ?_ fun j u _ hu => ⟨hσ.thread j u hu, trivial, trivial⟩
    exact fun bytes hb => hfit bytes (pending_handlerStep hstep _ hb)

theorem quotaInv_initial {σ : System} (h : Initial cfg σ) : QuotaInv cfg σ := by
  obtain ⟨⟨hm, _⟩, ht⟩ := h
  refine ⟨?_, fun i t hi => by simp [ht] at hi, fun _ _ _ _ _ _ _ => trivial⟩
  have htotal : BlobSessionManager.empty.recordedTotal = 0 :=
    OrderedMap.total_empty BlobSessionImpl.recordedSize
  unfold WithinQuota
  rw [hm, htotal]
  exact ⟨le_rfl, Nat.zero_le _⟩

/-- However the handlers interleave, everything recorded is covered by the counter
and the counter by the quota, so giving back a recorded size never wraps. -/
theorem quota_safety {σ₀ σ : System} {ls : List SystemMove} (hq : cfg.quota ≠ 0)
    (hlt : cfg.quota < 2^64) (h₀ : Initial cfg σ₀)
    (hrun : Run (systemStep cfg) (QuotaMove cfg) σ₀ ls σ) :
    σ.shared.manager.recordedTotal ≤ σ.shared.manager.currentSize ∧
      σ.shared.manager.currentSize ≤ cfg.quota ∧
      ∀ s b e, σ.shared.manager.Entry s b e →
        release cfg.quota e.2 σ.shared.manager.currentSize + e.2 =
          σ.shared.manager.currentSize := by
  have hinv : QuotaInv cfg σ :=
    hrun.invariant (QuotaInv cfg) (fun _ _ _ hi ho hs => quotaInv_step hq hlt hi ho hs)
      (quotaInv_initial h₀)
  obtain ⟨hle, hquota⟩ := hinv.shared
  refine ⟨hle, hquota, fun s b e he => ?_⟩
  have hsize : e.2 ≤ σ.shared.manager.currentSize := he.size_le.trans hle
  rw [release_recorded hq hlt hquota hsize]
  omega

def refusedUpload : List SystemMove :=
  [.env (.createSession none),
    .call (.put [.metadata ⟨1, 1, none⟩, .chunk [1, 2, 3, 4], .chunk [5, 6, 7, 8], .chunk [9, 10, 11]]),
    .run 0 .none, .run 0 .none, .run 0 .none, .run 0 .none, .run 0 .none, .run 0 .none]

theorem quota_safety_refusedUpload :
    ∃ σ, runs smallConfig refusedUpload smallStart = some σ ∧
      σ.shared.manager.currentSize = 8 ∧ σ.shared.manager.recordedTotal ≤ 8 := by
  obtain ⟨σ, hσ, hcur⟩ := (Option.any_eq_true
    (fun σ : System => σ.shared.manager.currentSize == 8) _).mp
    (by decide : (runs smallConfig refusedUpload smallStart).any _ = true)
  have hmoves : ∀ σ, ∀ l ∈ refusedUpload, QuotaMove smallConfig σ l := by
    intro σ
    simp [refusedUpload, QuotaMove, ChunksFit, Fault.deletes, smallConfig]
  have hrun : Run (systemStep smallConfig) (QuotaMove smallConfig) smallStart refusedUpload σ :=
    .of_exec hσ fun σ l hl _ => hmoves σ l hl
  have hsafe := quota_safety (by decide) (by decide) smallStart_initial hrun
  have hcur : σ.shared.manager.currentSize = 8 := beq_iff_eq.mp hcur
  exact ⟨σ, hσ, hcur, hcur ▸ hsafe.1⟩

end BlobRelay
