import BlobRelay.Accounts
import BlobRelay.Removal
import BlobRelay.WholeReservation
import Mathlib.Data.ZMod.Basic

/-! # The ledger of the session store

The usage counter and the recorded sizes part in three places only: a deletion that throws
after its release, a reservation whose entry is gone, and a session erased with entries in
it. What was written off there is the difference between the two in every run. -/

namespace BlobRelay
open Foundation Foundation.FileStore Foundation.OrderedMap

inductive LedgerEntry
  /-- The size is off the counter and its entry still records it. -/
  | releasedOnly (size : ℕ)
  /-- The size is on the counter and no entry records it. -/
  | chargedOnly (size : ℕ)
  /-- The session went with these sizes recorded in it. -/
  | erasedWith (size : ℕ)

/-- By how much the entry takes the counter above the recorded sizes. -/
def LedgerEntry.value : LedgerEntry → ZMod (2^64)
  | .releasedOnly size => -size
  | .chargedOnly size => size
  | .erasedWith size => size

def Handler.writesOff (cfg : Config) (f : Fault) (w : World) (t : Handler) : List LedgerEntry :=
  match t.reserves, t.deletes, t.erases with
  | some (s, b, size), _, _ =>
    match w.reserveSessionStore cfg s b size with
    | some (.error _, _) => [.chargedOnly size]
    | _ => []
  | none, some (s, b), _ =>
    match w.deleteBlobFile cfg s b f.deletes with
    | some (.error _, _) => [.releasedOnly (weight Prod.snd (w.entryOf s b))]
    | _ => []
  | none, none, some s =>
    [.erasedWith (weight BlobSessionImpl.recordedSize w.manager.blobSessions[s]?)]
  | none, none, none => []

def ledgerOf (cfg : Config) (σ : System) : SystemMove → List LedgerEntry
  | .run i f => (σ.threads[i]?).elim [] (Handler.writesOff cfg f σ.shared)
  | _ => []

/-- What has been written off. -/
def writtenOff (entries : List LedgerEntry) : ZMod (2^64) := (entries.map LedgerEntry.value).sum

theorem writtenOff_append (xs ys : List LedgerEntry) :
    writtenOff (xs ++ ys) = writtenOff xs + writtenOff ys := by
  rw [writtenOff, List.map_append, List.sum_append]
  rfl

@[simp] theorem writtenOff_nil : writtenOff [] = 0 := rfl

@[simp] theorem writtenOff_one (x : LedgerEntry) : writtenOff [x] = x.value := by
  rw [writtenOff, List.map_singleton, List.sum_singleton]

/-! ### Sizes modulo 2^64 -/

theorem cast_add64 (a b : ℕ) : (add64 a b : ZMod (2^64)) = a + b := by
  rw [add64, ZMod.natCast_mod, Nat.cast_add]

theorem cast_sub64 {a b : ℕ} (hb : b < 2^64) : (sub64 a b : ZMod (2^64)) = a - b := by
  rw [sub64, ZMod.natCast_mod, Nat.cast_add, Nat.cast_sub hb.le, ZMod.natCast_self]
  ring

/-- The counter and the recorded sizes, and what was written off between them. -/
def Accounted (w : World) (entries : List LedgerEntry) : Prop :=
  (w.manager.currentSize : ZMod (2^64)) = w.manager.recordedTotal + writtenOff entries

variable {cfg : Config} {f : Fault} {w w' : World} {t : Handler} {seen : List LedgerEntry}

theorem accounted_keepsAccounts (hk : KeepsAccounts w w') (h : Accounted w seen) :
    Accounted w' (seen ++ []) := by
  rw [Accounted, List.append_nil, hk.currentSize, hk.recorded]
  exact h

theorem accounted_reserves {s b size : ℕ} {r : Except Exn Bool} {w₁ : World} (hq : cfg.quota ≠ 0)
    (h : Accounted w seen) (hres : w.reserveSessionStore cfg s b size = some (r, w₁)) :
    Accounted w₁ (seen ++ match w.reserveSessionStore cfg s b size with
      | some (.error _, _) => [.chargedOnly size]
      | _ => []) := by
  rw [hres]
  unfold Accounted at h ⊢
  rcases World.reserveSessionStore_cases hres with
    ⟨rfl, rfl, _, _⟩ | ⟨e, rfl, hch⟩ | ⟨rfl, _, _, hyes, rfl⟩
  · rw [List.append_nil]
    exact h
  · have hrec := congrArg (Nat.cast : ℕ → ZMod (2^64)) hch.recorded
    rw [Nat.cast_add, Nat.cast_add, cast_add64] at hrec
    rw [List.append_nil, hch.currentSize, (reserve_charges hq hch.reserved).2, cast_add64, h]
    linear_combination -hrec
  · dsimp only
    rw [(reserve_charges hq hyes).2, cast_add64, h, writtenOff_append, writtenOff_one]
    show _ = (w.manager.recordedTotal : ZMod (2^64)) + _
    rw [LedgerEntry.value]
    ring

theorem accounted_deletes {s b : ℕ} {d : DeleteResult} {r : Except Exn Unit} (hq : cfg.quota ≠ 0)
    (hw : InWord w) (h : Accounted w seen) (hdel : w.deleteBlobFile cfg s b d = some (r, w')) :
    Accounted w' (seen ++ match w.deleteBlobFile cfg s b d with
      | some (.error _, _) => [.releasedOnly (weight Prod.snd (w.entryOf s b))]
      | _ => []) := by
  rw [hdel]
  unfold Accounted at h ⊢
  have hrelease : ∀ size cur, release cfg.quota size cur = sub64 cur size := fun size cur =>
    if_pos hq
  rcases World.deleteBlobFile_cases hdel with
    ⟨rfl, rfl, _⟩ | ⟨e, rfl, her⟩ | ⟨e, x, rfl, _, he, rfl⟩
  · rw [List.append_nil]
    exact h
  · have hrec := congrArg (Nat.cast : ℕ → ZMod (2^64)) her.recorded
    rw [Nat.cast_add] at hrec
    rw [List.append_nil, her.currentSize, hrelease, cast_sub64 (hw.recorded s b e her.found), h]
    linear_combination -hrec
  · dsimp only
    rw [hrelease, cast_sub64 (hw.recorded s b e he), h, writtenOff_append, writtenOff_one,
      World.entry_iff.mp he, weight_some]
    show _ = (w.manager.recordedTotal : ZMod (2^64)) + _
    rw [LedgerEntry.value]
    ring

theorem accounted_erases (s : ℕ) (h : Accounted w seen) :
    Accounted {w with manager := w.manager.dispose s} (seen ++
      [.erasedWith (weight BlobSessionImpl.recordedSize w.manager.blobSessions[s]?)]) := by
  unfold Accounted at h ⊢
  have hrec := congrArg (Nat.cast : ℕ → ZMod (2^64))
    (BlobSessionManager.recordedTotal_dispose (m := w.manager) (s := s))
  rw [Nat.cast_add] at hrec
  rw [BlobSessionManager.currentSize_dispose, h, writtenOff_append, writtenOff_one,
    LedgerEntry.value]
  linear_combination -hrec

theorem reserves_of_erases {s : ℕ} (h : t.erases = some s) : t.reserves = none := by
  cases t with
  | dispose r pc => rfl
  | _ => cases h

theorem deletes_of_erases {s : ℕ} (h : t.erases = some s) : t.deletes = none := by
  unfold Handler.erases at h
  split at h
  · rfl
  · cases h

theorem accounted_books (hq : cfg.quota ≠ 0) (hw : InWord w) (h : Accounted w seen)
    (hb : Books cfg f t w w') : Accounted w' (seen ++ t.writesOff cfg f w) := by
  unfold Handler.writesOff
  cases hb with
  | nothing hr hd he hk =>
    rw [hr, hd, he]
    exact accounted_keepsAccounts hk h
  | reserves hr hres hm =>
    rw [hr]
    have hnext := accounted_reserves hq h hres
    unfold Accounted at hnext ⊢
    rw [hm]
    exact hnext
  | deletes hd hdel =>
    rw [reserves_of_deletes hd, hd]
    exact accounted_deletes hq hw h hdel
  | erases he =>
    rw [reserves_of_erases he, deletes_of_erases he, he]
    exact accounted_erases _ h

theorem accounted_step {σ σ' : System} {l : SystemMove} (hq : cfg.quota ≠ 0)
    (hw : InWord σ.shared) (h : Accounted σ.shared seen) (hst : systemStep cfg l σ = some σ') :
    Accounted σ'.shared (seen ++ ledgerOf cfg σ l) := by
  cases l with
  | env a =>
    obtain ⟨w₁, hw₁, rfl⟩ := Pool.step_env hst
    exact accounted_keepsAccounts (keepsAccounts_envStep hw₁) h
  | call c =>
    obtain rfl := Pool.step_call hst
    exact accounted_keepsAccounts (.refl _) h
  | run i f =>
    obtain ⟨t, w₁, t', ht, hone, rfl⟩ := Pool.step_run hst
    rw [ledgerOf, ht, Option.elim_some]
    exact accounted_books hq hw h (handlerStep_books hone)

/-- In every run, whatever fails in it, the counter is what the live sessions record plus
what was written off, in 64 bits. -/
theorem ledger_balances {σ₀ σ : System} {ok : System → SystemMove → Prop} {ls : List SystemMove}
    (hq : cfg.quota ≠ 0) (h₀ : Initial cfg σ₀) (hrun : Run (systemStep cfg) ok σ₀ ls σ) :
    (σ.shared.manager.currentSize : ZMod (2^64)) = σ.shared.manager.recordedTotal +
      writtenOff (observe (systemStep cfg) (ledgerOf cfg) ls σ₀) := by
  have hstart : InWord σ₀.shared ∧ Accounted σ₀.shared [] := by
    refine ⟨inWord_constructed h₀.1, ?_⟩
    rw [Accounted, h₀.1.manager, writtenOff_nil, add_zero]
    exact congrArg Nat.cast (OrderedMap.total_empty BlobSessionImpl.recordedSize).symm
  have hstep : ∀ seen σ l σ', ok σ l → systemStep cfg l σ = some σ' →
      InWord σ.shared ∧ Accounted σ.shared seen →
      InWord σ'.shared ∧ Accounted σ'.shared (seen ++ ledgerOf cfg σ l) := by
    intro seen σ l σ' _ hst ⟨hw, hb⟩
    have hone : Run (systemStep cfg) (fun _ _ => True) σ [l] σ' := .cons trivial hst (.nil σ')
    exact ⟨inWord_run hone hw, accounted_step hq hw hb hst⟩
  exact (hrun.history (fun seen σ => InWord σ.shared ∧ Accounted σ.shared seen) hstep hstart).2

/-- An upload whose entry is removed before its chunk is charged, and another whose
deletion throws. -/
def writtenOffTwice : List SystemMove :=
  removedDuringUpload ++ [.run 0 .none, .call (.put [.metadata ⟨1, 1, none⟩, .chunk [4, 5]]),
    .run 2 .none, .run 2 .none, .run 2 .none, .run 2 .none, .run 2 .none, .run 2 .none, .run 2 .none,
    .call (.remove 1 [2]), .run 3 .none, .run 3 .existsThrows]

theorem ledger_balances_writtenOffTwice : ∃ σ, runs smallConfig writtenOffTwice smallStart = some σ ∧
    σ.shared.manager.currentSize = 3 ∧ σ.shared.manager.recordedTotal = 2 ∧
    (σ.shared.manager.currentSize : ZMod (2^64)) = σ.shared.manager.recordedTotal +
      writtenOff (observe (systemStep smallConfig) (ledgerOf smallConfig) writtenOffTwice
        smallStart) := by
  obtain ⟨σ, hσ, hend⟩ := (Option.any_eq_true
    (fun σ : System => decide (σ.shared.manager.currentSize = 3) &&
      decide (σ.shared.manager.recordedTotal = 2)) _).mp
    (by decide : (runs smallConfig writtenOffTwice smallStart).any _ = true)
  simp only [Bool.and_eq_true, decide_eq_true_eq] at hend
  have hrun : Run (systemStep smallConfig) (fun σ _ => Headroom σ.shared) smallStart
      writtenOffTwice σ := .of_exec hσ fun _ _ _ hc => of_decide_eq_true hc
  exact ⟨σ, hσ, hend.1, hend.2, ledger_balances (by decide) smallStart_initial hrun⟩

end BlobRelay
