import BlobRelay.Identifiers

/-! # What a step books

The usage counter and the recorded sizes. A step reserves for an upload, deletes an
entry, erases a session, or leaves all of them as they are. -/

namespace BlobRelay
open Foundation Foundation.FileStore

/-- The session, the id and the size that the handler's next step calls
`reserve_session_store` with. -/
def Handler.reserves : Handler → Option (ℕ × ℕ × ℕ)
  | .put _ (.receiving u _ _ (.chunk bytes :: _)) => some (u.session, u.blobId, bytes.length)
  | _ => none

/-- Nothing is booked; an entry that is new records nothing. -/
structure KeepsAccounts (w w' : World) : Prop where
  currentSize : w'.manager.currentSize = w.manager.currentSize
  recorded : w'.manager.recordedTotal = w.manager.recordedTotal
  entry : ∀ r c e, w'.manager.Entry r c e → e.2 = 0 ∨ w.manager.Entry r c e

inductive Books (cfg : Config) (f : Fault) (t : Handler) (w : World) : World → Prop
  | nothing {w' : World} : t.reserves = none → t.deletes = none → t.erases = none →
      KeepsAccounts w w' → Books cfg f t w w'
  | reserves {s b n : ℕ} {r : Except Exn Bool} {w₁ w' : World} : t.reserves = some (s, b, n) →
      w.reserveSessionStore cfg s b n = some (r, w₁) → w'.manager = w₁.manager →
      Books cfg f t w w'
  | deletes {s b : ℕ} {r : Except Exn Unit} {w' : World} : t.deletes = some (s, b) →
      w.deleteBlobFile cfg s b f.deletes = some (r, w') → Books cfg f t w w'
  | erases {s : ℕ} : t.erases = some s →
      Books cfg f t w {w with manager := w.manager.dispose s}

variable {cfg : Config} {f : Fault} {messages : List PutStreamingRequest} {w w' : World}
  {t t' : Handler} {σ σ' : System} {l : SystemMove}

theorem KeepsAccounts.refl (w : World) : KeepsAccounts w w := ⟨rfl, rfl, fun _ _ _ he => Or.inr he⟩

theorem KeepsAccounts.of_files (w : World) (fs : Files) : KeepsAccounts w {w with files := fs} :=
  ⟨rfl, rfl, fun _ _ _ he => Or.inr he⟩

theorem keepsAccounts_registers {s b : ℕ} {path : Path} (h : World.Registers cfg s b path w w') :
    KeepsAccounts w w' := by
  refine ⟨h.currentSize, h.recorded, fun r c e he => ?_⟩
  rcases (h.entry r c e).mp he with hold | ⟨_, _, rfl, _⟩
  · exact Or.inr hold
  · exact Or.inl rfl

theorem keepsAccounts_envStep {a : EnvAction} (h : envStep cfg a w = some w') :
    KeepsAccounts w w' := by
  cases a with
  | createSession u =>
    cases h
    exact ⟨rfl, BlobSessionManager.recordedTotal_createSession u,
      fun r c e he => Or.inr ((BlobSessionManager.entry_createSession u).mp he)⟩
  | add s path =>
    obtain ⟨⟨r, w₁⟩, hr, he⟩ := Option.map_eq_some_iff.mp h
    cases he
    cases r with
    | ok b => exact keepsAccounts_registers (World.add_ok hr).2
    | error x =>
      obtain ⟨_, rfl⟩ := World.add_error hr
      exact ⟨rfl, rfl, fun _ _ _ he => Or.inr he⟩
  | outsideWrite path bytes =>
    simp only [envStep, outsideWrite] at h
    split at h
    · cases h
    · obtain ⟨r, _, rfl⟩ := Option.map_eq_some_iff.mp h
      exact .of_files w _
  | outsideDelete path =>
    cases h
    exact .of_files w _

theorem keepsAccounts_putStepped {pc pc' : PutPc} (h : PutStepped cfg f messages w pc w' pc')
    (hr : (Handler.put messages pc).reserves = none)
    (hd : (Handler.put messages pc).deletes = none) : KeepsAccounts w w' := by
  cases h with
  | created hreg => exact keepsAccounts_registers hreg
  | charged => cases hr
  | refused => cases hr
  | lost => cases hr
  | deletedNothing => cases hd
  | deleted => cases hd
  | deleteFails => cases hd
  | opened => exact .of_files w _
  | closed => exact .of_files w _
  | notChunk => exact .of_files w _
  | mismatch => exact .of_files w _
  | _ => exact .refl w

theorem keepsAccounts_deleteStepped {s : ℕ} {b : Option ℕ} (h : DeleteStepped cfg f w s b w')
    (hb : b.map (fun c => (s, c)) = none) : KeepsAccounts w w' := by
  cases h with
  | same => exact .refl w
  | deleted => cases hb
  | deleteFails => cases hb

theorem reserves_handlerStep {s b n : ℕ} (h : handlerStep cfg f w t = some (w', t'))
    (ht : t.reserves = some (s, b, n)) :
    ∃ r w₁, w.reserveSessionStore cfg s b n = some (r, w₁) ∧ w'.manager = w₁.manager := by
  cases t with
  | put messages pc =>
    obtain ⟨x, hx, he⟩ := Option.map_eq_some_iff.mp h
    cases he
    unfold Handler.reserves at ht
    split at ht
    · rename_i heq
      cases heq
      cases ht
      dsimp only [putStep] at hx
      split at hx
      · cases hx
      · rename_i hres
        cases hx
        exact ⟨_, _, hres, rfl⟩
      · rename_i hres
        cases hx
        exact ⟨_, _, hres, rfl⟩
      · rename_i hres
        cases hx
        exact ⟨_, _, hres, rfl⟩
    · cases ht
  | get request pc => cases ht
  | remove r ids pc => cases ht
  | dispose r pc => cases ht

theorem reserves_of_deletes {x : ℕ × ℕ} (h : t.deletes = some x) : t.reserves = none := by
  cases t with
  | put messages pc =>
    cases pc with
    | exhausted u => rfl
    | _ => cases h
  | _ => rfl

theorem erases_handlerStep {s : ℕ} (h : handlerStep cfg f w t = some (w', t'))
    (ht : t.erases = some s) : w' = {w with manager := w.manager.dispose s} := by
  cases t with
  | dispose r pc =>
    unfold Handler.erases at ht
    split at ht
    · rename_i heq
      cases heq
      cases ht
      obtain ⟨_, ⟨hpc, _⟩ | ⟨_, _, hw⟩⟩ := handlerStep_dispose h
      · exact absurd rfl hpc
      · exact hw
    · cases ht
  | _ => cases ht

theorem handlerStep_books (h : handlerStep cfg f w t = some (w', t')) : Books cfg f t w w' := by
  cases hr : t.reserves with
  | some x =>
    obtain ⟨s, b, n⟩ := x
    obtain ⟨r, w₁, hres, hm⟩ := reserves_handlerStep h hr
    exact .reserves hr hres hm
  | none =>
    cases hd : t.deletes with
    | some x =>
      obtain ⟨s, b⟩ := x
      obtain ⟨r, hdel⟩ := deletes_handlerStep h hd
      exact .deletes hd hdel
    | none =>
      cases he : t.erases with
      | some s =>
        obtain rfl := erases_handlerStep h he
        exact .erases he
      | none =>
        refine .nothing hr hd he ?_
        cases t with
        | put messages pc =>
          obtain ⟨pc', rfl, hput⟩ := handlerStep_put h
          exact keepsAccounts_putStepped hput hr hd
        | get request pc =>
          obtain ⟨rfl, _⟩ := handlerStep_get h
          exact .refl w'
        | remove s ids pc =>
          obtain ⟨_, hdel⟩ := handlerStep_remove h
          exact keepsAccounts_deleteStepped hdel hd
        | dispose s pc =>
          obtain ⟨_, ⟨_, hdel⟩ | ⟨rfl, _⟩⟩ := handlerStep_dispose h
          · exact keepsAccounts_deleteStepped hdel hd
          · cases he

/-- A step of the service books nothing, or is the step of a handler that does. -/
theorem systemStep_books (h : systemStep cfg l σ = some σ') :
    KeepsAccounts σ.shared σ'.shared ∨ ∃ (i : ℕ) (f : Fault) (t : Handler), l = .run i f ∧
      σ.threads[i]? = some t ∧ Books cfg f t σ.shared σ'.shared := by
  cases l with
  | env a =>
    obtain ⟨w₁, hw, rfl⟩ := Pool.step_env h
    exact Or.inl (keepsAccounts_envStep hw)
  | call c =>
    obtain rfl := Pool.step_call h
    exact Or.inl (.refl _)
  | run i f =>
    obtain ⟨t, w₁, t', ht, hstep, rfl⟩ := Pool.step_run h
    exact Or.inr ⟨i, f, t, rfl, ht, handlerStep_books hstep⟩

/-! ### 64-bit sizes -/

/-- The counter and the recorded sizes are values of `std::size_t`. -/
structure InWord (w : World) : Prop where
  currentSize : w.manager.currentSize < 2^64
  recorded : ∀ s b e, w.manager.Entry s b e → e.2 < 2^64

theorem InWord.keepsAccounts (h : InWord w) (hk : KeepsAccounts w w') : InWord w' := by
  refine ⟨hk.currentSize ▸ h.currentSize, fun s b e he => ?_⟩
  rcases hk.entry s b e he with hzero | hold
  · rw [hzero]
    norm_num
  · exact h.recorded s b e hold

theorem InWord.of_manager (h : InWord w) (hm : w'.manager = w.manager) : InWord w' := by
  refine ⟨hm ▸ h.currentSize, fun s b e he => ?_⟩
  rw [hm] at he
  exact h.recorded s b e he

theorem InWord.reserved {s b n : ℕ} {r : Except Exn Bool} (h : InWord w)
    (hres : w.reserveSessionStore cfg s b n = some (r, w')) : InWord w' := by
  rcases World.reserveSessionStore_cases hres with ⟨_, rfl, _⟩ | ⟨e, _, hch⟩ | ⟨_, _, _, _, rfl⟩
  · exact h
  · refine ⟨hch.currentSize ▸ reserve_lt h.currentSize, fun r c e' he => ?_⟩
    have hnew := (hch.entry r c e').mp he
    split at hnew
    · rw [hnew]
      exact add64_lt _ _
    · exact h.recorded r c e' hnew
  · exact ⟨reserve_lt h.currentSize, h.recorded⟩

theorem InWord.deleted {s b : ℕ} {d : DeleteResult} {r : Except Exn Unit} (h : InWord w)
    (hdel : w.deleteBlobFile cfg s b d = some (r, w')) : InWord w' := by
  rcases World.deleteBlobFile_cases hdel with ⟨rfl, _⟩ | ⟨e, _, her⟩ | ⟨e, x, _, _, _, rfl⟩
  · exact h
  · exact ⟨her.currentSize ▸ release_lt h.currentSize,
      fun r c e' he => h.recorded r c e' ((her.entry r c e').mp he).1⟩
  · exact ⟨release_lt h.currentSize, h.recorded⟩

theorem InWord.books (h : InWord w) (hb : Books cfg f t w w') : InWord w' := by
  cases hb with
  | nothing _ _ _ hk => exact h.keepsAccounts hk
  | reserves _ hres hm => exact (h.reserved hres).of_manager hm
  | deletes _ hdel => exact h.deleted hdel
  | erases _ =>
    refine ⟨?_, fun r c e he => h.recorded r c e (BlobSessionManager.entry_dispose.mp he).1⟩
    rw [BlobSessionManager.currentSize_dispose]
    exact h.currentSize

theorem inWord_run {ok : System → SystemMove → Prop} {ls : List SystemMove}
    (hrun : Run (systemStep cfg) ok σ ls σ') (h : InWord σ.shared) : InWord σ'.shared :=
  hrun.invariant (fun σ => InWord σ.shared) (fun σ l σ' h _ hst => by
    rcases systemStep_books hst with hk | ⟨i, f, t, _, _, hb⟩
    · exact h.keepsAccounts hk
    · exact h.books hb) h

theorem inWord_constructed (h : Constructed cfg w) : InWord w := by
  refine ⟨?_, ?_⟩
  · rw [h.manager]
    norm_num [BlobSessionManager.empty]
  · rintro s b e ⟨impl, hs, _⟩
    simp [h.manager, BlobSessionManager.empty] at hs

theorem Reachable.inWord (h : Reachable cfg σ) : InWord σ.shared := by
  obtain ⟨_, σ₀, ls, h₀, hrun⟩ := h
  exact inWord_run hrun (inWord_constructed h₀.1)

end BlobRelay
