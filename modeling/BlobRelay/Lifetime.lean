import BlobRelay.Persistence

/-! # Handlers and disposed sessions

`get_session_impl` returns a reference after the manager's mutex is released, and
nothing stops `dispose` from erasing the session while a `Put` or a `Get` still
holds it. As long as sessions are erased only when nobody holds them, every use
of a reference finds its session. -/

namespace BlobRelay
open Foundation Foundation.FileStore

/-- The session that the handler's next step uses through the reference that
`get_session_impl` returned. -/
def Handler.uses : Handler → Option ℕ
  | .put _ (.located s _ _) => some s
  | .put _ (.receiving u _ _ (.chunk _ :: _)) => some u.session
  | .put _ (.exhausted u) => some u.session
  | .put _ (.tagging u) => some u.session
  | .get _ (.ownerHeld ctx _) => some ctx.sessionId
  | .get _ (.findHeld ctx) => some ctx.sessionId
  | .get _ (.tagHeld ctx _) => some ctx.sessionId
  | _ => none

/-- The session that a `Put` or a `Get` holds a reference to. -/
def Handler.holds : Handler → Option ℕ
  | .put _ (.located s _ _) => some s
  | .put _ (.created u _) => some u.session
  | .put _ (.receiving u _ _ _) => some u.session
  | .put _ (.exhausted u) => some u.session
  | .put _ (.received u _) => some u.session
  | .put _ (.tagging u) => some u.session
  | .get _ (.ownerHeld ctx _) => some ctx.sessionId
  | .get _ (.findHeld ctx) => some ctx.sessionId
  | .get _ (.tagHeld ctx _) => some ctx.sessionId
  | _ => none

theorem Handler.holds_of_uses {t : Handler} {s : ℕ} (h : t.uses = some s) : t.holds = some s := by
  unfold Handler.uses at h
  split at h <;> first | exact h | cases h

/-- A session is erased only when no `Put` and no `Get` holds it. -/
def ErasesUnheld (σ : System) : SystemMove → Prop
  | .run i _ => ∀ t ∈ σ.threads[i]?, ∀ s ∈ t.erases, ∀ u ∈ σ.threads, u.holds ≠ some s
  | _ => True

instance : ∀ σ l, Decidable (ErasesUnheld σ l)
  | σ, .run i _ => inferInstanceAs
      (Decidable (∀ t ∈ σ.threads[i]?, ∀ s ∈ t.erases, ∀ u ∈ σ.threads, u.holds ≠ some s))
  | _, .env _ => isTrue trivial
  | _, .call _ => isTrue trivial

/-- What a handler holds is live. -/
def HoldsLive (w : World) (t : Handler) : Prop := ∀ s, t.holds = some s → w.manager.Live s

variable {cfg : Config} {f : Fault} {w w' : World} {t t' : Handler}

theorem holds_putStepped {messages : List PutStreamingRequest} {pc pc' : PutPc}
    (h : PutStepped cfg f messages w pc w' pc') {s : ℕ}
    (hs : (Handler.put messages pc').holds = some s) :
    w.manager.Live s ∨ (Handler.put messages pc).holds = some s := by
  cases h with
  | located _ _ hl =>
    cases hs
    exact Or.inl hl
  | created => exact Or.inr hs
  | opened => exact Or.inr hs
  | closed => exact Or.inr hs
  | charged => exact Or.inr hs
  | refused => exact Or.inr hs
  | accepted => exact Or.inr hs
  | _ => cases hs

theorem holds_ofExcept {α : Type} {request : GetStreamingRequest} {next : α → GetPc}
    {r : Except GetExit α} {s : ℕ} (h : (Handler.get request (.ofExcept next r)).holds = some s) :
    ∃ a, r = .ok a ∧ (Handler.get request (next a)).holds = some s := by
  cases r with
  | ok a => exact ⟨a, rfl, h⟩
  | error x => cases h

theorem holds_afterContext {request : GetStreamingRequest} {ctx : GetContext} :
    (Handler.get request (GetPc.afterContext ctx)).holds = none := by
  unfold GetPc.afterContext
  split <;> rfl

theorem holds_getStepped {request : GetStreamingRequest} {pc pc' : GetPc}
    (h : GetStepped cfg f request w pc pc') {s : ℕ}
    (hs : (Handler.get request pc').holds = some s) : w.manager.Live s := by
  cases h with
  | contextRead =>
    rw [holds_afterContext] at hs
    cases hs
  | ownerFound hl =>
    cases hs
    exact hl
  | ownerChecked =>
    obtain ⟨_, _, hc⟩ := holds_ofExcept hs
    cases hc
  | sessionFound _ _ hl =>
    cases hs
    exact hl
  | tagSession _ hl =>
    cases hs
    exact hl
  | _ => cases hs

theorem holds_handlerStep (h : handlerStep cfg f w t = some (w', t')) {s : ℕ}
    (hs : t'.holds = some s) : t.erases = none ∧ (w.manager.Live s ∨ t.holds = some s) := by
  cases t with
  | put messages pc =>
    obtain ⟨pc', rfl, hstep⟩ := handlerStep_put h
    exact ⟨rfl, holds_putStepped hstep hs⟩
  | get request pc =>
    obtain ⟨_, pc', rfl, hstep⟩ := handlerStep_get h
    exact ⟨rfl, Or.inl (holds_getStepped hstep hs)⟩
  | remove r ids pc =>
    obtain ⟨⟨pc', rfl⟩, _⟩ := handlerStep_remove h
    cases hs
  | dispose r pc =>
    obtain ⟨⟨pc', rfl⟩, _⟩ := handlerStep_dispose h
    cases hs

/-! ### Runs -/

def HeldInv (σ : System) : Prop :=
  Pool.Holds (fun _ => True) HoldsLive (fun _ _ => True) σ

theorem heldInv_step {σ σ' : System} {l : SystemMove} (hσ : HeldInv σ) (hok : ErasesUnheld σ l)
    (h : systemStep cfg l σ = some σ') : HeldInv σ' := by
  cases l with
  | env a =>
    obtain ⟨w₁, hw, rfl⟩ := Pool.step_env h
    exact hσ.of_env trivial fun i u hu s hs => live_envStep hw (hσ.thread i u hu s hs)
  | call c =>
    obtain rfl := Pool.step_call h
    refine hσ.of_call ?_ fun _ _ _ => ⟨trivial, trivial⟩
    intro s hs
    cases c <;> cases hs
  | run i f =>
    obtain ⟨t, w₁, t', ht, hstep, rfl⟩ := Pool.step_run h
    -- whoever holds `s` keeps it from being erased by this step
    have hkeep : ∀ (j : ℕ) u s, σ.threads[j]? = some u → u.holds = some s → w₁.manager.Live s := by
      intro j u s hu hs
      exact live_handlerStep hstep
        (fun he => hok t ht s he u (List.mem_of_getElem? hu) hs) (hσ.thread j u hu s hs)
    refine hσ.of_run trivial (fun s hs => ?_) fun j u _ hu =>
      ⟨fun s hs => hkeep j u s hu hs, trivial, trivial⟩
    obtain ⟨herases, hl | hheld⟩ := holds_handlerStep hstep hs
    · exact live_handlerStep hstep (by rw [herases]; exact nofun) hl
    · exact hkeep i t s ht hheld

theorem heldInv_initial {σ : System} (h : Initial cfg σ) : HeldInv σ :=
  ⟨trivial, fun i t hi => by simp [h.2] at hi, fun _ _ _ _ _ _ _ => trivial⟩

/-- In every run that erases a session only while no `Put` and no `Get` holds it,
each use of a reference finds its session live. -/
theorem reference_live {σ₀ σ : System} {ls : List SystemMove} (h₀ : Initial cfg σ₀)
    (hrun : Run (systemStep cfg) ErasesUnheld σ₀ ls σ) {i s : ℕ} {t : Handler}
    (ht : σ.threads[i]? = some t) (hs : t.uses = some s) : σ.shared.manager.Live s := by
  have hinv : HeldInv σ :=
    hrun.invariant HeldInv (fun _ _ _ hi ho hst => heldInv_step hi ho hst) (heldInv_initial h₀)
  exact hinv.thread i t ht s (Handler.holds_of_uses hs)

/-- An upload looks its session up; `dispose` runs to its end; the upload goes on. -/
def disposedUpload : List SystemMove :=
  [.env (.createSession none), .call (.put [.metadata ⟨1, 1, none⟩]), .run 0 .none,
    .call (.dispose 1), .run 1 .none, .run 1 .none, .run 1 .none]

theorem reference_dangles : ¬ ∀ (cfg : Config) (σ₀ σ : System) (ls : List SystemMove) (i s : ℕ)
    (t : Handler), Initial cfg σ₀ → Run (systemStep cfg) (fun _ _ => True) σ₀ ls σ →
    σ.threads[i]? = some t → t.uses = some s → σ.shared.manager.Live s := by
  intro h
  obtain ⟨σ, hσ, hend⟩ := (Option.any_eq_true
    (fun σ : System => σ.threads[0]?.bind Handler.uses == some 1 &&
      σ.shared.manager.blobSessions[1]?.isNone) _).mp
    (by decide : (runs smallConfig disposedUpload smallStart).any _ = true)
  obtain ⟨huse, hgone⟩ := Bool.and_eq_true_iff.mp hend
  obtain ⟨t, ht, hs⟩ := Option.bind_eq_some_iff.mp (beq_iff_eq.mp huse)
  obtain ⟨impl, hi⟩ := h smallConfig smallStart σ disposedUpload 0 1 t smallStart_initial
    (.of_exec hσ fun _ _ _ _ => trivial) ht hs
  rw [hi] at hgone
  cases hgone

/-- `dispose` starts during an upload and erases the session after it; an upload
into the other session goes on. -/
def heldUpload : List SystemMove :=
  [.env (.createSession none), .env (.createSession none),
    .call (.put [.metadata ⟨1, 1, none⟩]), .call (.dispose 1), .call (.put [.metadata ⟨1, 2, none⟩]),
    .run 1 .none, .run 0 .none, .run 0 .none, .run 0 .none, .run 0 .none, .run 0 .none, .run 0 .none,
    .run 1 .none, .run 1 .none, .run 2 .none, .run 1 .none]

theorem reference_live_heldUpload :
    ∃ σ, exec (systemStep smallConfig) (fun σ l => decide (ErasesUnheld σ l)) heldUpload smallStart =
      some σ ∧ σ.shared.manager.Live 2 := by
  obtain ⟨σ, hσ, huse⟩ := (Option.any_eq_true
    (fun σ : System => σ.threads[2]?.bind Handler.uses == some 2) _).mp
    (by decide : (exec (systemStep smallConfig) (fun σ l => decide (ErasesUnheld σ l)) heldUpload
      smallStart).any _ = true)
  obtain ⟨t, ht, hs⟩ := Option.bind_eq_some_iff.mp (beq_iff_eq.mp huse)
  have hrun : Run (systemStep smallConfig) ErasesUnheld smallStart heldUpload σ :=
    .of_exec hσ fun _ _ _ hc => of_decide_eq_true hc
  exact ⟨σ, hσ, reference_live smallStart_initial hrun ht hs⟩

end BlobRelay
