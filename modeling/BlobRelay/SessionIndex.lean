import BlobRelay.GetDecision
import BlobRelay.Persistence
import BlobRelay.TransactionIndex

/-! # Lookups by transaction

What every step of the service does to its sessions, and that the session found
by a transaction id is live and of that transaction, as long as session ids are
not issued twice. -/

namespace BlobRelay
open Foundation Foundation.FileStore

def SessionOp.creates : SessionOp → Bool
  | .createSession _ => true
  | .dispose _ => false

/-- The moves that create a session. -/
def createsSession : SystemMove → Bool
  | .env (.createSession _) => true
  | _ => false

/-- What a move does to the map of sessions and their index, if anything. -/
def sessionOp (σ : System) : SystemMove → Option SessionOp
  | .env (.createSession t) => some (.createSession t)
  | .run i _ => ((σ.threads[i]?).bind Handler.erases).map .dispose
  | _ => none

variable {cfg : Config} {f : Fault} {messages : List PutStreamingRequest} {w w' : World}
  {t t' : Handler} {m : BlobSessionManager}

/-! ### What a step does to sessions -/

theorem keepsSessions_putStepped {pc pc' : PutPc} (h : PutStepped cfg f messages w pc w' pc') :
    KeepsSessions w.manager w'.manager := by
  cases h with
  | created hreg => exact hreg.sessions
  | charged hch => exact hch.sessions
  | deleted her => exact her.sessions
  | lost => exact ⟨rfl, rfl, fun _ _ => Iff.rfl⟩
  | deleteFails => exact ⟨rfl, rfl, fun _ _ => Iff.rfl⟩
  | _ => exact .refl _

theorem keepsSessions_deleteStepped {s : ℕ} {b : Option ℕ} (h : DeleteStepped cfg f w s b w') :
    KeepsSessions w.manager w'.manager := by
  cases h with
  | same => exact .refl _
  | deleted her => exact her.sessions
  | deleteFails => exact ⟨rfl, rfl, fun _ _ => Iff.rfl⟩

theorem handlerStep_sessions (h : handlerStep cfg f w t = some (w', t')) :
    (t.erases = none ∧ KeepsSessions w.manager w'.manager) ∨
      ∃ s, t.erases = some s ∧ w'.manager = w.manager.dispose s := by
  cases t with
  | put messages pc =>
    obtain ⟨pc', rfl, hstep⟩ := handlerStep_put h
    exact Or.inl ⟨rfl, keepsSessions_putStepped hstep⟩
  | get request pc =>
    obtain ⟨rfl, _⟩ := handlerStep_get h
    exact Or.inl ⟨rfl, .refl _⟩
  | remove s ids pc =>
    obtain ⟨_, hstep⟩ := handlerStep_remove h
    exact Or.inl ⟨rfl, keepsSessions_deleteStepped hstep⟩
  | dispose s pc =>
    obtain ⟨_, ⟨hpc, hstep⟩ | ⟨rfl, _, rfl⟩⟩ := handlerStep_dispose h
    · refine Or.inl ⟨?_, keepsSessions_deleteStepped hstep⟩
      unfold Handler.erases
      split
      · rename_i heq
        cases heq
        exact absurd rfl hpc
      · rfl
    · exact Or.inr ⟨s, rfl, rfl⟩

theorem envStep_sessions {a : EnvAction} (h : envStep cfg a w = some w') :
    (∃ u, a = .createSession u ∧ w'.manager = (w.manager.createSession u).2) ∨
      ((∀ u, a ≠ .createSession u) ∧ KeepsSessions w.manager w'.manager) := by
  cases a with
  | createSession u =>
    cases h
    exact Or.inl ⟨u, rfl, rfl⟩
  | add s path =>
    refine Or.inr ⟨fun _ hu => EnvAction.noConfusion hu, ?_⟩
    obtain ⟨⟨x, w₁⟩, hadd, he⟩ := Option.map_eq_some_iff.mp h
    cases he
    cases x with
    | ok b => exact (World.add_ok hadd).2.sessions
    | error x =>
      obtain ⟨_, rfl⟩ := World.add_error hadd
      exact ⟨rfl, rfl, fun _ _ => Iff.rfl⟩
  | outsideWrite path bytes =>
    refine Or.inr ⟨fun _ hu => EnvAction.noConfusion hu, ?_⟩
    simp only [envStep, outsideWrite] at h
    split at h
    · cases h
    · obtain ⟨x, _, rfl⟩ := Option.map_eq_some_iff.mp h
      exact .refl _
  | outsideDelete path =>
    cases h
    exact Or.inr ⟨fun _ hu => EnvAction.noConfusion hu, .refl _⟩

theorem systemStep_sessions {σ σ' : System} {l : SystemMove} (h : systemStep cfg l σ = some σ') :
    (sessionOp σ l = none ∧ KeepsSessions σ.shared.manager σ'.shared.manager) ∨
      ∃ op, sessionOp σ l = some op ∧
        sessionStep op σ.shared.manager = some σ'.shared.manager := by
  cases l with
  | env a =>
    obtain ⟨w₁, hw, rfl⟩ := Pool.step_env h
    rcases envStep_sessions hw with ⟨u, rfl, hm⟩ | ⟨hne, hkeep⟩
    · exact Or.inr ⟨.createSession u, rfl, congrArg some hm.symm⟩
    · refine Or.inl ⟨?_, hkeep⟩
      cases a with
      | createSession u => exact absurd rfl (hne u)
      | _ => rfl
  | call c =>
    obtain rfl := Pool.step_call h
    exact Or.inl ⟨rfl, .refl _⟩
  | run i f =>
    obtain ⟨t, w₁, t', ht, hstep, rfl⟩ := Pool.step_run h
    simp only [sessionOp, ht, Option.bind_some]
    rcases handlerStep_sessions hstep with ⟨he, hkeep⟩ | ⟨s, he, hm⟩
    · exact Or.inl ⟨by rw [he]; rfl, hkeep⟩
    · exact Or.inr ⟨.dispose s, by rw [he]; rfl, congrArg some hm.symm⟩

theorem createsSession_iff {σ : System} {l : SystemMove} :
    createsSession l = true ↔ ∃ u, sessionOp σ l = some (.createSession u) := by
  constructor
  · intro h
    unfold createsSession at h
    split at h
    · exact ⟨_, rfl⟩
    · cases h
  · rintro ⟨u, hu⟩
    unfold sessionOp at hu
    split at hu
    · rfl
    · obtain ⟨s, _, hs⟩ := Option.map_eq_some_iff.mp hu
      cases hs
    · cases hu

/-! ### Session ids in use -/

/-- Session ids in use are among those issued, and the index is sound. -/
structure Numbered (m : BlobSessionManager) : Prop where
  issued : ∀ s, m.Live s → s ≤ m.sessionId
  index : m.IndexSound

theorem numbered_empty : Numbered .empty := by
  constructor
  · rintro s ⟨impl, hs⟩
    simp [BlobSessionManager.empty] at hs
  · intro t s hs
    simp [BlobSessionManager.empty] at hs

theorem Numbered.fresh (h : Numbered m) (hroom : m.sessionId + 1 < 2^64) :
    ¬ m.Live (add64 m.sessionId 1) := by
  intro hl
  have hle := h.issued _ hl
  rw [add64_of_lt hroom] at hle
  omega

theorem Numbered.keeps {m' : BlobSessionManager} (h : Numbered m) (hk : KeepsSessions m m') :
    Numbered m' := by
  constructor
  · intro s hs
    rw [hk.sessionId]
    exact h.issued s ((hk.live s).mp hs)
  · intro t s hs
    rw [hk.index] at hs
    exact (hk.owner s _).mpr (h.index t s hs)

theorem numbered_sessionStep {op : SessionOp} {m' : BlobSessionManager} (h : Numbered m)
    (hroom : op.creates = true → m.sessionId + 1 < 2^64) (hstep : sessionStep op m = some m') :
    Numbered m' := by
  cases op with
  | createSession u =>
    cases hstep
    have hlt := hroom rfl
    refine ⟨fun s hs => ?_, BlobSessionManager.indexSound_createSession h.index (h.fresh hlt) u⟩
    show s ≤ add64 m.sessionId 1
    rcases (BlobSessionManager.live_createSession u).mp hs with hold | rfl
    · have hle := h.issued s hold
      rw [add64_of_lt hlt]
      omega
    · exact le_rfl
  | dispose s =>
    cases hstep
    refine ⟨fun r hr => ?_, BlobSessionManager.indexSound_dispose h.index s⟩
    simpa using h.issued r (BlobSessionManager.live_dispose.mp hr).1

theorem sessionStep_sessionId {op : SessionOp} {m' : BlobSessionManager}
    (hstep : sessionStep op m = some m') :
    (op.creates = false ∧ m'.sessionId = m.sessionId) ∨
      (op.creates = true ∧ m'.sessionId = add64 m.sessionId 1) := by
  cases op with
  | createSession u =>
    cases hstep
    exact Or.inr ⟨rfl, rfl⟩
  | dispose s =>
    cases hstep
    exact Or.inl ⟨rfl, BlobSessionManager.sessionId_dispose⟩

theorem numbered_sessionRun {ops : List SessionOp} {m' : BlobSessionManager}
    (h : Run sessionStep (fun _ _ => True) m ops m') (hm : Numbered m)
    (hcount : m.sessionId + ops.countP SessionOp.creates < 2^64) : Numbered m' :=
  (h.withRoom BlobSessionManager.sessionId (fun _ op => if op.creates then [op] else [])
    (fun m op m' hst => by
      rcases sessionStep_sessionId hst with ⟨hc, hid⟩ | ⟨hc, hid⟩
      · exact Or.inl ⟨by simp [hc], hid⟩
      · exact Or.inr ⟨by simp [hc], fun hlt => hid.trans (add64_of_lt hlt)⟩)
    (by rwa [h.length_observe])).invariant Numbered
    (fun m op m' hi hok hst => numbered_sessionStep hi (fun hc => hok.2 (by simp [hc])) hst) hm

theorem systemStep_sessionId {σ σ' : System} {l : SystemMove} (h : systemStep cfg l σ = some σ') :
    (createsSession l = false ∧ σ'.shared.manager.sessionId = σ.shared.manager.sessionId) ∨
      (createsSession l = true ∧
        σ'.shared.manager.sessionId = add64 σ.shared.manager.sessionId 1) := by
  rcases systemStep_sessions h with ⟨hnone, hkeep⟩ | ⟨op, hop, hstep⟩
  · refine Or.inl ⟨Bool.eq_false_iff.mpr fun hc => ?_, hkeep.sessionId⟩
    obtain ⟨u, hu⟩ := createsSession_iff.mp hc
    cases hnone.symm.trans hu
  · cases op with
    | createSession u =>
      have hm : (σ.shared.manager.createSession u).2 = σ'.shared.manager := Option.some.inj hstep
      exact Or.inr ⟨createsSession_iff.mpr ⟨u, hop⟩, by rw [← hm]; rfl⟩
    | dispose s =>
      have hm : σ.shared.manager.dispose s = σ'.shared.manager := Option.some.inj hstep
      refine Or.inl ⟨Bool.eq_false_iff.mpr fun hc => ?_,
        by rw [← hm, BlobSessionManager.sessionId_dispose]⟩
      obtain ⟨u, hu⟩ := createsSession_iff.mp hc
      cases hop.symm.trans hu

theorem numbered_systemStep {σ σ' : System} {l : SystemMove} (hσ : Numbered σ.shared.manager)
    (hroom : createsSession l = true → σ.shared.manager.sessionId + 1 < 2^64)
    (h : systemStep cfg l σ = some σ') : Numbered σ'.shared.manager := by
  rcases systemStep_sessions h with ⟨_, hkeep⟩ | ⟨op, hop, hstep⟩
  · exact hσ.keeps hkeep
  · refine numbered_sessionStep hσ (fun hc => hroom ?_) hstep
    cases op with
    | createSession u => exact createsSession_iff.mpr ⟨u, hop⟩
    | dispose s => cases hc

theorem numbered_run {σ₀ σ : System} {ls : List SystemMove} (h₀ : Initial cfg σ₀)
    (h : Run (systemStep cfg) (fun _ _ => True) σ₀ ls σ)
    (hcount : ls.countP createsSession < 2^64) : Numbered σ.shared.manager := by
  have hzero : σ₀.shared.manager.sessionId + ls.countP createsSession < 2^64 := by
    rw [h₀.1.manager, BlobSessionManager.empty, Nat.zero_add]
    exact hcount
  refine (h.withRoom (fun σ => σ.shared.manager.sessionId)
    (fun _ l => if createsSession l then [l] else []) (fun σ l σ' hst => ?_)
    (by rwa [h.length_observe])).invariant (fun σ => Numbered σ.shared.manager)
    (fun σ l σ' hi hok hst => numbered_systemStep hi (fun hc => hok.2 (by simp [hc])) hst) ?_
  · rcases systemStep_sessionId hst with ⟨hc, hid⟩ | ⟨hc, hid⟩
    · exact Or.inl ⟨by simp [hc], hid⟩
    · exact Or.inr ⟨by simp [hc], fun hlt => hid.trans (add64_of_lt hlt)⟩
  rw [h₀.1.manager]
  exact numbered_empty

/-! ### A `Get` while no session comes or goes -/

def GetPc.context : GetPc → Option GetContext
  | .ownerLookup ctx _ => some ctx
  | .ownerHeld ctx _ => some ctx
  | .resolving ctx => some ctx
  | .findHeld ctx => some ctx
  | .tagging ctx _ => some ctx
  | .tagHeld ctx _ => some ctx
  | _ => none

/-- The handler is neither about to check the session it found nor at its end. -/
def GetPc.passing : GetPc → Bool
  | .ownerLookup _ _ => false
  | .ownerHeld _ _ => false
  | .finished _ _ => false
  | _ => true

/-- The two exits that report the transaction of the session found. -/
def GetOutcome.Mismatch (o : GetOutcome) : Prop :=
  o = .returned GetStatus.otherTransaction ∨ o = .returned GetStatus.withoutTransaction

/-- Where a `Get` stands whose lookup by transaction found the session of it. -/
structure Settled (m : BlobSessionManager) (pc : GetPc) : Prop where
  context : ∀ ctx t, pc.context = some ctx → ctx.transactionId = some t →
    ctx.rawTransaction = false → m.Owner ctx.sessionId (some t)
  owner : ∀ ctx t, pc = .ownerLookup ctx t ∨ pc = .ownerHeld ctx t →
    ctx.transactionId = some t ∧ ctx.rawTransaction = false
  outcome : ∀ o written, pc = .finished o written → ¬ o.Mismatch

theorem getCatch_not_mismatch (e : Exn) : ¬ (getCatch e).Mismatch := by
  cases e <;> rintro (h | h) <;> cases h

theorem settled_finished {o : GetOutcome} {written : List GetStreamingResponse}
    (h : ¬ o.Mismatch) : Settled m (.finished o written) := by
  refine ⟨fun ctx t hc => ?_, ?_, fun o' written' he => ?_⟩
  · cases hc
  · rintro ctx t (hpc | hpc) <;> cases hpc
  · cases he
    exact h

/-- Past the owner check only the context matters. -/
theorem settled_of_context {pc : GetPc} (ctx : GetContext) (hpc : pc.context = some ctx)
    (hpass : pc.passing = true)
    (h : ∀ t, ctx.transactionId = some t → ctx.rawTransaction = false →
      m.Owner ctx.sessionId (some t)) : Settled m pc := by
  refine ⟨fun ctx' t hc => ?_, ?_, fun o written he => ?_⟩
  · cases hpc.symm.trans hc
    exact h t
  · rintro ctx' t (rfl | rfl) <;> cases hpass
  · subst he
    cases hpass

theorem settled_noContext {pc : GetPc} (hpc : pc.context = none) (hpass : pc.passing = true) :
    Settled m pc := by
  refine ⟨fun ctx t hc => ?_, ?_, fun o written he => ?_⟩
  · cases hpc.symm.trans hc
  · rintro ctx t (rfl | rfl) <;> cases hpc
  · subst he
    cases hpass

theorem settled_afterContext (hm : m.IndexSound) {c : Option ContextId} {ctx : GetContext}
    (h : readContext m c = .ok ctx) : Settled m (GetPc.afterContext ctx) := by
  cases c with
  | none => cases h
  | some c =>
    cases c with
    | sessionId s =>
      cases h
      refine settled_of_context ⟨s, none, false⟩ rfl rfl fun t ht => ?_
      cases ht
    | transactionId t =>
      rw [readContext_transaction] at h
      cases hs : m.blobSessionIds[t]? with
      | none =>
        rw [hs] at h
        cases h
        refine settled_of_context ⟨0, some t, true⟩ rfl rfl fun u _ hraw => ?_
        cases hraw
      | some s =>
        rw [hs] at h
        cases h
        refine ⟨fun ctx u hc hu _ => ?_, ?_, fun o written he => GetPc.noConfusion he⟩
        · cases hc
          cases hu
          exact hm t s hs
        · rintro ctx u (hpc | hpc) <;> cases hpc
          exact ⟨rfl, rfl⟩

theorem settled_getStepped {request : GetStreamingRequest} {pc pc' : GetPc}
    (h : GetStepped cfg f request w pc pc') (hw : w.manager.IndexSound)
    (hpc : Settled w.manager pc) : Settled w.manager pc' := by
  cases h with
  | raised => exact settled_finished (getCatch_not_mismatch _)
  | denied _ hother hwithout =>
    refine settled_finished fun hbad => ?_
    rcases hbad with hbad | hbad
    · exact hother (GetOutcome.returned.inj hbad)
    · exact hwithout (GetOutcome.returned.inj hbad)
  | contextRead hctx => exact settled_afterContext hw hctx
  | @ownerFound ctx t _ =>
    refine ⟨fun ctx' u hc => ?_, ?_, fun o written he => GetPc.noConfusion he⟩
    · cases hc
      exact hpc.context ctx u rfl
    · rintro ctx' u (hc | hc) <;> cases hc
      exact hpc.owner ctx t (Or.inl rfl)
  | @ownerChecked ctx t impl hs =>
    -- the session found has the transaction it was found by
    obtain ⟨htx, hraw⟩ := hpc.owner ctx t (Or.inr rfl)
    have howner := hpc.context ctx t rfl htx hraw
    have ht : some t = impl.transactionIdOpt := howner.unique ⟨impl, hs, rfl⟩
    have hcheck : ownerCheck impl.transactionIdOpt t = .ok () := by simp [ownerCheck, ← ht]
    rw [hcheck]
    exact settled_of_context ctx rfl rfl fun u => hpc.context ctx u rfl
  | @sessionFound ctx => exact settled_of_context ctx rfl rfl fun u => hpc.context ctx u rfl
  | @datastorePath ctx => exact settled_of_context ctx rfl rfl fun u => hpc.context ctx u rfl
  | @blobFound ctx => exact settled_of_context ctx rfl rfl fun u => hpc.context ctx u rfl
  | @tagSession ctx => exact settled_of_context ctx rfl rfl fun u => hpc.context ctx u rfl
  | ended =>
    refine settled_finished fun hbad => ?_
    rcases hbad with hbad | hbad <;> cases hbad
  | _ => exact settled_noContext rfl rfl

theorem Settled.keeps {m' : BlobSessionManager} {pc : GetPc} (h : Settled m pc)
    (hk : KeepsSessions m m') : Settled m' pc :=
  ⟨fun ctx t hc ht hraw => (hk.owner _ _).mpr (h.context ctx t hc ht hraw), h.owner, h.outcome⟩

theorem settled_systemStep {σ σ' : System} {l : SystemMove} {i : ℕ} {request : GetStreamingRequest}
    (h : systemStep cfg l σ = some σ') (hl : sessionOp σ l = none)
    (hm : σ.shared.manager.IndexSound)
    (hpc : ∃ pc, σ.threads[i]? = some (.get request pc) ∧ Settled σ.shared.manager pc) :
    σ'.shared.manager.IndexSound ∧
      ∃ pc, σ'.threads[i]? = some (.get request pc) ∧ Settled σ'.shared.manager pc := by
  have hkeep : KeepsSessions σ.shared.manager σ'.shared.manager := by
    rcases systemStep_sessions h with ⟨_, hkeep⟩ | ⟨op, hop, _⟩
    · exact hkeep
    · cases hl.symm.trans hop
  have hm' : σ'.shared.manager.IndexSound := by
    intro t s hs
    rw [hkeep.index] at hs
    exact (hkeep.owner s _).mpr (hm t s hs)
  obtain ⟨pc, hi, hpc⟩ := hpc
  refine ⟨hm', ?_⟩
  cases l with
  | env a =>
    obtain ⟨w₁, _, rfl⟩ := Pool.step_env h
    exact ⟨pc, hi, hpc.keeps hkeep⟩
  | call c =>
    obtain rfl := Pool.step_call h
    refine ⟨pc, ?_, hpc⟩
    obtain ⟨hlt, _⟩ := List.getElem?_eq_some_iff.mp hi
    rw [List.getElem?_append_left hlt]
    exact hi
  | run j f =>
    obtain ⟨t, w₁, t', ht, hstep, rfl⟩ := Pool.step_run h
    by_cases hij : j = i
    · subst hij
      obtain rfl := Option.some.inj (hi.symm.trans ht)
      obtain ⟨rfl, pc', rfl, hget⟩ := handlerStep_get hstep
      obtain ⟨hlt, _⟩ := List.getElem?_eq_some_iff.mp ht
      exact ⟨pc', by simp [hlt], settled_getStepped hget hm hpc⟩
    · exact ⟨pc, by simpa [List.getElem?_set_ne hij] using hi, hpc.keeps hkeep⟩

/-! ### Lookups are sound -/

/-- In every run of creations and disposals that creates fewer than 2^64 sessions, a
session found by a transaction is live and of that transaction. So a `Get` that no
creation or disposal accompanies never ends with a mismatching or missing session
transaction, and its later lookups of the session it found succeed. -/
theorem lookup_sound :
    (∀ (ops : List SessionOp) (m : BlobSessionManager),
      Run sessionStep (fun _ _ => True) .empty ops m → ops.countP SessionOp.creates < 2^64 →
      ∀ t s, m.getSessionId t = .ok s → m.Owner s (some t)) ∧
    ∀ (cfg : Config) (σ₀ σ σ' : System) (ls ls' : List SystemMove) (i : ℕ)
      (request : GetStreamingRequest) (pc : GetPc), Initial cfg σ₀ →
      Run (systemStep cfg) (fun _ _ => True) σ₀ ls σ → ls.countP createsSession < 2^64 →
      σ.threads[i]? = some (.get request .called) →
      Run (systemStep cfg) (fun σ l => sessionOp σ l = none) σ ls' σ' →
      σ'.threads[i]? = some (.get request pc) →
      (∀ o written, pc = .finished o written → ¬ o.Mismatch) ∧
        ∀ ctx t, pc.context = some ctx → ctx.transactionId = some t → ctx.rawTransaction = false →
          ∃ impl, σ'.shared.manager.getSessionImpl ctx.sessionId = .ok impl ∧
            impl.transactionIdOpt = some t := by
  constructor
  · intro ops m hrun hcount t s hs
    have hm := numbered_sessionRun hrun numbered_empty
      (by simpa [BlobSessionManager.empty] using hcount)
    exact hm.index t s (BlobSessionManager.getSessionId_ok_iff.mp hs)
  · intro cfg σ₀ σ σ' ls ls' i request pc h₀ hrun hcount hi hrun' hi'
    have hm := numbered_run h₀ hrun hcount
    have hstart : Settled σ.shared.manager GetPc.called := settled_noContext rfl rfl
    obtain ⟨_, pc', hpc', hset⟩ := hrun'.invariant
      (fun σ => σ.shared.manager.IndexSound ∧
        ∃ pc, σ.threads[i]? = some (.get request pc) ∧ Settled σ.shared.manager pc)
      (fun _ _ _ hinv hok hst => settled_systemStep hst hok hinv.1 hinv.2)
      ⟨hm.index, _, hi, hstart⟩
    cases hi'.symm.trans hpc'
    refine ⟨hset.outcome, fun ctx t hc ht hraw => ?_⟩
    obtain ⟨impl, hs, htx⟩ := hset.context ctx t hc ht hraw
    exact ⟨impl, BlobSessionManager.getSessionImpl_of_some hs, htx⟩

def lookupFive : GetStreamingRequest := ⟨1, some (.transactionId 5), ⟨0, 1, 0⟩⟩

/-- Two sessions share transaction 5; a `Get` by it finds the first of them. -/
theorem lookup_sound_shared :
    (∃ m, Run sessionStep (fun _ _ => True) .empty
        [.createSession (some 5), .createSession (some 5)] m ∧ m.Owner 1 (some 5)) ∧
      ∃ (σ' : System) (pc : GetPc), σ'.threads[0]? = some (.get lookupFive pc) ∧
        pc.context = some ⟨1, some 5, false⟩ ∧
        ∃ impl, σ'.shared.manager.getSessionImpl 1 = .ok impl ∧ impl.transactionIdOpt = some 5 := by
  constructor
  · refine ⟨_, .cons trivial rfl (.cons trivial rfl (.nil _)), ?_⟩
    exact lookup_sound.1 [.createSession (some 5), .createSession (some 5)] _
      (.cons trivial rfl (.cons trivial rfl (.nil _))) (by decide) 5 1
      (BlobSessionManager.getSessionId_ok_iff.mpr (by decide))
  · have hcalled : Run (systemStep smallConfig) (fun _ _ => True) smallStart
        [.env (.createSession (some 5)), .call (.get lookupFive)]
        ⟨(oneSession (some 5)).shared, [.get lookupFive .called]⟩ :=
      .cons trivial rfl (.cons trivial rfl (.nil _))
    have hfound : getPcStep smallConfig .none lookupFive (oneSession (some 5)).shared .called =
        some (.ownerLookup ⟨1, some 5, false⟩ 5) := by decide
    have hlooked : Run (systemStep smallConfig) (fun σ l => sessionOp σ l = none)
        ⟨(oneSession (some 5)).shared, [.get lookupFive .called]⟩ [.run 0 .none]
        ⟨(oneSession (some 5)).shared, [.get lookupFive (.ownerLookup ⟨1, some 5, false⟩ 5)]⟩ :=
      .cons rfl (by simp [systemStep, Pool.step, handlerStep, hfound]) (.nil _)
    exact ⟨_, _, rfl, rfl, (lookup_sound.2 smallConfig smallStart _ _ _ _ 0 lookupFive _
      smallStart_initial hcalled (by decide) rfl hlooked rfl).2 _ 5 rfl rfl rfl⟩

/-- Creations without a transaction: the counter goes round, the index stays as it is,
and whoever is live stays so. -/
theorem createSession_replicate (n : ℕ) (m : BlobSessionManager) (hlt : m.sessionId < 2^64) :
    ∃ m', Run sessionStep (fun _ op => op.creates = true) m
        (.replicate n (.createSession none)) m' ∧
      m'.sessionId = add64 m.sessionId n ∧ m'.blobSessionIds = m.blobSessionIds ∧
      ∀ s u, m.Owner s u → m'.Owner s u := by
  induction n generalizing m with
  | zero => exact ⟨m, .nil m, (add64_of_lt (b := 0) hlt).symm, rfl, fun _ _ h => h⟩
  | succ n ih =>
    obtain ⟨m', hrun, hid, hindex, howner⟩ := ih (m.createSession none).2 (add64_lt _ _)
    refine ⟨m', .cons rfl rfl hrun, ?_, hindex, fun s u h => howner s u ?_⟩
    · rw [hid]
      show add64 (add64 m.sessionId 1) n = _
      unfold add64
      omega
    · exact BlobSessionManager.owner_createSession_of_owner none h

/-- After 2^64 creations the next session takes the id of the first one, which is
live and has no transaction, and enters it in the index. -/
theorem createSession_wraps : ∃ ops m,
    Run sessionStep (fun _ op => op.creates = true) BlobSessionManager.empty ops m ∧
      m.getSessionId 5 = .ok 1 ∧ m.Owner 1 none := by
  obtain ⟨m, hrun, hid, hindex, howner⟩ := createSession_replicate (2^64 - 1)
    (BlobSessionManager.empty.createSession none).2 (add64_lt _ _)
  have hzero : m.sessionId = 0 := by
    rw [hid]
    rfl
  have hfirst : m.Owner 1 none := howner 1 none (BlobSessionManager.owner_of_map (by decide))
  have hnext : add64 m.sessionId 1 = 1 := by rw [hzero]; rfl
  have hlast : sessionStep (.createSession (some 5)) m = some (m.createSession (some 5)).2 := rfl
  have hall : Run sessionStep (fun _ op => op.creates = true) BlobSessionManager.empty
      (.createSession none :: (_ ++ [.createSession (some 5)])) (m.createSession (some 5)).2 :=
    .cons rfl rfl (hrun.append (.cons rfl hlast (.nil _)))
  refine ⟨_, _, hall, ?_,
    BlobSessionManager.owner_createSession_of_owner (some 5) hfirst⟩
  rw [BlobSessionManager.getSessionId_ok_iff, BlobSessionManager.index_createSession, if_pos rfl,
    hindex, hnext]
  rfl

theorem lookup_unsound : ¬ ∀ (ops : List SessionOp) (m : BlobSessionManager),
    Run sessionStep (fun _ _ => True) .empty ops m →
    ∀ t s, m.getSessionId t = .ok s → m.Owner s (some t) := by
  intro h
  obtain ⟨ops, m, hrun, hfound, hfirst⟩ := createSession_wraps
  have howner := h ops m (hrun.mono fun _ _ _ => trivial) 5 1 hfound
  cases howner.unique hfirst

end BlobRelay
