import BlobRelay.SessionManager
import BlobRelay.Foundation.Run

/-! # The index of sessions by transaction

`create_session` keeps an index entry that is there, and `dispose` removes the
entry of its transaction id whichever session it names. The index stays complete
exactly as long as no session is disposed while another one shares its
transaction. -/

namespace BlobRelay
open Foundation

inductive SessionOp
  | createSession (transactionIdOpt : Option TransactionId)
  | dispose (s : ℕ)
  deriving DecidableEq

def sessionStep : SessionOp → BlobSessionManager → Option BlobSessionManager
  | .createSession t, m => some (m.createSession t).2
  | .dispose s, m => some (m.dispose s)

namespace BlobSessionManager

/-- Whoever asks for the transaction of a live session gets a live session of it. -/
def IndexComplete (m : BlobSessionManager) : Prop :=
  ∀ s t, m.Owner s (some t) → ∃ r, m.getSessionId t = .ok r ∧ m.Owner r (some t)

/-- No other live session has the transaction of `s`. -/
def SoleOwner (m : BlobSessionManager) (s : ℕ) : Prop :=
  ∀ t r, m.Owner s (some t) → m.Owner r (some t) → r = s

variable {m : BlobSessionManager} {s : ℕ}

theorem getSessionId_ok_iff {t : TransactionId} :
    m.getSessionId t = .ok s ↔ m.blobSessionIds[t]? = some s := by
  unfold getSessionId
  cases m.blobSessionIds[t]? <;> simp

theorem indexComplete_of_indexed (hsound : m.IndexSound)
    (h : ∀ s t, m.Owner s (some t) → m.blobSessionIds[t]? ≠ none) : m.IndexComplete := by
  intro s t hs
  obtain ⟨r, hr⟩ := Option.ne_none_iff_exists'.mp (h s t hs)
  exact ⟨r, getSessionId_ok_iff.mpr hr, hsound t r hr⟩

theorem IndexComplete.indexed (h : m.IndexComplete) {t : TransactionId} (hs : m.Owner s (some t)) :
    ∃ r, m.blobSessionIds[t]? = some r := by
  obtain ⟨r, hr, _⟩ := h s t hs
  exact ⟨r, getSessionId_ok_iff.mp hr⟩

theorem indexComplete_createSession (hsound : m.IndexSound) (h : m.IndexComplete)
    (hnew : ¬ m.Live (add64 m.sessionId 1)) (u : Option TransactionId) :
    (m.createSession u).2.IndexComplete := by
  refine indexComplete_of_indexed (indexSound_createSession hsound hnew u) fun s t hs => ?_
  rw [index_createSession]
  split
  · exact Option.some_ne_none _
  · rename_i hu
    rcases (owner_createSession hnew).mp hs with hold | ⟨_, ht⟩
    · obtain ⟨r, hr⟩ := h.indexed hold
      simp [hr]
    · exact absurd ht.symm hu

/-- Disposing a session keeps the index complete exactly when nobody shares its
transaction. -/
theorem indexComplete_dispose_iff (hsound : m.IndexSound) (h : m.IndexComplete) (s : ℕ) :
    (m.dispose s).IndexComplete ↔ m.SoleOwner s := by
  constructor
  · intro hcomplete t r hs hr
    by_contra hne
    obtain ⟨q, hq⟩ := hcomplete.indexed (owner_dispose.mpr ⟨hr, hne⟩)
    rcases index_dispose (m := m) (s := s) t with ⟨hnone, _⟩ | ⟨_, hother⟩
    · rw [hnone] at hq
      cases hq
    · exact hother hs
  · intro hsole
    refine indexComplete_of_indexed (indexSound_dispose hsound s) fun r t hr => ?_
    obtain ⟨hold, hne⟩ := owner_dispose.mp hr
    rcases index_dispose (m := m) (s := s) t with ⟨_, hs⟩ | ⟨hsame, _⟩
    · exact absurd (hsole t r hs hold) hne
    · obtain ⟨q, hq⟩ := h.indexed hold
      rw [hsame, hq]
      exact Option.some_ne_none q

end BlobSessionManager

/-- New sessions get an id that is not in use, and a session goes only while no
other has its transaction. -/
def UnsharedOp (m : BlobSessionManager) : SessionOp → Prop
  | .createSession _ => ¬ m.Live (add64 m.sessionId 1)
  | .dispose s => m.SoleOwner s

/-- In every run of creations and disposals of unshared transactions, the session
of a transaction is found by it. -/
theorem index_complete {m : BlobSessionManager} {ops : List SessionOp}
    (hrun : Run sessionStep UnsharedOp BlobSessionManager.empty ops m) : m.IndexComplete := by
  have hempty : ∀ s t, ¬ BlobSessionManager.empty.Owner s t := by
    rintro s t ⟨impl, hs, _⟩
    simp [BlobSessionManager.empty] at hs
  have hinv : m.IndexSound ∧ m.IndexComplete := by
    refine hrun.invariant (fun m => m.IndexSound ∧ m.IndexComplete) ?_ ⟨?_, ?_⟩
    · rintro m op m' ⟨hsound, hcomplete⟩ hok hstep
      cases op with
      | createSession t =>
        cases hstep
        exact ⟨BlobSessionManager.indexSound_createSession hsound hok t,
          BlobSessionManager.indexComplete_createSession hsound hcomplete hok t⟩
      | dispose s =>
        cases hstep
        exact ⟨BlobSessionManager.indexSound_dispose hsound s,
          (BlobSessionManager.indexComplete_dispose_iff hsound hcomplete s).mpr hok⟩
    · intro t s hs
      simp [BlobSessionManager.empty] at hs
    · exact fun s t hs => absurd hs (hempty s (some t))
  exact hinv.2

/-- Two sessions of transaction 5, the first of them disposed. -/
def sharedTransaction : List SessionOp :=
  [.createSession (some 5), .createSession (some 5), .dispose 1]

theorem index_incomplete : ¬ ∀ (ops : List SessionOp) (m : BlobSessionManager),
    Run sessionStep (fun _ _ => True) BlobSessionManager.empty ops m → m.IndexComplete := by
  intro h
  obtain ⟨m, hm, hend⟩ := (Option.any_eq_true
    (fun m : BlobSessionManager => m.blobSessions[2]?.map (·.transactionIdOpt) == some (some 5) &&
      m.blobSessionIds[5]?.isNone) _).mp
    (by decide : (exec sessionStep (fun _ _ => true) sharedTransaction
      BlobSessionManager.empty).any _ = true)
  simp only [Bool.and_eq_true, beq_iff_eq] at hend
  have hrun : Run sessionStep (fun _ _ => True) BlobSessionManager.empty sharedTransaction m :=
    .of_exec hm fun _ _ _ _ => trivial
  obtain ⟨r, hr⟩ := (h sharedTransaction m hrun).indexed (BlobSessionManager.owner_of_map hend.1)
  rw [hr] at hend
  cases hend.2

/-- Transaction 5 has one session throughout; the other session is of none. -/
def ownTransactions : List SessionOp :=
  [.createSession (some 5), .createSession none, .dispose 2]

theorem index_complete_ownTransactions : ∃ m r,
    Run sessionStep UnsharedOp BlobSessionManager.empty ownTransactions m ∧
      m.getSessionId 5 = .ok r ∧ m.Owner r (some 5) := by
  have hfresh : ∀ (m : BlobSessionManager) s, m.blobSessions[s]?.isNone = true → ¬ m.Live s := by
    rintro m s hnone ⟨impl, hs⟩
    rw [hs] at hnone
    cases hnone
  have hsole : (BlobSessionManager.createSession
      (BlobSessionManager.empty.createSession (some 5)).2 none).2.SoleOwner 2 := by
    intro t r hs
    have hnone := hs.unique (BlobSessionManager.owner_of_map (t := none) (by decide))
    cases hnone
  have hrun : Run sessionStep UnsharedOp BlobSessionManager.empty ownTransactions _ :=
    .cons (hfresh _ _ (by decide)) rfl
      (.cons (hfresh _ _ (by decide)) rfl (.cons hsole rfl (.nil _)))
  obtain ⟨r, hr, ho⟩ := index_complete hrun 1 5 (BlobSessionManager.owner_of_map (by decide))
  exact ⟨_, r, hrun, hr, ho⟩

end BlobRelay
