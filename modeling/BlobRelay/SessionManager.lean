import BlobRelay.SessionStore
import BlobRelay.Foundation.OrderedMap

/-! # The session manager (session_manager.h, session_manager.cpp)

The state behind every session: the two counters, the map of live sessions, the
index of sessions by transaction, and the usage counter of the session store. A
`blob_session_impl` lives in the map under its own session id, so a reference to
it is that id. -/

namespace BlobRelay
open Std Foundation.FileStore Foundation.OrderedMap

/-- `blob_session_impl`: `session_id_` is the key it is kept under. -/
structure BlobSessionImpl where
  transactionIdOpt : Option TransactionId
  blobs : ExtTreeMap ℕ (Path × ℕ)

/-- The recorded sizes of a session's entries. -/
def BlobSessionImpl.recordedSize (impl : BlobSessionImpl) : ℕ := total Prod.snd impl.blobs

structure BlobSessionManager where
  currentSize : ℕ
  sessionId : ℕ
  blobId : ℕ
  blobSessions : ExtTreeMap ℕ BlobSessionImpl
  blobSessionIds : ExtTreeMap TransactionId ℕ

/-- The service's state and the file system it works on. -/
structure World where
  manager : BlobSessionManager
  files : Files

def mockTag : BlobTag := 0xffffffffffffffff

/-- `throw std::out_of_range` of the two lookups by session id. -/
def noSession : Exn := .outOfRange "can not find the session specified"

def noTransaction : Exn := .outOfRange "can not find the session specified by the transaction_id"

namespace BlobSessionManager

def empty : BlobSessionManager := ⟨0, 0, 0, ∅, ∅⟩

def createSession (m : BlobSessionManager) (transactionIdOpt : Option TransactionId) :
    ℕ × BlobSessionManager :=
  let sessionId := add64 m.sessionId 1
  (sessionId,
    {m with
      sessionId := sessionId
      blobSessions := m.blobSessions.insertIfNew sessionId ⟨transactionIdOpt, ∅⟩
      blobSessionIds := match transactionIdOpt with
        | some t => m.blobSessionIds.insertIfNew t sessionId
        | none => m.blobSessionIds})

/-- `get_session` and `get_session_impl`: both find the session or throw. -/
def getSessionImpl (m : BlobSessionManager) (s : ℕ) : Except Exn BlobSessionImpl :=
  match m.blobSessions[s]? with
  | some impl => .ok impl
  | none => .error noSession

/-- `dispose`: the index entry goes by transaction id, whichever session it names. -/
def dispose (m : BlobSessionManager) (s : ℕ) : BlobSessionManager :=
  match m.blobSessions[s]? with
  | some impl =>
    {m with
      blobSessionIds := match impl.transactionIdOpt with
        | some t => m.blobSessionIds.erase t
        | none => m.blobSessionIds
      blobSessions := m.blobSessions.erase s}
  | none => m

def getSessionId (m : BlobSessionManager) (t : TransactionId) : Except Exn ℕ :=
  match m.blobSessionIds[t]? with
  | some s => .ok s
  | none => .error noTransaction

def getNewBlobId (m : BlobSessionManager) : ℕ × BlobSessionManager :=
  (add64 m.blobId 1, {m with blobId := add64 m.blobId 1})

/-- An update through a reference to a session. -/
def updateSession (m : BlobSessionManager) (s : ℕ)
    (f : BlobSessionImpl → BlobSessionImpl) : BlobSessionManager :=
  {m with blobSessions := m.blobSessions.modify s f}

/-! ### What the maps say -/

/-- The recorded sizes of all entries of all live sessions. -/
def recordedTotal (m : BlobSessionManager) : ℕ :=
  total BlobSessionImpl.recordedSize m.blobSessions

def Live (m : BlobSessionManager) (s : ℕ) : Prop := ∃ impl, m.blobSessions[s]? = some impl

/-- Session `s` is live and maps blob `b` to the path and recorded size `e`. -/
def Entry (m : BlobSessionManager) (s : ℕ) (b : ℕ) (e : Path × ℕ) : Prop :=
  ∃ impl, m.blobSessions[s]? = some impl ∧ impl.blobs[b]? = some e

/-- The path that `find` returns for blob `b` of session `s`, when the session is live. -/
def pathOf (m : BlobSessionManager) (s b : ℕ) : Option Path :=
  m.blobSessions[s]?.bind fun impl => impl.blobs[b]?.map Prod.fst

/-- Session `s` is live and was created with `t`. -/
def Owner (m : BlobSessionManager) (s : ℕ) (t : Option TransactionId) : Prop :=
  ∃ impl, m.blobSessions[s]? = some impl ∧ impl.transactionIdOpt = t

variable {m : BlobSessionManager} {s : ℕ}

theorem Entry.live {b : ℕ} {e : Path × ℕ} (h : m.Entry s b e) : m.Live s := by
  obtain ⟨impl, hs, _⟩ := h
  exact ⟨impl, hs⟩

theorem Entry.unique {b : ℕ} {e e' : Path × ℕ} (h : m.Entry s b e) (h' : m.Entry s b e') :
    e = e' := by
  obtain ⟨impl, hs, hb⟩ := h
  obtain ⟨impl', hs', hb'⟩ := h'
  have hi : impl = impl' := Option.some.inj (hs.symm.trans hs')
  subst hi
  exact Option.some.inj (hb.symm.trans hb')

theorem Entry.pathOf {b : ℕ} {e : Path × ℕ} (h : m.Entry s b e) : m.pathOf s b = some e.1 := by
  obtain ⟨impl, hs, hb⟩ := h
  simp only [BlobSessionManager.pathOf, hs, Option.bind_some, hb, Option.map_some]

theorem owner_of_map {t : Option TransactionId}
    (h : m.blobSessions[s]?.map (·.transactionIdOpt) = some t) : m.Owner s t := by
  obtain ⟨impl, hs, ht⟩ := Option.map_eq_some_iff.mp h
  exact ⟨impl, hs, ht⟩

theorem Owner.live {t : Option TransactionId} (h : m.Owner s t) : m.Live s := by
  obtain ⟨impl, hs, _⟩ := h
  exact ⟨impl, hs⟩

theorem Owner.unique {t t' : Option TransactionId} (h : m.Owner s t) (h' : m.Owner s t') :
    t = t' := by
  obtain ⟨impl, hs, ht⟩ := h
  obtain ⟨impl', hs', ht'⟩ := h'
  have hi : impl = impl' := Option.some.inj (hs.symm.trans hs')
  subst hi
  exact ht.symm.trans ht'

theorem getSessionImpl_ok {impl : BlobSessionImpl} (h : m.getSessionImpl s = .ok impl) :
    m.blobSessions[s]? = some impl := by
  unfold getSessionImpl at h
  split at h
  · rename_i i hi
    cases h
    exact hi
  · cases h

theorem getSessionImpl_of_some {impl : BlobSessionImpl} (h : m.blobSessions[s]? = some impl) :
    m.getSessionImpl s = .ok impl := by
  simp only [getSessionImpl, h]

theorem getSessionImpl_error {e : Exn} (h : m.getSessionImpl s = .error e) :
    e = noSession ∧ ¬ m.Live s := by
  unfold getSessionImpl at h
  split at h
  · cases h
  · rename_i hn
    cases h
    exact ⟨rfl, fun ⟨impl, hi⟩ => by simp [hn] at hi⟩

theorem getSessionImpl_of_not_live (h : ¬ m.Live s) : m.getSessionImpl s = .error noSession := by
  unfold getSessionImpl
  split
  · rename_i impl hi
    exact absurd ⟨impl, hi⟩ h
  · rfl

theorem Entry.size_le {b : ℕ} {e : Path × ℕ} (h : m.Entry s b e) :
    e.2 ≤ m.recordedTotal := by
  obtain ⟨impl, hs, hb⟩ := h
  have hentry := weight_le_total Prod.snd impl.blobs b
  have himpl := weight_le_total BlobSessionImpl.recordedSize m.blobSessions s
  rw [hb, weight_some] at hentry
  rw [hs, weight_some] at himpl
  exact hentry.trans himpl

/-! ### Sessions come -/

theorem recordedTotal_createSession (t : Option TransactionId) :
    (m.createSession t).2.recordedTotal = m.recordedTotal :=
  total_insertIfNew_zero _ _ _ _ (total_empty Prod.snd)

theorem entry_createSession (t : Option TransactionId) {b : ℕ} {e : Path × ℕ} :
    (m.createSession t).2.Entry s b e ↔ m.Entry s b e := by
  simp only [Entry, createSession, get_insertIfNew]
  by_cases hs : add64 m.sessionId 1 = s
  · subst hs
    cases hm : m.blobSessions[add64 m.sessionId 1]? with
    | none => simp
    | some impl => simp
  · simp [hs]

theorem live_createSession (t : Option TransactionId) :
    (m.createSession t).2.Live s ↔ m.Live s ∨ s = add64 m.sessionId 1 := by
  simp only [Live, createSession, get_insertIfNew]
  by_cases hs : add64 m.sessionId 1 = s
  · simp [hs]
  · simp [hs, Ne.symm hs]

theorem owner_createSession {t u : Option TransactionId} (hnew : ¬ m.Live (add64 m.sessionId 1)) :
    (m.createSession t).2.Owner s u ↔
      m.Owner s u ∨ (s = add64 m.sessionId 1 ∧ u = t) := by
  simp only [Owner, createSession, get_insertIfNew]
  by_cases hs : add64 m.sessionId 1 = s
  · subst hs
    have hn : m.blobSessions[add64 m.sessionId 1]? = none :=
      Option.eq_none_iff_forall_ne_some.mpr fun impl hi => hnew ⟨impl, hi⟩
    simp [hn, eq_comm]
  · simp [hs, Ne.symm hs]

theorem owner_createSession_of_owner (t : Option TransactionId) {u : Option TransactionId}
    (h : m.Owner s u) : (m.createSession t).2.Owner s u := by
  obtain ⟨impl, hs, hu⟩ := h
  refine ⟨impl, ?_, hu⟩
  simp only [createSession, get_insertIfNew]
  by_cases hne : add64 m.sessionId 1 = s
  · subst hne
    simp [hs]
  · simp [hne, hs]

theorem index_createSession (t : Option TransactionId) (u : TransactionId) :
    (m.createSession t).2.blobSessionIds[u]? =
      if t = some u then some ((m.blobSessionIds[u]?).getD (add64 m.sessionId 1))
      else m.blobSessionIds[u]? := by
  cases t with
  | none => simp [createSession]
  | some v =>
    simp only [createSession, get_insertIfNew, Option.some.injEq]
    by_cases hv : v = u
    · simp [hv]
    · simp [hv]

/-! ### Sessions go -/

@[simp] theorem currentSize_dispose : (m.dispose s).currentSize = m.currentSize := by
  unfold dispose
  split <;> rfl

@[simp] theorem blobId_dispose : (m.dispose s).blobId = m.blobId := by
  unfold dispose
  split <;> rfl

@[simp] theorem sessionId_dispose : (m.dispose s).sessionId = m.sessionId := by
  unfold dispose
  split <;> rfl

theorem get_dispose (r : ℕ) :
    (m.dispose s).blobSessions[r]? = if s = r then none else m.blobSessions[r]? := by
  unfold dispose
  split
  · simp
  · rename_i hn
    by_cases hr : s = r
    · subst hr
      simp [hn]
    · simp [hr]

theorem entry_dispose {r : ℕ} {b : ℕ} {e : Path × ℕ} :
    (m.dispose s).Entry r b e ↔ m.Entry r b e ∧ r ≠ s := by
  simp only [Entry, get_dispose]
  by_cases hr : s = r
  · simp [hr]
  · simp [hr, Ne.symm hr]

theorem live_dispose {r : ℕ} : (m.dispose s).Live r ↔ m.Live r ∧ r ≠ s := by
  simp only [Live, get_dispose]
  by_cases hr : s = r
  · simp [hr]
  · simp [hr, Ne.symm hr]

theorem owner_dispose {r : ℕ} {t : Option TransactionId} :
    (m.dispose s).Owner r t ↔ m.Owner r t ∧ r ≠ s := by
  simp only [Owner, get_dispose]
  by_cases hr : s = r
  · simp [hr]
  · simp [hr, Ne.symm hr]

theorem recordedTotal_dispose :
    (m.dispose s).recordedTotal +
      weight BlobSessionImpl.recordedSize m.blobSessions[s]? = m.recordedTotal := by
  unfold dispose
  split
  · exact total_erase _ _ _
  · rename_i hn
    rw [hn, weight_none, Nat.add_zero]

/-- Disposing `s` forgets the index entry of its own transaction id. -/
theorem index_dispose (u : TransactionId) :
    ((m.dispose s).blobSessionIds[u]? = none ∧ m.Owner s (some u)) ∨
      ((m.dispose s).blobSessionIds[u]? = m.blobSessionIds[u]? ∧ ¬ m.Owner s (some u)) := by
  unfold dispose
  split
  · rename_i impl hs
    cases ht : impl.transactionIdOpt with
    | none =>
      right
      refine ⟨rfl, fun ⟨i, hi, hu⟩ => ?_⟩
      have he : impl = i := Option.some.inj (hs.symm.trans hi)
      simp [← he, ht] at hu
    | some t =>
      by_cases htu : t = u
      · subst htu
        exact Or.inl ⟨by simp, impl, hs, ht⟩
      · right
        refine ⟨by simp [htu], fun ⟨i, hi, hu⟩ => ?_⟩
        have he : impl = i := Option.some.inj (hs.symm.trans hi)
        rw [← he, ht] at hu
        exact htu (Option.some.inj hu)
  · rename_i hn
    exact Or.inr ⟨rfl, fun ⟨i, hi, _⟩ => by simp [hn] at hi⟩

/-! ### The index of transactions -/

/-- The index names only live sessions, each by its own transaction. -/
def IndexSound (m : BlobSessionManager) : Prop :=
  ∀ t s, m.blobSessionIds[t]? = some s → m.Owner s (some t)

theorem indexSound_createSession (h : m.IndexSound) (hnew : ¬ m.Live (add64 m.sessionId 1))
    (u : Option TransactionId) : (m.createSession u).2.IndexSound := by
  intro t s hs
  rw [index_createSession] at hs
  refine (owner_createSession hnew).mpr ?_
  split at hs
  · rename_i hu
    cases hold : m.blobSessionIds[t]? with
    | none =>
      rw [hold, Option.getD_none, Option.some.injEq] at hs
      exact Or.inr ⟨hs.symm, hu.symm⟩
    | some r =>
      rw [hold, Option.getD_some, Option.some.injEq] at hs
      exact Or.inl (hs ▸ h t r hold)
  · exact Or.inl (h t s hs)

theorem indexSound_dispose (h : m.IndexSound) (s : ℕ) : (m.dispose s).IndexSound := by
  intro t r hr
  rcases index_dispose (m := m) (s := s) t with ⟨hnone, _⟩ | ⟨hsame, hother⟩
  · rw [hnone] at hr
    cases hr
  · rw [hsame] at hr
    have ho := h t r hr
    refine owner_dispose.mpr ⟨ho, ?_⟩
    rintro rfl
    exact hother ho

/-! ### Updates through a reference -/

theorem get_updateSession (f : BlobSessionImpl → BlobSessionImpl) (r : ℕ) :
    (m.updateSession s f).blobSessions[r]? =
      if s = r then m.blobSessions[s]?.map f else m.blobSessions[r]? :=
  get_modify _ _ _ _

theorem owner_updateSession {f : BlobSessionImpl → BlobSessionImpl}
    (hf : ∀ i, (f i).transactionIdOpt = i.transactionIdOpt) {r : ℕ}
    {t : Option TransactionId} : (m.updateSession s f).Owner r t ↔ m.Owner r t := by
  simp only [Owner, get_updateSession]
  by_cases hr : s = r
  · subst hr
    cases m.blobSessions[s]? <;> simp [hf]
  · simp [hr]

theorem entry_updateSession (f : BlobSessionImpl → BlobSessionImpl) {r : ℕ} {b : ℕ}
    {e : Path × ℕ} :
    (m.updateSession s f).Entry r b e ↔
      if s = r then ∃ impl, m.blobSessions[s]? = some impl ∧ (f impl).blobs[b]? = some e
      else m.Entry r b e := by
  simp only [Entry, get_updateSession]
  by_cases hr : s = r
  · subst hr
    cases m.blobSessions[s]? <;> simp
  · simp [hr]

theorem recordedTotal_updateSession {impl : BlobSessionImpl} (hs : m.blobSessions[s]? = some impl)
    (f : BlobSessionImpl → BlobSessionImpl) :
    (m.updateSession s f).recordedTotal + impl.recordedSize =
      m.recordedTotal + (f impl).recordedSize := by
  have h := total_modify BlobSessionImpl.recordedSize m.blobSessions s f
  rw [hs, Option.map_some, weight_some, weight_some] at h
  exact h

end BlobSessionManager
end BlobRelay
