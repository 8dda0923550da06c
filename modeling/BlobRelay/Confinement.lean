import BlobRelay.Disposal
import BlobRelay.PutTrace

/-! # What a session leaves behind

A session changes the sessions, the entries, the files and the counter only by what its own
entries stand for. So when it is disposed everything is as before it was created, however its
uploads ended, but for the two id counters and the index entry of its transaction. -/

namespace BlobRelay
open Std Foundation Foundation.FileStore

/-- The counter has moved as the recorded sizes have; without a quota it does not move. -/
def MovesAlike (quota : ℕ) (m m' : BlobSessionManager) : Prop :=
  if quota = 0 then m'.currentSize = m.currentSize
  else (m'.currentSize + m.recordedTotal) % 2^64 = (m.currentSize + m'.recordedTotal) % 2^64

/-- From `w₀` to `w` only session `s` has been worked on. -/
structure Confined (cfg : Config) (s : ℕ) (w₀ w : World) : Prop where
  world : WorldInv cfg w
  blobId : w₀.manager.blobId ≤ w.manager.blobId
  sessions : KeepsSessions w₀.manager w.manager
  others : ∀ r c e, r ≠ s → (w.manager.Entry r c e ↔ w₀.manager.Entry r c e)
  own : ∀ c e, w.manager.Entry s c e → e.2 < 2^64 ∧ w₀.files.names e.1 = none
  files : ∀ p, (∀ c e, w.manager.Entry s c e → e.1 ≠ p) → w₀.files.SameAt w.files p
  counter : MovesAlike cfg.quota w₀.manager w.manager

/-- The session that an upload names. -/
def uploadSession : List PutStreamingRequest → Option SessionId
  | .metadata metadata :: _ => some metadata.sessionId
  | _ => none

/-- A call that works on session `s` only, and whose deletions do not throw. -/
def InSession (s : ℕ) (h : History) (c : SessionCall) : Prop :=
  Headroom h.world ∧
    match c with
    | .put env messages => env.deletes = .succeeds ∧ ∀ r ∈ uploadSession messages, r = s
    | .removeVector r _ _ _ => r = s
    | .removeList r _ => r = s
    | _ => False

instance (s : ℕ) (h : History) : ∀ c, Decidable (InSession s h c)
  | .put env messages => inferInstanceAs (Decidable (_ ∧ env.deletes = .succeeds ∧
      ∀ r ∈ uploadSession messages, r = s))
  | .removeVector r _ _ _ => inferInstanceAs (Decidable (_ ∧ r = s))
  | .removeList r _ => inferInstanceAs (Decidable (_ ∧ r = s))
  | .env _ => inferInstanceAs (Decidable (_ ∧ False))
  | .dispose _ => inferInstanceAs (Decidable (_ ∧ False))

variable {cfg : Config} {env : PutEnv} {s : ℕ} {w₀ w w' : World}

/-! ### The counter -/

theorem MovesAlike.refl (quota : ℕ) (m : BlobSessionManager) : MovesAlike quota m m := by
  unfold MovesAlike
  split <;> rfl

theorem MovesAlike.trans {quota : ℕ} {a b c : BlobSessionManager} (h : MovesAlike quota a b)
    (h' : MovesAlike quota b c) : MovesAlike quota a c := by
  unfold MovesAlike at h h' ⊢
  split
  · rename_i hq
    rw [if_pos hq] at h h'
    exact h'.trans h
  · rename_i hq
    rw [if_neg hq] at h h'
    omega

theorem MovesAlike.same {quota : ℕ} {m m' : BlobSessionManager}
    (hc : m'.currentSize = m.currentSize) (hr : m'.recordedTotal = m.recordedTotal) :
    MovesAlike quota m m' := by
  unfold MovesAlike
  rw [hc, hr]
  split <;> rfl

theorem movesAlike_erases {b : ℕ} {e : Path × ℕ} (hsize : e.2 < 2^64)
    (her : World.Erases cfg s b e w w') : MovesAlike cfg.quota w.manager w'.manager := by
  have hrec := her.recorded
  unfold MovesAlike
  rw [her.currentSize, release]
  split
  · rename_i hq
    rw [if_neg (not_not.mpr hq)]
  · rename_i hq
    rw [sub64, ← hrec]
    omega

theorem movesAlike_uploaded {chunks : List Bytes} (hup : Uploaded cfg env s chunks w w') :
    MovesAlike cfg.quota w.manager w'.manager := by
  have hrec := hup.recorded
  unfold MovesAlike
  rw [hup.currentSize, charged]
  split
  · rename_i hq
    rw [if_neg (not_not.mpr hq)]
  · rename_i hq
    rw [hrec]
    omega

/-! ### One call -/

theorem next_session_new (hw : WorldInv cfg w) (hroom : w.manager.sessionId + 1 < 2^64) :
    ¬ w.manager.Live (add64 w.manager.sessionId 1) := by
  intro hl
  have hle := (hw.sessionIds _ hl).2
  rw [add64_of_lt hroom] at hle
  omega

namespace Confined

/-- A session with no entries, before anything was done in it. -/
theorem start (hw : WorldInv cfg w) (hnone : ∀ c e, ¬ w.manager.Entry s c e) :
    Confined cfg s w w :=
  ⟨hw, le_rfl, .refl _, fun _ _ _ _ => Iff.rfl, fun c e he => absurd he (hnone c e),
    fun p _ => .refl _ p, .refl _ _⟩

theorem created {t : Option TransactionId} (hw : WorldInv cfg w)
    (hroom : w.manager.sessionId + 1 < 2^64) :
    Confined cfg (add64 w.manager.sessionId 1) {w with manager := (w.manager.createSession t).2}
      {w with manager := (w.manager.createSession t).2} := by
  refine .start ((safe_createSession hroom t).inv hw) ?_
  intro c e he
  exact next_session_new hw hroom ((BlobSessionManager.entry_createSession t).mp he).live

theorem live (h : Confined cfg s w₀ w) (hl : w₀.manager.Live s) : w.manager.Live s :=
  (h.sessions.live s).mpr hl

theorem erases {b : ℕ} {e : Path × ℕ} (h : Confined cfg s w₀ w)
    (her : World.Erases cfg s b e w w') : Confined cfg s w₀ w' := by
  obtain ⟨hsize, habsent⟩ := h.own b e her.found
  refine ⟨(safe_erases her).inv h.world, her.blobId ▸ h.blobId, h.sessions.trans her.sessions, ?_,
    ?_, ?_, h.counter.trans (movesAlike_erases hsize her)⟩
  · intro r c e' hr
    rw [her.entry, h.others r c e' hr]
    exact and_iff_left fun hsame => hr hsame.1
  · intro c e' he
    exact h.own c e' ((her.entry s c e').mp he).1
  · intro p hp
    by_cases hpath : e.1 = p
    · -- the file is gone, and was not there at the start
      subst hpath
      have hgone := her.names e.1
      rw [if_pos rfl] at hgone
      exact ⟨hgone.trans habsent.symm,
        (FileSystem.contents_absent hgone).trans (FileSystem.contents_absent habsent).symm⟩
    · refine (h.files p fun c e' he => ?_).trans (sameAt_erases her hpath)
      by_cases hc : c = b
      · subst hc
        rw [he.unique her.found]
        exact hpath
      · exact hp c e' ((her.entry s c e').mpr ⟨he, fun hsame => hc hsame.2⟩)

theorem deletions {ids : List ℕ} (h : Confined cfg s w₀ w) (hdels : Deletions cfg s ids w w') :
    Confined cfg s w₀ w' :=
  hdels.invariant (Confined cfg s w₀) (fun _ _ _ _ hi her => hi.erases her) h

/-- Nothing is at the path of an upload that was not begun when the session was created. -/
theorem path_absent (hw₀ : WorldInv cfg w₀) (h : Confined cfg s w₀ w) :
    w₀.files.names (uploadPath cfg (w.manager.blobId + 1)) = none := by
  have hle := h.blobId
  by_contra hpresent
  have hold := (hw₀.uploads _ hpresent).2
  omega

theorem registers {b : ℕ} {path : Path} (h : Confined cfg s w₀ w) (hroom : Headroom w)
    (hreg : World.Registers cfg s b path w w') (habsent : w₀.files.names path = none) :
    Confined cfg s w₀ w' := by
  have hsafe := safe_registers hroom.1 hreg
  refine ⟨hsafe.inv h.world, h.blobId.trans hsafe.evolves.blobId, h.sessions.trans hreg.sessions, ?_,
    ?_, ?_, h.counter.trans (.same hreg.currentSize hreg.recorded)⟩
  · intro r c e hr
    rw [hreg.entry, h.others r c e hr]
    exact or_iff_left fun hnew => hr hnew.1
  · intro c e he
    rcases (hreg.entry s c e).mp he with hold | ⟨_, _, rfl, _⟩
    · exact h.own c e hold
    · exact ⟨by norm_num, habsent⟩
  · intro p hp
    rw [hreg.files]
    exact h.files p fun c e he => hp c e ((hreg.entry s c e).mpr (Or.inl he))

theorem uploaded {chunks : List Bytes} (hw₀ : WorldInv cfg w₀) (h : Confined cfg s w₀ w)
    (hroom : Headroom w) (hup : Uploaded cfg env s chunks w w') : Confined cfg s w₀ w' := by
  have hsafe := hup.safe hroom
  refine ⟨hsafe.inv h.world, h.blobId.trans hsafe.evolves.blobId, h.sessions.trans hup.sessions, ?_,
    ?_, ?_, h.counter.trans (movesAlike_uploaded hup)⟩
  · intro r c e hr
    rw [hup.entry, h.others r c e hr]
    exact or_iff_left fun hnew => hr hnew.1
  · intro c e he
    rcases (hup.entry s c e).mp he with hold | ⟨_, _, rfl⟩
    · exact h.own c e hold
    · exact ⟨Nat.mod_lt _ (by norm_num), h.path_absent hw₀⟩
  · intro p hp
    refine (h.files p fun c e he => hp c e ((hup.entry s c e).mpr (Or.inl he))).trans (hup.sameAt ?_)
    exact (hp _ _ hup.new_entry).symm

/-- What becomes of the file of an entry does not matter. -/
theorem refile {c : ℕ} {e : Path × ℕ} {fs : Files} (h : Confined cfg s w₀ w)
    (he : w.manager.Entry s c e) (hworld : WorldInv cfg {w with files := fs})
    (hsame : ∀ p, p ≠ e.1 → w.files.SameAt fs p) : Confined cfg s w₀ {w with files := fs} := by
  refine ⟨hworld, h.blobId, h.sessions, h.others, h.own, fun p hp => ?_, h.counter⟩
  exact (h.files p hp).trans (hsame p (hp c e he).symm)

theorem putExit {messages : List PutStreamingRequest} {o : PutOutcome} (hw₀ : WorldInv cfg w₀)
    (h : Confined cfg s w₀ w) (hroom : Headroom w) (hdel : env.deletes = .succeeds)
    (hsession : ∀ r ∈ uploadSession messages, r = s)
    (hexit : PutExit cfg env w messages o w') : Confined cfg s w₀ w' := by
  cases hexit with
  | rejected => exact h
  | @cannotOpen m rest w' _ _ hreg =>
    obtain rfl := hsession _ rfl
    exact h.registers hroom hreg (h.path_absent hw₀)
  | @brokenOff m rest chunks w' _ _ _ hup =>
    obtain rfl := hsession _ rfl
    exact h.uploaded hw₀ hroom hup
  | @refused m rest chunks e w₁ w' _ _ _ hup her =>
    obtain rfl := hsession _ rfl
    exact (h.uploaded hw₀ hroom hup).erases her
  | refusedFails _ _ _ _ hfail => exact absurd hdel hfail
  | @mismatch m rest chunks w₁ _ _ _ _ hup =>
    obtain rfl := hsession _ rfl
    have hconf := h.uploaded hw₀ hroom hup
    exact hconf.refile hup.new_entry ((safe_unlink _).inv hconf.world)
      fun p hp => FileSystem.sameAt_unlink _ hp
  | @mismatchFails m rest chunks w₁ _ _ _ _ hup =>
    obtain rfl := hsession _ rfl
    exact h.uploaded hw₀ hroom hup
  | @answered m rest chunks w' _ _ _ _ hup =>
    obtain rfl := hsession _ rfl
    exact h.uploaded hw₀ hroom hup

end Confined

theorem confined_step {h h' : History} {c : SessionCall} (hw₀ : WorldInv cfg w₀)
    (hi : Confined cfg s w₀ h.world) (hok : InSession s h c)
    (hst : historyStep cfg c h = some h') : Confined cfg s w₀ h'.world := by
  obtain ⟨hroom, hok⟩ := hok
  cases c with
  | env a => exact absurd hok id
  | put env messages =>
    obtain ⟨⟨o, w₁⟩, hput, rfl⟩ := Option.map_eq_some_iff.mp hst
    exact hi.putExit hw₀ hroom hok.1 hok.2 (put_exit hi.world hroom hput)
  | removeVector r ids first last =>
    obtain rfl := hok
    obtain ⟨_, w₁, heq, hdels⟩ :=
      BlobSession.removeVector_spec cfg r (fun _ => rfl) ids first last h.world
    obtain ⟨x, hx, rfl⟩ := Option.map_eq_some_iff.mp hst
    cases heq.symm.trans hx
    exact hi.deletions hdels
  | removeList r ids =>
    obtain rfl := hok
    obtain ⟨_, w₁, heq, hdels⟩ := BlobSession.removeList_spec cfg r (fun _ => rfl) ids h.world
    obtain ⟨x, hx, rfl⟩ := Option.map_eq_some_iff.mp hst
    cases heq.symm.trans hx
    exact hi.deletions hdels
  | dispose r => exact absurd hok id

/-! ### Disposal -/

/-- The table of sessions is what its owners and its entries say. -/
theorem blobSessions_ext {m m' : BlobSessionManager} (howner : ∀ r t, m'.Owner r t ↔ m.Owner r t)
    (hentry : ∀ r c e, m'.Entry r c e ↔ m.Entry r c e) : m'.blobSessions = m.blobSessions := by
  apply ExtTreeMap.ext_getElem?
  intro r
  apply Option.ext
  have hsame : ∀ {m m' : BlobSessionManager}, (∀ r t, m'.Owner r t ↔ m.Owner r t) →
      (∀ r c e, m'.Entry r c e ↔ m.Entry r c e) → ∀ {impl : BlobSessionImpl},
      m'.blobSessions[r]? = some impl → m.blobSessions[r]? = some impl := by
    intro m m' howner hentry impl himpl
    obtain ⟨impl', himpl', ht⟩ := (howner r impl.transactionIdOpt).mp ⟨impl, himpl, rfl⟩
    have hblobs : impl'.blobs = impl.blobs := by
      apply ExtTreeMap.ext_getElem?
      intro c
      apply Option.ext
      intro e
      constructor
      · intro he
        obtain ⟨i, hi, hie⟩ := (hentry r c e).mpr ⟨impl', himpl', he⟩
        rwa [Option.some.inj (hi.symm.trans himpl)] at hie
      · intro he
        obtain ⟨i, hi, hie⟩ := (hentry r c e).mp ⟨impl, himpl, he⟩
        rwa [Option.some.inj (hi.symm.trans himpl')] at hie
    have himplEq : impl' = impl := by
      cases impl'
      cases impl
      cases ht
      cases hblobs
      rfl
    rwa [himplEq] at himpl'
  intro impl
  constructor
  · exact hsame howner hentry
  · exact hsame (fun r t => (howner r t).symm) fun r c e => (hentry r c e).symm

/-- A session that is new to `m` is created, worked on and disposed. -/
theorem blobSessions_disposed {m : BlobSessionManager} {t : Option TransactionId}
    (hnew : ¬ m.Live (add64 m.sessionId 1))
    (hc : ∀ r u, w.manager.Owner r u ↔ (m.createSession t).2.Owner r u)
    (hothers : ∀ r c e, r ≠ add64 m.sessionId 1 → (w.manager.Entry r c e ↔ m.Entry r c e)) :
    (w.manager.dispose (add64 m.sessionId 1)).blobSessions = m.blobSessions := by
  apply blobSessions_ext
  · intro r u
    rw [BlobSessionManager.owner_dispose, hc, BlobSessionManager.owner_createSession hnew]
    constructor
    · rintro ⟨hold | ⟨rfl, _⟩, hne⟩
      · exact hold
      · exact absurd rfl hne
    · intro hold
      refine ⟨Or.inl hold, ?_⟩
      rintro rfl
      exact hnew hold.live
  · intro r c e
    rw [BlobSessionManager.entry_dispose]
    by_cases hr : r = add64 m.sessionId 1
    · subst hr
      exact ⟨fun h => absurd rfl h.2, fun h => absurd h.live hnew⟩
    · rw [hothers r c e hr]
      exact and_iff_left hr

theorem blobSessionIds_disposed {m m' : BlobSessionManager} {t : Option TransactionId}
    (howner : m'.Owner s t)
    (hindex : m'.blobSessionIds = (m.createSession t).2.blobSessionIds) :
    (m'.dispose s).blobSessionIds = t.elim m.blobSessionIds m.blobSessionIds.erase := by
  obtain ⟨impl, hs, rfl⟩ := howner
  unfold BlobSessionManager.dispose
  simp only [hs]
  rw [hindex]
  unfold BlobSessionManager.createSession
  cases impl.transactionIdOpt with
  | none => rfl
  | some u =>
    apply ExtTreeMap.ext_getElem?
    intro v
    by_cases hv : u = v
    · simp [hv]
    · simp [hv]

/-- Everything of the manager but the two id counters and the index of transactions. -/
theorem manager_disposed {m : BlobSessionManager} {t : Option TransactionId}
    (hnew : ¬ m.Live (add64 m.sessionId 1)) (hcur : m.currentSize < 2^64)
    (hconf : Confined cfg (add64 m.sessionId 1) {w₀ with manager := (m.createSession t).2} w)
    (hnone : ∀ b e, ¬ w.manager.Entry (add64 m.sessionId 1) b e) :
    w.manager.dispose (add64 m.sessionId 1) =
      {m with
        sessionId := add64 m.sessionId 1
        blobId := w.manager.blobId
        blobSessionIds := t.elim m.blobSessionIds m.blobSessionIds.erase} := by
  have howner : w.manager.Owner (add64 m.sessionId 1) t :=
    (hconf.sessions.owner _ _).mpr
      ((BlobSessionManager.owner_createSession hnew).mpr (Or.inr ⟨rfl, rfl⟩))
  have hsessions : (w.manager.dispose (add64 m.sessionId 1)).blobSessions = m.blobSessions :=
    blobSessions_disposed hnew hconf.sessions.owner fun r c e hr =>
      (hconf.others r c e hr).trans (BlobSessionManager.entry_createSession t)
  have hrecorded : w.manager.recordedTotal = m.recordedTotal := by
    have hall := BlobSessionManager.recordedTotal_dispose (m := w.manager) (s := add64 m.sessionId 1)
    obtain ⟨impl, hs⟩ := howner.live
    rw [hs, OrderedMap.weight_some, recordedSize_of_no_entry hs hnone, Nat.add_zero] at hall
    rw [← hall, BlobSessionManager.recordedTotal, hsessions]
    rfl
  have hcounter : w.manager.currentSize = m.currentSize := by
    have halike := hconf.counter
    have hlt := hconf.world.currentSize_lt
    have hzero : (m.createSession t).2.recordedTotal = m.recordedTotal :=
      BlobSessionManager.recordedTotal_createSession t
    unfold MovesAlike at halike
    split at halike
    · exact halike
    · dsimp only at halike
      rw [hrecorded, hzero] at halike
      have hstart : (m.createSession t).2.currentSize = m.currentSize := rfl
      rw [hstart] at halike
      omega
  have hindex := blobSessionIds_disposed howner hconf.sessions.index
  have hid : (w.manager.dispose (add64 m.sessionId 1)).sessionId = add64 m.sessionId 1 := by
    rw [BlobSessionManager.sessionId_dispose, hconf.sessions.sessionId]
    rfl
  have hcur' := BlobSessionManager.currentSize_dispose (m := w.manager) (s := add64 m.sessionId 1)
  have hblob := BlobSessionManager.blobId_dispose (m := w.manager) (s := add64 m.sessionId 1)
  rw [hcounter] at hcur'
  generalize w.manager.dispose (add64 m.sessionId 1) = d at *
  cases d
  dsimp only at hsessions hindex hid hcur' hblob
  rw [hsessions, hindex, hid, hcur', hblob]

/-- What has been done in a session is undone by `dispose`. -/
theorem disposed_leaves_nothing {t : Option TransactionId} (w₀ : World)
    (hnew : ¬ w₀.manager.Live (add64 w₀.manager.sessionId 1)) (hcur : w₀.manager.currentSize < 2^64)
    (hconf : Confined cfg (add64 w₀.manager.sessionId 1)
      {w₀ with manager := (w₀.manager.createSession t).2} w) :
    ∃ w', BlobSession.dispose cfg (add64 w₀.manager.sessionId 1) (fun _ => .succeeds) w =
        some (.ok (), w') ∧
      w'.manager =
        {w₀.manager with
          sessionId := add64 w₀.manager.sessionId 1
          blobId := w.manager.blobId
          blobSessionIds := t.elim w₀.manager.blobSessionIds w₀.manager.blobSessionIds.erase} ∧
      ∀ p, w₀.files.SameAt w'.files p := by
  have hl : w.manager.Live (add64 w₀.manager.sessionId 1) :=
    hconf.live ((BlobSessionManager.live_createSession t).mpr (Or.inr rfl))
  obtain ⟨ids, w₁, hdispose, hdels, hgone⟩ := BlobSession.dispose_spec cfg (fun _ => rfl) hl
  have hend := hconf.deletions hdels
  have hblob : w₁.manager.blobId = w.manager.blobId :=
    hdels.invariant (fun u => u.manager.blobId = w.manager.blobId)
      (fun _ _ _ _ h her => her.blobId.trans h) rfl
  refine ⟨_, hdispose, ?_, fun p => ?_⟩
  · rw [← hblob]
    exact manager_disposed hnew hcur hend hgone
  · exact hend.files p fun c e he => absurd he (hgone c e)

/-- From any reachable state: a session is created, used by any calls that run one after the
other and whose deletions do not throw, and disposed. Then the sessions, their entries, the
usage and every file are as before it was created, however its uploads ended; only the id
counters have moved, and its transaction is out of the index, even where the index named
another session by it. -/
theorem session_leaves_nothing {σ : System} {h : History} {cs : List SessionCall}
    (t : Option TransactionId) (hσ : Reachable cfg σ)
    (hrun : Run (historyStep cfg) (InSession (σ.shared.manager.sessionId + 1))
      ⟨{σ.shared with manager := (σ.shared.manager.createSession t).2}, []⟩ cs h) :
    ∃ w', BlobSession.dispose cfg (σ.shared.manager.sessionId + 1) (fun _ => .succeeds) h.world =
        some (.ok (), w') ∧
      w'.manager =
        {σ.shared.manager with
          sessionId := σ.shared.manager.sessionId + 1
          blobId := h.world.manager.blobId
          blobSessionIds := t.elim σ.shared.manager.blobSessionIds
            σ.shared.manager.blobSessionIds.erase} ∧
      ∀ p, σ.shared.files.SameAt w'.files p := by
  have hroom := hσ.1.2
  have hid : add64 σ.shared.manager.sessionId 1 = σ.shared.manager.sessionId + 1 :=
    add64_of_lt hroom
  have hcreated := (safe_createSession hroom t).inv hσ.world
  rw [← hid] at hrun ⊢
  have hconf := hrun.invariant
    (fun h => Confined cfg (add64 σ.shared.manager.sessionId 1)
      {σ.shared with manager := (σ.shared.manager.createSession t).2} h.world)
    (fun _ _ _ hi hok hst => confined_step hcreated hi hok hst) (.created hσ.world hroom)
  exact disposed_leaves_nothing _ (next_session_new hσ.world hroom) hσ.world.currentSize_lt hconf

/-- Another session of the same transaction, with a file of its own. -/
def otherSession : List SystemMove :=
  [.env (.createSession (some 5)), .call (.put [.metadata ⟨1, 1, none⟩, .chunk [1, 2]])] ++
    List.replicate 7 (.run 0 .none)

/-- An upload broken off, one that the quota refuses, one declared too long, and a whole one
that is removed. -/
def variedSession : List SessionCall :=
  [.put .calm [.metadata ⟨1, 2, none⟩, .chunk [3], .unset],
    .put .calm [.metadata ⟨1, 2, none⟩, .chunk [4], .chunk [5, 6, 7, 8, 9, 10, 11]],
    .put .calm [.metadata ⟨1, 2, some 9⟩, .chunk [12]],
    .put .calm [.metadata ⟨1, 2, none⟩, .chunk [13, 14]], .removeList 2 [5]]

theorem session_leaves_nothing_varied : ∃ (σ : System) (h : History) (w' : World),
    runs smallConfig otherSession smallStart = some σ ∧
    exec (historyStep smallConfig) (fun h c => decide (InSession 2 h c)) variedSession
      ⟨{σ.shared with manager := (σ.shared.manager.createSession (some 5)).2}, []⟩ = some h ∧
    BlobSession.dispose smallConfig 2 (fun _ => .succeeds) h.world = some (.ok (), w') ∧
    w'.manager.blobSessions = σ.shared.manager.blobSessions ∧
    σ.shared.manager.blobSessionIds[5]? = some 1 ∧ w'.manager.blobSessionIds[5]? = none := by
  obtain ⟨σ, hσ, hend⟩ := (Option.any_eq_true
    (fun σ : System => decide (Headroom σ.shared) && σ.shared.manager.sessionId == 1 &&
      σ.shared.manager.blobSessionIds[5]? == some 1 &&
      (exec (historyStep smallConfig) (fun h c => decide (InSession 2 h c)) variedSession
        ⟨{σ.shared with manager := (σ.shared.manager.createSession (some 5)).2}, []⟩).isSome) _).mp
    (by decide : (runs smallConfig otherSession smallStart).any _ = true)
  simp only [Bool.and_eq_true, decide_eq_true_eq, beq_iff_eq] at hend
  obtain ⟨⟨⟨hroom, hid⟩, hindex⟩, hsome⟩ := hend
  obtain ⟨h, hh⟩ := Option.isSome_iff_exists.mp hsome
  have hrun : Run (historyStep smallConfig) (InSession (σ.shared.manager.sessionId + 1))
      ⟨{σ.shared with manager := (σ.shared.manager.createSession (some 5)).2}, []⟩ variedSession h := by
    rw [hid]
    exact .of_exec hh fun _ _ _ hc => of_decide_eq_true hc
  obtain ⟨w', hdispose, hmanager, _⟩ := session_leaves_nothing (some 5)
    (.of_runs smallStart_initial hσ hroom) hrun
  rw [hid] at hdispose
  refine ⟨σ, h, w', hσ, hh, hdispose, by rw [hmanager], hindex, ?_⟩
  rw [hmanager]
  exact (OrderedMap.get_erase _ _ _).trans (if_pos rfl)

end BlobRelay
