import BlobRelay.DeletionSteps
import BlobRelay.SessionIndex

/-! # What the session's mutex protects

A mutex is held by one deletion at a time and by nobody else, so from finding its entry
to erasing it a deletion sees the entry as it was, unless the session itself has been
erased from the manager. -/

namespace BlobRelay
open Foundation Foundation.FileStore Foundation.Mutex

/-- The entry that the deletion has found is still the session's. -/
structure Deletion.Stands (d : Deletion) (w : World) (t : Handler) : Prop where
  deletes : t.deletes = some (d.session, d.blobId)
  issued : d.session ≤ w.manager.sessionId
  entry : w.manager.Live d.session → w.manager.Entry d.session d.blobId d.entry
  size : d.entry.2 < 2^64

structure LockedInv (σ : LockedSystem) : Prop where
  inWord : InWord σ.shared.world
  issued : ∀ s, σ.shared.world.manager.Live s → s ≤ σ.shared.world.manager.sessionId
  exclusive : Exclusive Caller.holds σ.shared.locked σ.threads
  stands : ∀ (i : ℕ) (t : Caller) (d : Deletion), σ.threads[i]? = some t →
    t.deletion = some d → d.Stands σ.shared.world t.handler

variable {cfg : Config} {f : Fault} {w w' : World} {t t' u : Handler} {d : Deletion} {s c : ℕ}
  {e : Path × ℕ}

/-! ### Steps under other mutexes -/

/-- A step takes an entry out of a session's table, or changes it, under the session's
mutex only. -/
theorem entry_handlerStep (h : handlerStep cfg f w u = some (w', t')) (hd : u.deletes = none)
    (hfree : u.locks ≠ some s) (hlive : w'.manager.Live s) (he : w.manager.Entry s c e) :
    w'.manager.Entry s c e := by
  cases u with
  | put messages pc =>
    obtain ⟨pc', rfl, hput⟩ := handlerStep_put h
    cases hput with
    | created hreg => exact (hreg.entry s c e).mpr (Or.inl he)
    | @charged v out n bytes rest e' w₁ hch =>
      have hne : ¬ (s = v.session ∧ c = v.blobId) := fun heq => hfree (congrArg some heq.1.symm)
      refine (hch.entry s c e).mpr ?_
      rw [if_neg hne]
      exact he
    | deletedNothing => cases hd
    | deleted => cases hd
    | deleteFails => cases hd
    | _ => exact he
  | get request pc =>
    obtain ⟨rfl, _⟩ := handlerStep_get h
    exact he
  | remove r ids pc =>
    obtain ⟨_, hdel⟩ := handlerStep_remove h
    have hnone : pc.deletes = none := Option.map_eq_none_iff.mp hd
    rw [hnone] at hdel
    cases hdel
    exact he
  | dispose r pc =>
    have hnone : pc.deletes = none := Option.map_eq_none_iff.mp hd
    obtain ⟨_, ⟨_, hdel⟩ | ⟨_, _, rfl⟩⟩ := handlerStep_dispose h
    · rw [hnone] at hdel
      cases hdel
      exact he
    · have hne : s ≠ r := (BlobSessionManager.live_dispose.mp hlive).2
      exact BlobSessionManager.entry_dispose.mpr ⟨he, hne⟩

/-- Sessions that are live after a step were live before it. -/
theorem sessions_handlerStep (h : handlerStep cfg f w u = some (w', t')) :
    w'.manager.sessionId = w.manager.sessionId ∧
      ∀ s, w'.manager.Live s → w.manager.Live s := by
  rcases handlerStep_sessions h with ⟨_, hkeep⟩ | ⟨r, _, hm⟩
  · exact ⟨hkeep.sessionId, fun s => (hkeep.live s).mp⟩
  · rw [hm]
    exact ⟨BlobSessionManager.sessionId_dispose,
      fun s hs => (BlobSessionManager.live_dispose.mp hs).1⟩

theorem Deletion.Stands.handlerStep (h : d.Stands w t)
    (hstep : handlerStep cfg f w u = some (w', t')) (hd : u.deletes = none)
    (hfree : u.locks ≠ some d.session) : d.Stands w' t := by
  obtain ⟨hid, hlive⟩ := sessions_handlerStep hstep
  exact ⟨h.deletes, hid ▸ h.issued, fun hs =>
    entry_handlerStep hstep hd hfree hs (h.entry (hlive _ hs)), h.size⟩

/-- What the other steps do to the manager: they keep the sessions, and the entries of
this one. -/
theorem Deletion.Stands.same (h : d.Stands w t)
    (hid : w'.manager.sessionId = w.manager.sessionId)
    (hlive : w'.manager.Live d.session → w.manager.Live d.session)
    (hentry : w.manager.Entry d.session d.blobId d.entry →
      w'.manager.Entry d.session d.blobId d.entry) : d.Stands w' t :=
  ⟨h.deletes, hid ▸ h.issued, fun hs => hentry (h.entry (hlive hs)), h.size⟩

theorem live_eraseEntry (s b r : ℕ) :
    (w.eraseEntry s b).manager.Live r ↔ w.manager.Live r := by
  have hkeep : KeepsSessions w.manager (w.eraseEntry s b).manager :=
    .of_updateSession s (fun _ => rfl) rfl rfl rfl
  exact hkeep.live r

theorem entry_eraseEntry {s b r : ℕ} : (w.eraseEntry s b).manager.Entry r c e ↔
    w.manager.Entry r c e ∧ ¬ (r = s ∧ c = b) := by
  unfold World.eraseEntry
  rw [BlobSessionManager.entry_updateSession]
  by_cases hr : s = r
  · subst hr
    have herase : ∀ impl : BlobSessionImpl,
        (impl.blobs.erase b)[c]? = some e ↔ impl.blobs[c]? = some e ∧ ¬ c = b := by
      intro impl
      rw [OrderedMap.get_erase]
      by_cases hc : b = c
      · simp [hc]
      · simp [hc, Ne.symm hc]
    simp only [if_pos, true_and]
    constructor
    · rintro ⟨impl, hs, he⟩
      obtain ⟨hold, hne⟩ := (herase impl).mp he
      exact ⟨⟨impl, hs, hold⟩, hne⟩
    · rintro ⟨⟨impl, hs, hold⟩, hne⟩
      exact ⟨impl, hs, (herase impl).mpr ⟨hold, hne⟩⟩
  · rw [if_neg hr]
    exact (and_iff_left fun hrc => hr hrc.1.symm).symm

theorem issued_envStep {a : EnvAction} (hroom : Headroom w) (h : envStep cfg a w = some w') :
    w.manager.sessionId ≤ w'.manager.sessionId ∧ (∀ s, w'.manager.Live s →
      w.manager.Live s ∨ (w.manager.sessionId < s ∧ s ≤ w'.manager.sessionId)) ∧
      ∀ s c e, w.manager.Entry s c e → w'.manager.Entry s c e := by
  cases a with
  | createSession u =>
    cases h
    have hnew : add64 w.manager.sessionId 1 = w.manager.sessionId + 1 := add64_of_lt hroom.2
    have hid : (w.manager.createSession u).2.sessionId = w.manager.sessionId + 1 := hnew
    refine ⟨by rw [hid]; omega, fun s hs => ?_, fun s c e he =>
      (BlobSessionManager.entry_createSession u).mpr he⟩
    rcases (BlobSessionManager.live_createSession u).mp hs with hold | rfl
    · exact Or.inl hold
    · right
      rw [hid, hnew]
      omega
  | add s path =>
    obtain ⟨⟨r, w₁⟩, hr, he⟩ := Option.map_eq_some_iff.mp h
    cases he
    cases r with
    | ok b =>
      have hreg := (World.add_ok hr).2
      exact ⟨hreg.sessions.sessionId.ge, fun s hs => Or.inl ((hreg.sessions.live s).mp hs),
        fun s c e he => (hreg.entry s c e).mpr (Or.inl he)⟩
    | error x =>
      obtain ⟨_, rfl⟩ := World.add_error hr
      exact ⟨le_rfl, fun _ hs => Or.inl hs, fun _ _ _ he => he⟩
  | outsideWrite path bytes =>
    simp only [envStep, outsideWrite] at h
    split at h
    · cases h
    · obtain ⟨r, _, rfl⟩ := Option.map_eq_some_iff.mp h
      exact ⟨le_rfl, fun _ hs => Or.inl hs, fun _ _ _ he => he⟩
  | outsideDelete path =>
    cases h
    exact ⟨le_rfl, fun _ hs => Or.inl hs, fun _ _ _ he => he⟩

/-! ### The invariant -/

section Step
variable {σ σ' : LockedSystem} {l : SystemMove}

theorem InWord.giveBack (h : InWord w) (n : ℕ) : InWord (w.giveBack cfg n) :=
  ⟨release_lt h.currentSize, h.recorded⟩

theorem InWord.eraseEntry (h : InWord w) (s b : ℕ) (fs : Files) :
    InWord {w.eraseEntry s b with files := fs} :=
  ⟨h.currentSize, fun r c e he => h.recorded r c e (entry_eraseEntry.mp he).1⟩

theorem lockedInv_env {a : EnvAction} {w' : LockedWorld} (h : LockedInv σ)
    (hroom : Headroom σ.shared.world) (hst : lockedEnvStep cfg a σ.shared = some w') :
    LockedInv {σ with shared := w'} := by
  unfold lockedEnvStep at hst
  split at hst
  · cases hst
  · obtain ⟨w₁, hw, rfl⟩ := Option.map_eq_some_iff.mp hst
    obtain ⟨hid, hlive, hentry⟩ := issued_envStep hroom hw
    refine ⟨h.inWord.keepsAccounts (keepsAccounts_envStep hw), fun s hs => ?_, h.exclusive,
      fun i t d ht hd => ?_⟩
    · rcases hlive s hs with hold | ⟨_, hle⟩
      · exact (h.issued s hold).trans hid
      · exact hle
    · have hstands := h.stands i t d ht hd
      refine ⟨hstands.deletes, hstands.issued.trans hid, fun hs => ?_, hstands.size⟩
      rcases hlive _ hs with hold | ⟨hlt, _⟩
      · exact hentry _ _ _ (hstands.entry hold)
      · exact absurd hstands.issued (Nat.not_le.mpr hlt)

theorem lockedInv_run {i : ℕ} {t t' : Caller} {w' : LockedWorld} (h : LockedInv σ)
    (ht : σ.threads[i]? = some t) (hst : CallerStepped cfg f σ.shared t w' t') :
    LockedInv ⟨w', σ.threads.set i t'⟩ := by
  have hothers : ∀ (w' : LockedWorld), (∀ (j : ℕ) (u : Caller) (d : Deletion), j ≠ i →
      σ.threads[j]? = some u → u.deletion = some d → d.Stands w'.world u.handler) →
      (∀ d, t'.deletion = some d → d.Stands w'.world t'.handler) →
      ∀ (j : ℕ) (u : Caller) (d : Deletion), (σ.threads.set i t')[j]? = some u →
        u.deletion = some d → d.Stands w'.world u.handler := by
    intro w' hrest hown j u d hu hd
    rcases Pool.getElem_set hu with ⟨_, rfl⟩ | ⟨hj, hu⟩
    · exact hown d hd
    · exact hrest j u d hj hu hd
  have hlocked : ∀ (j : ℕ) (u : Caller) (d : Deletion), σ.threads[j]? = some u →
      u.deletion = some d → d.session ∈ σ.shared.locked := by
    intro j u d hu hd
    exact h.exclusive.locked j u d.session hu (by rw [Caller.holds, hd, Option.map_some])
  cases hst with
  | @whole w₁ t₁ hnone hdel hfree hstep =>
    obtain ⟨hid, hlive⟩ := sessions_handlerStep hstep
    refine ⟨h.inWord.books (handlerStep_books hstep), fun s hs => hid ▸ h.issued s (hlive s hs),
      h.exclusive.keep ht (by rw [Caller.holds, Caller.holds, hnone]),
      hothers ⟨w₁, _⟩ (fun j u d _ hu hd => ?_) nofun⟩
    exact (h.stands j u d hu hd).handlerStep hstep hdel
      fun hlock => hfree _ hlock (hlocked j u d hu hd)
  | nothing hnone hdel hsame =>
    exact ⟨h.inWord, h.issued, h.exclusive.keep ht (by rw [Caller.holds, Caller.holds, hnone]),
      hothers σ.shared (fun j u d _ hu hd => h.stands j u d hu hd) nofun⟩
  | @entered s b e hnone hdel hfree he =>
    refine ⟨h.inWord.giveBack e.2, h.issued,
      h.exclusive.acquire ht (by rw [Caller.holds, hnone, Option.map_none]) hfree rfl,
      hothers ⟨_, _⟩ (fun j u d _ hu hd => ?_) fun d hd => ?_⟩
    · exact (h.stands j u d hu hd).same rfl id id
    · obtain rfl := Option.some.inj hd
      obtain ⟨impl, hs, hb⟩ := he
      exact ⟨hdel, h.issued s ⟨impl, hs⟩, fun _ => ⟨impl, hs, hb⟩,
        h.inWord.recorded s b e ⟨impl, hs, hb⟩⟩
  | @asked d hd _ =>
    refine ⟨h.inWord, h.issued,
      h.exclusive.keep ht (by rw [Caller.holds, Caller.holds, hd, Option.map_some]; rfl),
      hothers σ.shared (fun j u d _ hu hd => h.stands j u d hu hd) fun d' hd' => ?_⟩
    obtain rfl := Option.some.inj hd'
    have hold := h.stands i t d ht hd
    exact ⟨hold.deletes, hold.issued, hold.entry, hold.size⟩
  | @ended d r w₁ g hd hlive hwhole hw =>
    have hholds : t.holds = some d.session := by rw [Caller.holds, hd, Option.map_some]
    have hexclusive := h.exclusive.release ht hholds (rfl : (⟨t.handler.deleted r, none⟩ :
      Caller).holds = none)
    rcases hw with ⟨rfl, _⟩ | ⟨fs, rfl⟩
    · exact ⟨h.inWord, h.issued, hexclusive,
        hothers ⟨_, _⟩ (fun j u d _ hu hd => h.stands j u d hu hd) nofun⟩
    · refine ⟨h.inWord.eraseEntry _ _ fs, fun s hs => h.issued s ((live_eraseEntry _ _ s).mp hs),
        hexclusive, hothers ⟨_, _⟩ (fun j u d' hj hu hd' => ?_) nofun⟩
      have hne : d.session ≠ d'.session := by
        intro heq
        refine hj (h.exclusive.one j i u t d'.session hu ht ?_ (heq ▸ hholds))
        rw [Caller.holds, hd', Option.map_some]
      exact (h.stands j u d' hu hd').same rfl (live_eraseEntry _ _ _).mp
        fun he => entry_eraseEntry.mpr ⟨he, fun hrc => hne hrc.1.symm⟩

theorem lockedInv_step (h : LockedInv σ) (hroom : Headroom σ.shared.world)
    (hst : lockedStep cfg l σ = some σ') : LockedInv σ' := by
  cases l with
  | env a =>
    obtain ⟨w', hw, rfl⟩ := Pool.step_env hst
    exact lockedInv_env h hroom hw
  | call c =>
    obtain rfl := Pool.step_call hst
    refine ⟨h.inWord, h.issued, h.exclusive.start rfl, fun i t d ht hd => ?_⟩
    rcases Pool.getElem_snoc ht with ⟨_, rfl⟩ | ⟨_, ht⟩
    · cases hd
    · exact h.stands i t d ht hd
  | run i f =>
    obtain ⟨t, w', t', ht, hone, rfl⟩ := Pool.step_run hst
    exact lockedInv_run h ht (callerStep_cases hone)

/-- No deletion has begun. -/
def idle (σ : System) : LockedSystem := ⟨⟨σ.shared, []⟩, σ.threads.map fun t => ⟨t, none⟩⟩

theorem lockedInv_initial {σ₀ : System} (h₀ : Initial cfg σ₀) : LockedInv (idle σ₀) := by
  refine ⟨inWord_constructed h₀.1, fun s hs => ?_, ?_, fun i t d ht hd => ?_⟩
  · obtain ⟨impl, hs⟩ := hs
    simp [idle, h₀.1.manager, BlobSessionManager.empty] at hs
  · refine exclusive_free fun t ht => ?_
    obtain ⟨u, _, rfl⟩ := List.mem_map.mp ht
    rfl
  · simp [idle, h₀.2] at ht

theorem lockedInv_start {ok : LockedSystem → SystemMove → Prop} {ls : List SystemMove}
    {σ₀ : System} (h₀ : Initial cfg σ₀) (hroom : ∀ σ l, ok σ l → Headroom σ.shared.world)
    (hrun : Run (lockedStep cfg) ok (idle σ₀) ls σ) : LockedInv σ :=
  hrun.invariant LockedInv (fun σ l _ h hok hst => lockedInv_step h (hroom σ l hok) hst)
    (lockedInv_initial h₀)

/-- What `itr` refers to in `delete_blob_file` is in the table until the deletion erases
it, in every run, as long as the session has not been erased; nobody else is inside a
deletion of that session. -/
theorem iterator_valid {ls : List SystemMove} {σ₀ : System} {i : ℕ} {t : Caller}
    (h₀ : Initial cfg σ₀)
    (hrun : Run (lockedStep cfg) (fun σ _ => Headroom σ.shared.world) (idle σ₀) ls σ)
    (ht : σ.threads[i]? = some t) (hd : t.deletion = some d)
    (hlive : σ.shared.world.manager.Live d.session) :
    σ.shared.world.manager.Entry d.session d.blobId d.entry ∧
      d.session ∈ σ.shared.locked ∧ ∀ (j : ℕ) (u : Caller), σ.threads[j]? = some u →
        u.holds = some d.session → j = i := by
  have hinv := lockedInv_start h₀ (fun _ _ hroom => hroom) hrun
  have hholds : t.holds = some d.session := by rw [Caller.holds, hd, Option.map_some]
  refine ⟨(hinv.stands i t d ht hd).entry hlive, hinv.exclusive.locked i t _ ht hholds, ?_⟩
  intro j u hu hj
  exact hinv.exclusive.one j i u t _ hu ht hj hholds

/-- A blob of `n` bytes is uploaded while the deletion of one of eight bytes has given
its size back and not yet asked for the file. -/
def uploadInDeletion (n : ℕ) : List SystemMove :=
  [.env (.createSession none), .env (.createSession none),
    .call (.put [.metadata ⟨1, 1, none⟩, .chunk (List.replicate 8 0)])] ++
    List.replicate 7 (.run 0 .none) ++
    [.call (.remove 1 [1]), .run 1 .none, .run 1 .none,
      .call (.put [.metadata ⟨1, 2, none⟩, .chunk (List.replicate n 0)])] ++
    List.replicate 7 (.run 2 .none)

theorem iterator_valid_uploadInDeletion : ∃ σ : LockedSystem,
    exec (lockedStep smallConfig) (fun σ _ => decide (Headroom σ.shared.world))
      (uploadInDeletion 8) (idle smallStart) = some σ ∧
    σ.shared.world.manager.Entry 1 1 (["store", "upload_1"], 8) := by
  obtain ⟨σ, hσ, hend⟩ := (Option.any_eq_true (fun σ : LockedSystem =>
      decide ((σ.threads[1]?).bind Caller.deletion =
        some ⟨1, 1, (["store", "upload_1"], 8), .released⟩) &&
      (σ.shared.world.manager.blobSessions[1]?).isSome) _).mp
    (by decide : (exec (lockedStep smallConfig) (fun σ _ => decide (Headroom σ.shared.world))
      (uploadInDeletion 8) (idle smallStart)).any _ = true)
  obtain ⟨hdeletion, hsome⟩ := Bool.and_eq_true_iff.mp hend
  obtain ⟨t, ht, hd⟩ := Option.bind_eq_some_iff.mp (of_decide_eq_true hdeletion)
  obtain ⟨impl, hs⟩ := Option.isSome_iff_exists.mp hsome
  have hrun : Run (lockedStep smallConfig) (fun σ _ => Headroom σ.shared.world)
      (idle smallStart) (uploadInDeletion 8) σ := .of_exec hσ fun _ _ _ hc => of_decide_eq_true hc
  exact ⟨σ, hσ, (iterator_valid smallStart_initial hrun ht hd ⟨impl, hs⟩).1⟩

end Step

end BlobRelay
