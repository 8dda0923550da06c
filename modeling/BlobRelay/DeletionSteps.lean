import BlobRelay.Accounts
import BlobRelay.Foundation.Mutex

/-! # delete_blob_file, one access at a time (session_impl.cpp)

`delete_blob_file` holds the mutex of its session from finding the entry until it
returns, but the usage counter and the file system are not protected by that mutex:
other handlers run between its `fetch_sub`, its `exists` and its `remove`. Here each of
these is a step of its own, and the mutex is part of the state. What is done under the
mutex to the session's table alone stays in the step beside it. -/

namespace BlobRelay
open Foundation Foundation.FileStore

/-! ### The deletion -/

inductive DeletionPc
  /-- The counter is decreased; `exists` is asked next. -/
  | released
  /-- The file was there; `std::filesystem::remove` is called next. -/
  | present
  deriving DecidableEq

/-- The local variables of `delete_blob_file`: what `itr` refers to. -/
structure Deletion where
  session : ℕ
  blobId : ℕ
  entry : Path × ℕ
  pc : DeletionPc
  deriving DecidableEq

inductive DeletionResult
  | inside (d : Deletion)
  | returned (r : Except Exn Unit)

def World.giveBack (cfg : Config) (size : ℕ) (w : World) : World :=
  {w with manager := {w.manager with currentSize := release cfg.quota size w.manager.currentSize}}

def World.eraseEntry (s b : ℕ) (w : World) : World :=
  {w with manager := w.manager.updateSession s fun i => {i with blobs := i.blobs.erase b}}

/-- `blobs_.find` and, where there is an entry, `session_store_.remove`. -/
def enterDeletion (cfg : Config) (s b : ℕ) (w : World) : Option (World × DeletionResult) :=
  (w.manager.blobSessions[s]?).map fun impl =>
    match impl.blobs[b]? with
    | none => (w, .returned (.ok ()))
    | some entry => (w.giveBack cfg entry.2, .inside ⟨s, b, entry, .released⟩)

/-- A file that is gone when `std::filesystem::remove` is called is no error. -/
def deletionStep (f : Fault) (d : Deletion) (w : World) : Option (World × DeletionResult) :=
  (w.manager.blobSessions[d.session]?).map fun _ =>
    match d.pc with
    | .released =>
      if f = .existsThrows then (w, .returned (.error (.filesystemError "status")))
      else if w.files.present d.entry.1 then (w, .inside {d with pc := .present})
      else (w.eraseEntry d.session d.blobId, .returned (.ok ()))
    | .present =>
      if w.files.present d.entry.1 then
        if f = .removeThrows then (w, .returned (.error (.filesystemError "remove")))
        else
          ({w.eraseEntry d.session d.blobId with files := w.files.unlink d.entry.1},
            .returned (.ok ()))
      else (w.eraseEntry d.session d.blobId, .returned (.ok ()))

/-! ### The callers -/

/-- The session whose mutex the handler's next step takes, if that is not a deletion. -/
def Handler.locks : Handler → Option ℕ
  | .put _ (.located s _ _) => some s
  | .put _ (.receiving u _ _ (.chunk _ :: _)) => some u.session
  | .get _ (.findHeld ctx) => some ctx.sessionId
  | .dispose s .listing => some s
  | _ => none

def EnvAction.locks : EnvAction → Option ℕ
  | .add s _ => some s
  | _ => none

/-- The handler after the deletion that its next step calls. -/
def Handler.deleted (r : Except Exn Unit) : Handler → Handler
  | .put messages (.exhausted u) => .put messages (.finished (some u)
      (match r with
        | .ok () => .returned PutStatus.exhausted none
        | .error e => putCatch e))
  | .remove s ids (.removing (_ :: rest)) => .remove s ids
      (match r with
        | .ok () => .removing rest
        | .error e => .finished (.error e))
  | .dispose s (.deleting (_ :: rest)) => .dispose s
      (match r with
        | .ok () => .deleting rest
        | .error e => .finished (.error e))
  | t => t

/-- A handler, and the deletion it has begun. -/
structure Caller where
  handler : Handler
  deletion : Option Deletion

/-- The session whose mutex the handler holds. -/
def Caller.holds (t : Caller) : Option ℕ := t.deletion.map Deletion.session

/-- What the deletion has taken from the counter and not yet from the table. -/
def Caller.givenBack (t : Caller) : ℕ := t.deletion.elim 0 fun d => d.entry.2

/-- The world, and the sessions whose mutex a deletion holds. -/
structure LockedWorld where
  world : World
  locked : List ℕ

/-- The end of a handler's first step in a deletion, which has taken the mutex. -/
def LockedWorld.entered (w : LockedWorld) (t : Handler) (r : World × DeletionResult) :
    LockedWorld × Caller :=
  match r.2 with
  | .inside d => (⟨r.1, d.session :: w.locked⟩, ⟨t, some d⟩)
  | .returned x => (⟨r.1, w.locked⟩, ⟨t.deleted x, none⟩)

/-- The end of a later step, which gives the mutex back when the deletion returns. -/
def LockedWorld.continued (w : LockedWorld) (t : Handler) (s : ℕ) (r : World × DeletionResult) :
    LockedWorld × Caller :=
  match r.2 with
  | .inside d => (⟨r.1, w.locked⟩, ⟨t, some d⟩)
  | .returned x => (⟨r.1, w.locked.erase s⟩, ⟨t.deleted x, none⟩)

def callerStep (cfg : Config) (f : Fault) (w : LockedWorld) (t : Caller) :
    Option (LockedWorld × Caller) :=
  match t.deletion with
  | some d => (deletionStep f d w.world).map (w.continued t.handler d.session)
  | none =>
    match t.handler.deletes with
    | some (s, b) =>
      if s ∈ w.locked then none else (enterDeletion cfg s b w.world).map (w.entered t.handler)
    | none =>
      if t.handler.locks.any (· ∈ w.locked) then none
      else (handlerStep cfg f w.world t.handler).map fun r => (⟨r.1, w.locked⟩, ⟨r.2, none⟩)

def lockedEnvStep (cfg : Config) (a : EnvAction) (w : LockedWorld) : Option LockedWorld :=
  if a.locks.any (· ∈ w.locked) then none
  else (envStep cfg a w.world).map fun w' => ⟨w', w.locked⟩

abbrev LockedSystem := Pool LockedWorld Caller

def lockedStep (cfg : Config) : SystemMove → LockedSystem → Option LockedSystem :=
  Pool.step (lockedEnvStep cfg) (fun c => ⟨c.start, none⟩) (callerStep cfg)

/-! ### What one step does -/

variable {cfg : Config} {f : Fault} {w w' : World}

/-- The world but for the usage counter. -/
def World.withCurrentSize (v : ℕ) (w : World) : World :=
  {w with manager := {w.manager with currentSize := v}}

/-- What a step of a handler is in the finer system. -/
inductive CallerStepped (cfg : Config) (f : Fault) (w : LockedWorld) (t : Caller) :
    LockedWorld → Caller → Prop
  | whole {w' : World} {t' : Handler} : t.deletion = none → t.handler.deletes = none →
      (∀ s, t.handler.locks = some s → s ∉ w.locked) →
      handlerStep cfg f w.world t.handler = some (w', t') →
      CallerStepped cfg f w t ⟨w', w.locked⟩ ⟨t', none⟩
  | nothing {s b : ℕ} : t.deletion = none → t.handler.deletes = some (s, b) →
      (∀ v d, (w.world.withCurrentSize v).deleteBlobFile cfg s b d =
        some (.ok (), w.world.withCurrentSize v)) →
      CallerStepped cfg f w t w ⟨t.handler.deleted (.ok ()), none⟩
  | entered {s b : ℕ} {e : Path × ℕ} : t.deletion = none → t.handler.deletes = some (s, b) →
      s ∉ w.locked → w.world.manager.Entry s b e →
      CallerStepped cfg f w t ⟨w.world.giveBack cfg e.2, s :: w.locked⟩
        ⟨t.handler, some ⟨s, b, e, .released⟩⟩
  | asked {d : Deletion} : t.deletion = some d → d.pc = .released →
      CallerStepped cfg f w t w ⟨t.handler, some {d with pc := .present}⟩
  | ended {d : Deletion} {r : Except Exn Unit} {w' : World} (g : Fault) : t.deletion = some d →
      w.world.manager.Live d.session →
      (w.world.manager.Entry d.session d.blobId d.entry → ∀ v,
        (w.world.withCurrentSize v).deleteBlobFile cfg d.session d.blobId g.deletes =
          some (r, w'.withCurrentSize (release cfg.quota d.entry.2 v))) →
      ((w' = w.world ∧ f.deletes ≠ .succeeds) ∨
        ∃ fs, w' = {w.world.eraseEntry d.session d.blobId with files := fs}) →
      CallerStepped cfg f w t ⟨w', w.locked.erase d.session⟩ ⟨t.handler.deleted r, none⟩

section Whole
variable {s b : ℕ} {e : Path × ℕ} {d : DeleteResult}

theorem deleteBlobFile_existsThrows (cfg : Config) (he : w.manager.Entry s b e) :
    w.deleteBlobFile cfg s b .existsThrows =
      some (.error (.filesystemError "status"), w.giveBack cfg e.2) := by
  obtain ⟨impl, hs, hb⟩ := he
  simp only [World.deleteBlobFile, hs, Option.map_some, hb]
  rfl

theorem deleteBlobFile_absent (cfg : Config) (he : w.manager.Entry s b e)
    (hp : w.files.present e.1 = false) (hd : d ≠ .existsThrows) :
    w.deleteBlobFile cfg s b d = some (.ok (), (w.giveBack cfg e.2).eraseEntry s b) := by
  obtain ⟨impl, hs, hb⟩ := he
  simp only [World.deleteBlobFile, hs, Option.map_some, hb, hp]
  cases d with
  | existsThrows => exact absurd rfl hd
  | succeeds => rfl
  | removeThrows => rfl

theorem deleteBlobFile_removeThrows (cfg : Config) (he : w.manager.Entry s b e)
    (hp : w.files.present e.1 = true) :
    w.deleteBlobFile cfg s b .removeThrows =
      some (.error (.filesystemError "remove"), w.giveBack cfg e.2) := by
  obtain ⟨impl, hs, hb⟩ := he
  simp only [World.deleteBlobFile, hs, Option.map_some, hb, hp]
  rfl

theorem deleteBlobFile_present (cfg : Config) (he : w.manager.Entry s b e)
    (hp : w.files.present e.1 = true) :
    w.deleteBlobFile cfg s b .succeeds = some (.ok (),
      {(w.giveBack cfg e.2).eraseEntry s b with files := w.files.unlink e.1}) := by
  obtain ⟨impl, hs, hb⟩ := he
  simp only [World.deleteBlobFile, hs, Option.map_some, hb, hp]
  rfl

end Whole

/-- The last step of a deletion does what the whole deletion does, from where the size is
not given back. -/
theorem deletionStep_returned {d : Deletion} {r : Except Exn Unit}
    (h : deletionStep f d w = some (w', .returned r)) :
    ∃ g : Fault, w.manager.Live d.session ∧
      (w.manager.Entry d.session d.blobId d.entry → ∀ v,
        (w.withCurrentSize v).deleteBlobFile cfg d.session d.blobId g.deletes =
          some (r, w'.withCurrentSize (release cfg.quota d.entry.2 v))) ∧
      ((w' = w ∧ f.deletes ≠ .succeeds) ∨
        ∃ fs, w' = {w.eraseEntry d.session d.blobId with files := fs}) := by
  obtain ⟨impl, hs, he⟩ := Option.map_eq_some_iff.mp h
  have hlive : w.manager.Live d.session := ⟨impl, hs⟩
  have hentry : ∀ v, w.manager.Entry d.session d.blobId d.entry →
      (w.withCurrentSize v).manager.Entry d.session d.blobId d.entry := fun v hd => hd
  have habsent : w.files.present d.entry.1 = false → w' = w.eraseEntry d.session d.blobId →
      r = .ok () → ∃ g : Fault, w.manager.Live d.session ∧
        (w.manager.Entry d.session d.blobId d.entry → ∀ v,
          (w.withCurrentSize v).deleteBlobFile cfg d.session d.blobId g.deletes =
            some (r, w'.withCurrentSize (release cfg.quota d.entry.2 v))) ∧
        ((w' = w ∧ f.deletes ≠ .succeeds) ∨
          ∃ fs, w' = {w.eraseEntry d.session d.blobId with files := fs}) := by
    intro hp hw hr
    subst hw hr
    exact ⟨.none, hlive, fun hd v => deleteBlobFile_absent cfg (hentry v hd) hp (by decide),
      Or.inr ⟨w.files, rfl⟩⟩
  dsimp only at he
  split at he
  · split at he
    · rename_i hf
      cases he
      exact ⟨.existsThrows, hlive, fun hd v => deleteBlobFile_existsThrows cfg (hentry v hd),
        Or.inl ⟨rfl, by rw [hf]; decide⟩⟩
    · split at he
      · cases he
      · rename_i hp
        cases he
        exact habsent (Bool.eq_false_iff.mpr hp) rfl rfl
  · split at he
    · rename_i hp
      split at he
      · rename_i hf
        cases he
        exact ⟨.removeThrows, hlive,
          fun hd v => deleteBlobFile_removeThrows cfg (hentry v hd) hp,
          Or.inl ⟨rfl, by rw [hf]; decide⟩⟩
      · cases he
        exact ⟨.none, hlive, fun hd v => deleteBlobFile_present cfg (hentry v hd) hp,
          Or.inr ⟨_, rfl⟩⟩
    · rename_i hp
      cases he
      exact habsent (Bool.eq_false_iff.mpr hp) rfl rfl

theorem callerStep_cases {w w' : LockedWorld} {t t' : Caller}
    (h : callerStep cfg f w t = some (w', t')) : CallerStepped cfg f w t w' t' := by
  unfold callerStep at h
  split at h
  · rename_i d hd
    obtain ⟨⟨w₁, r⟩, hstep, he⟩ := Option.map_eq_some_iff.mp h
    cases r with
    | inside d' =>
      cases he
      obtain ⟨impl, hs, hin⟩ := Option.map_eq_some_iff.mp hstep
      dsimp only at hin
      split at hin
      · rename_i hpc
        split at hin
        · cases hin
        · split at hin
          · cases hin
            exact .asked hd hpc
          · cases hin
      · split at hin
        · split at hin <;> cases hin
        · cases hin
    | returned x =>
      cases he
      obtain ⟨g, hlive, hwhole, hw⟩ := deletionStep_returned hstep
      exact .ended g hd hlive hwhole hw
  · rename_i hd
    split at h
    · rename_i s b hdel
      split at h
      · cases h
      · rename_i hfree
        obtain ⟨⟨w₁, r⟩, hstep, he⟩ := Option.map_eq_some_iff.mp h
        obtain ⟨impl, hs, hin⟩ := Option.map_eq_some_iff.mp hstep
        cases hb : impl.blobs[b]? with
        | none =>
          rw [hb] at hin
          cases hin
          cases he
          refine .nothing hd hdel fun v d => ?_
          show (w.world.manager.blobSessions[s]?).map _ = _
          rw [hs, Option.map_some, hb]
        | some e =>
          rw [hb] at hin
          cases hin
          cases he
          exact .entered hd hdel hfree ⟨impl, hs, hb⟩
    · rename_i hdel
      split at h
      · cases h
      · rename_i hfree
        obtain ⟨⟨w₁, t₁⟩, hstep, he⟩ := Option.map_eq_some_iff.mp h
        cases he
        refine .whole hd hdel (fun s hs hmem => hfree ?_) hstep
        rw [hs]
        exact decide_eq_true hmem

end BlobRelay
