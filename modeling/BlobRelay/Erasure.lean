import BlobRelay.DeletionAtomicity
import BlobRelay.Orphans

/-! # delete_blob_file with its erase apart (session_impl.cpp)

`Put` opens its file without the mutex of the session. Of a deletion that is under way
it sees the file system only, so between the moment at which the deletion has found the
file absent, or has removed it, and the erase of the entry an open can still create the
file. Here the erase is a step of its own too. -/

namespace BlobRelay
open Foundation Foundation.FileStore

inductive ErasurePc
  /-- The counter is decreased; `exists` is asked next. -/
  | released
  /-- The file was there; `std::filesystem::remove` is called next. -/
  | present
  /-- The file was not there, or is removed; `blobs_.erase` is called next. -/
  | gone
  deriving DecidableEq

/-- The local variables of `delete_blob_file`: what `itr` refers to. -/
structure Erasure where
  session : ℕ
  blobId : ℕ
  path : Path
  pc : ErasurePc
  deriving DecidableEq

inductive ErasureResult
  | inside (d : Erasure)
  | returned (r : Except Exn Unit)

/-- `blobs_.find` and, where there is an entry, `session_store_.remove`. -/
def enterErasure (cfg : Config) (s b : ℕ) (w : World) : Option (World × ErasureResult) :=
  (w.manager.blobSessions[s]?).map fun impl =>
    match impl.blobs[b]? with
    | none => (w, .returned (.ok ()))
    | some (path, size) => (w.giveBack cfg size, .inside ⟨s, b, path, .released⟩)

def erasureStep (f : Fault) (d : Erasure) (w : World) : Option (World × ErasureResult) :=
  (w.manager.blobSessions[d.session]?).map fun _ =>
    match d.pc with
    | .released =>
      if f = .existsThrows then (w, .returned (.error (.filesystemError "status")))
      else if w.files.present d.path then (w, .inside {d with pc := .present})
      else (w, .inside {d with pc := .gone})
    | .present =>
      if w.files.present d.path ∧ f = .removeThrows then
        (w, .returned (.error (.filesystemError "remove")))
      else ({w with files := w.files.unlink d.path}, .inside {d with pc := .gone})
    | .gone => (w.eraseEntry d.session d.blobId, .returned (.ok ()))

/-- A handler, and the deletion it has begun. -/
structure Eraser where
  handler : Handler
  erasure : Option Erasure

/-- The end of a handler's first step in a deletion, which has taken the mutex. -/
def LockedWorld.erasing (w : LockedWorld) (t : Handler) (r : World × ErasureResult) :
    LockedWorld × Eraser :=
  match r.2 with
  | .inside d => (⟨r.1, d.session :: w.locked⟩, ⟨t, some d⟩)
  | .returned x => (⟨r.1, w.locked⟩, ⟨t.deleted x, none⟩)

/-- The end of a later step, which gives the mutex back when the deletion returns. -/
def LockedWorld.erased (w : LockedWorld) (t : Handler) (s : ℕ) (r : World × ErasureResult) :
    LockedWorld × Eraser :=
  match r.2 with
  | .inside d => (⟨r.1, w.locked⟩, ⟨t, some d⟩)
  | .returned x => (⟨r.1, w.locked.erase s⟩, ⟨t.deleted x, none⟩)

def eraserStep (cfg : Config) (f : Fault) (w : LockedWorld) (t : Eraser) :
    Option (LockedWorld × Eraser) :=
  match t.erasure with
  | some d => (erasureStep f d w.world).map (w.erased t.handler d.session)
  | none =>
    match t.handler.deletes with
    | some (s, b) =>
      if s ∈ w.locked then none else (enterErasure cfg s b w.world).map (w.erasing t.handler)
    | none =>
      if t.handler.locks.any (· ∈ w.locked) then none
      else (handlerStep cfg f w.world t.handler).map fun r => (⟨r.1, w.locked⟩, ⟨r.2, none⟩)

abbrev ErasureSystem := Pool LockedWorld Eraser

def erasureSystemStep (cfg : Config) : SystemMove → ErasureSystem → Option ErasureSystem :=
  Pool.step (lockedEnvStep cfg) (fun c => ⟨c.start, none⟩) (eraserStep cfg)

/-- No deletion has begun. -/
def unerased (σ : System) : ErasureSystem := ⟨⟨σ.shared, []⟩, σ.threads.map fun t => ⟨t, none⟩⟩

/-! ### What one step does -/

variable {cfg : Config} {f : Fault} {w w' : World} {v v' : LockedWorld} {t t' : Eraser}
  {d : Erasure} {σ₀ : System}

/-- The steps of a handler, by what they do to the world; which mutexes are held does not
matter here. -/
inductive EraserStepped (cfg : Config) (f : Fault) (w : World) (t : Eraser) : World → Eraser → Prop
  | whole {w' : World} {h' : Handler} : t.handler.deletes = none →
      handlerStep cfg f w t.handler = some (w', h') → EraserStepped cfg f w t w' ⟨h', none⟩
  | nothing : EraserStepped cfg f w t w ⟨t.handler.deleted (.ok ()), none⟩
  | entered {s b : ℕ} {e : Path × ℕ} : w.manager.Entry s b e →
      EraserStepped cfg f w t (w.giveBack cfg e.2) ⟨t.handler, some ⟨s, b, e.1, .released⟩⟩
  | throws {x : Exn} : EraserStepped cfg f w t w ⟨t.handler.deleted (.error x), none⟩
  | asked {d : Erasure} : t.erasure = some d →
      EraserStepped cfg f w t w ⟨t.handler, some {d with pc := .present}⟩
  | absent {d : Erasure} : t.erasure = some d → w.files.present d.path = false →
      EraserStepped cfg f w t w ⟨t.handler, some {d with pc := .gone}⟩
  | removed {d : Erasure} : t.erasure = some d →
      EraserStepped cfg f w t {w with files := w.files.unlink d.path}
        ⟨t.handler, some {d with pc := .gone}⟩
  | erased {d : Erasure} : t.erasure = some d → d.pc = .gone →
      EraserStepped cfg f w t (w.eraseEntry d.session d.blobId) ⟨t.handler.deleted (.ok ()), none⟩

theorem eraserStep_inside (cfg : Config) {r : World × ErasureResult} (hd : t.erasure = some d)
    (h : erasureStep f d w = some r) (v : LockedWorld) (s : ℕ) :
    EraserStepped cfg f w t (v.erased t.handler s r).1.world (v.erased t.handler s r).2 := by
  obtain ⟨impl, _, rfl⟩ := Option.map_eq_some_iff.mp h
  split
  · split
    · exact .throws
    · split
      · exact .asked hd
      · exact .absent hd (Bool.eq_false_iff.mpr ‹_›)
  · split
    · exact .throws
    · exact .removed hd
  · exact .erased hd ‹_›

theorem eraserStep_cases (h : eraserStep cfg f v t = some (v', t')) :
    EraserStepped cfg f v.world t v'.world t' := by
  unfold eraserStep at h
  split at h
  · rename_i d hd
    obtain ⟨r, hr, he⟩ := Option.map_eq_some_iff.mp h
    have hstep := eraserStep_inside cfg hd hr v d.session
    rw [he] at hstep
    exact hstep
  · split at h
    · rename_i s b _
      split at h
      · cases h
      · obtain ⟨r, hr, he⟩ := Option.map_eq_some_iff.mp h
        obtain ⟨impl, hs, rfl⟩ := Option.map_eq_some_iff.mp hr
        cases hb : impl.blobs[b]? with
        | none =>
          rw [hb] at he
          cases he
          exact .nothing
        | some e =>
          rw [hb] at he
          cases he
          exact .entered ⟨impl, hs, hb⟩
    · rename_i hdel
      split at h
      · cases h
      · obtain ⟨r, hr, he⟩ := Option.map_eq_some_iff.mp h
        cases he
        exact .whole hdel hr

/-! ### The steps with the erase beside them -/

def Deletion.erasure (d : Deletion) : Erasure :=
  ⟨d.session, d.blobId, d.entry.1,
    match d.pc with
      | .released => .released
      | .present => .present⟩

def DeletionResult.erasing : DeletionResult → ErasureResult
  | .inside d => .inside d.erasure
  | .returned x => .returned x

def Caller.eraser (t : Caller) : Eraser := ⟨t.handler, t.deletion.map Deletion.erasure⟩

/-- The last step of a deletion is made of its last access to the file and the erase. -/
theorem deletionStep_erasure {d : Deletion} {r : DeletionResult}
    (h : deletionStep f d w = some (w', r)) :
    erasureStep f d.erasure w = some (w', r.erasing) ∨
      ∃ u, u.manager = w.manager ∧
        erasureStep f d.erasure w = some (u, .inside {d.erasure with pc := .gone}) ∧
        erasureStep f {d.erasure with pc := .gone} u = some (w', r.erasing) := by
  obtain ⟨impl, hs, he⟩ := Option.map_eq_some_iff.mp h
  have hs' : w.manager.blobSessions[d.erasure.session]? = some impl := hs
  obtain ⟨s, b, entry, pc⟩ := d
  cases pc with
  | released =>
    dsimp only at he
    by_cases hexists : f = .existsThrows
    · rw [if_pos hexists] at he
      cases he
      left
      simp [erasureStep, Deletion.erasure, hs, hexists, DeletionResult.erasing]
    · rw [if_neg hexists] at he
      by_cases hp : w.files.present entry.1 = true
      · rw [if_pos hp] at he
        cases he
        left
        simp [erasureStep, Deletion.erasure, hs, hexists, hp, DeletionResult.erasing]
      · rw [if_neg hp] at he
        cases he
        right
        refine ⟨w, rfl, ?_, ?_⟩
        · simp [erasureStep, Deletion.erasure, hs, hexists, hp]
        · simp [erasureStep, Deletion.erasure, hs, DeletionResult.erasing]
  | present =>
    dsimp only at he
    by_cases hp : w.files.present entry.1 = true
    · rw [if_pos hp] at he
      by_cases hremove : f = .removeThrows
      · rw [if_pos hremove] at he
        cases he
        left
        simp [erasureStep, Deletion.erasure, hs, hp, hremove, DeletionResult.erasing]
      · rw [if_neg hremove] at he
        cases he
        right
        refine ⟨{w with files := w.files.unlink entry.1}, rfl, ?_, ?_⟩
        · simp [erasureStep, Deletion.erasure, hs, hremove]
        · simp only [erasureStep, Deletion.erasure, hs, Option.map_some]
          rfl
    · rw [if_neg hp] at he
      cases he
      right
      refine ⟨w, rfl, ?_, ?_⟩
      · simp [erasureStep, Deletion.erasure, hs, hp,
          FileSystem.unlink_of_absent (Bool.eq_false_iff.mpr hp)]
      · simp [erasureStep, Deletion.erasure, hs, DeletionResult.erasing]

theorem enterDeletion_erasing {s b : ℕ} {r : World × DeletionResult}
    (h : enterDeletion cfg s b w = some r) :
    enterErasure cfg s b w = some (r.1, r.2.erasing) := by
  obtain ⟨impl, hs, he⟩ := Option.map_eq_some_iff.mp h
  simp only [enterErasure, hs, Option.map_some]
  cases hb : impl.blobs[b]? with
  | none =>
    rw [hb] at he
    cases he
    rfl
  | some e =>
    rw [hb] at he
    cases he
    rfl

theorem entered_erasing (v : LockedWorld) (h : Handler) (r : World × DeletionResult) :
    v.erasing h (r.1, r.2.erasing) = ((v.entered h r).1, (v.entered h r).2.eraser) := by
  obtain ⟨w₁, r⟩ := r
  cases r <;> rfl

theorem continued_erased (v : LockedWorld) (h : Handler) (s : ℕ) (r : World × DeletionResult) :
    v.erased h s (r.1, r.2.erasing) = ((v.continued h s r).1, (v.continued h s r).2.eraser) := by
  obtain ⟨w₁, r⟩ := r
  cases r <;> rfl

theorem callerStep_eraser {c c' : Caller} (h : callerStep cfg f v c = some (v', c')) :
    eraserStep cfg f v c.eraser = some (v', c'.eraser) ∨
      ∃ u t, u.world.manager = v.world.manager ∧ eraserStep cfg f v c.eraser = some (u, t) ∧
        eraserStep cfg f u t = some (v', c'.eraser) := by
  obtain ⟨handler, deletion⟩ := c
  cases deletion with
  | some d =>
    obtain ⟨r, hr, he⟩ := Option.map_eq_some_iff.mp h
    have hend : (v.erased handler d.erasure.session (r.1, r.2.erasing)) = (v', c'.eraser) := by
      rw [show d.erasure.session = d.session from rfl, continued_erased, he]
    rcases deletionStep_erasure hr with hone | ⟨w₁, hm, hfirst, hlast⟩
    · left
      simp only [eraserStep, Caller.eraser, Option.map_some, hone, hend]
    · right
      refine ⟨⟨w₁, v.locked⟩, ⟨handler, some {d.erasure with pc := .gone}⟩, hm, ?_, ?_⟩
      · simp only [eraserStep, Caller.eraser, Option.map_some, hfirst]
        rfl
      · simp only [eraserStep, hlast, Option.map_some]
        exact congrArg some hend
  | none =>
    left
    show eraserStep cfg f v ⟨handler, none⟩ = some (v', c'.eraser)
    cases hdel : handler.deletes with
    | some x =>
      obtain ⟨s, b⟩ := x
      simp only [callerStep, hdel] at h
      simp only [eraserStep, hdel]
      by_cases hheld : s ∈ v.locked
      · rw [if_pos hheld] at h
        cases h
      · rw [if_neg hheld] at h ⊢
        obtain ⟨r, hr, he⟩ := Option.map_eq_some_iff.mp h
        rw [enterDeletion_erasing hr, Option.map_some, entered_erasing, he]
    | none =>
      simp only [callerStep, hdel] at h
      simp only [eraserStep, hdel]
      by_cases hheld : handler.locks.any (· ∈ v.locked) = true
      · rw [if_pos hheld] at h
        cases h
      · rw [if_neg hheld] at h ⊢
        obtain ⟨r, hr, he⟩ := Option.map_eq_some_iff.mp h
        cases he
        rw [hr]
        rfl

theorem mapThreads_idle (σ : System) : (idle σ).mapThreads Caller.eraser = unerased σ := by
  simp only [idle, unerased, Pool.mapThreads, List.map_map]
  rfl

/-- Every run with the erase beside the last access to the file is one with the erase
apart. -/
theorem locked_erases {σ : LockedSystem} {ls : List SystemMove}
    (hrun : Run (lockedStep cfg) (fun σ _ => Headroom σ.shared.world) (idle σ₀) ls σ) :
    ∃ ls', Run (erasureSystemStep cfg) (fun σ _ => Headroom σ.shared.world) (unerased σ₀) ls'
      (σ.mapThreads Caller.eraser) := by
  rw [← mapThreads_idle σ₀]
  refine hrun.embed _ fun σ l σ' hroom hst => ?_
  cases l with
  | env a =>
    obtain ⟨v, hv, rfl⟩ := Pool.step_env hst
    have hone : erasureSystemStep cfg (.env a) (σ.mapThreads Caller.eraser) =
        some (Pool.mapThreads Caller.eraser ⟨v, σ.threads⟩) := by
      show (lockedEnvStep cfg a σ.shared).map _ = _
      rw [hv]
      rfl
    exact ⟨_, .cons hroom hone (.nil _)⟩
  | call c =>
    obtain rfl := Pool.step_call hst
    have hone : erasureSystemStep cfg (.call c) (σ.mapThreads Caller.eraser) =
        some (Pool.mapThreads Caller.eraser ⟨σ.shared, σ.threads ++ [⟨c.start, none⟩]⟩) := by
      simp only [erasureSystemStep, Pool.step, Pool.mapThreads, List.map_append]
      rfl
    exact ⟨_, .cons hroom hone (.nil _)⟩
  | run i f =>
    obtain ⟨t, v, t', ht, hcaller, rfl⟩ := Pool.step_run hst
    have hthread : (σ.mapThreads Caller.eraser).threads[i]? = some t.eraser := by
      show (σ.threads.map Caller.eraser)[i]? = _
      rw [List.getElem?_map, ht, Option.map_some]
    have hlt : i < (σ.mapThreads Caller.eraser).threads.length :=
      (List.getElem?_eq_some_iff.mp hthread).1
    have hset : Pool.mapThreads Caller.eraser ⟨v, σ.threads.set i t'⟩ =
        ⟨v, (σ.mapThreads Caller.eraser).threads.set i t'.eraser⟩ := by
      simp only [Pool.mapThreads, List.map_set]
    rw [hset]
    rcases callerStep_eraser hcaller with hone | ⟨u, s, hm, hfirst, hlast⟩
    · exact ⟨[.run i f], .cons hroom (Pool.step_of_run hthread hone) (.nil _)⟩
    · have hroom' : Headroom u.world := by
        unfold Headroom
        rw [hm]
        exact hroom
      have hsecond : erasureSystemStep cfg (.run i f)
          ⟨u, (σ.mapThreads Caller.eraser).threads.set i s⟩ =
            some ⟨v, (σ.mapThreads Caller.eraser).threads.set i t'.eraser⟩ := by
        rw [erasureSystemStep, Pool.step_of_run (List.getElem?_set_self hlt) hlast, List.set_set]
      exact ⟨[.run i f, .run i f], .cons hroom (Pool.step_of_run hthread hfirst)
        (.cons hroom' hsecond (.nil _))⟩

/-- So is every run of the service. -/
theorem service_erases {σ : System} {ls : List SystemMove} (h₀ : Initial cfg σ₀)
    (hrun : Run (systemStep cfg) (fun σ _ => Headroom σ.shared) σ₀ ls σ) :
    ∃ ls', Run (erasureSystemStep cfg) (fun σ _ => Headroom σ.shared.world) (unerased σ₀) ls'
      (unerased σ) := by
  obtain ⟨ls₁, hlocked⟩ := atomic_embeds h₀ hrun
  rw [← mapThreads_idle σ]
  exact locked_erases (hlocked.mono fun _ _ halike => halike.1)

/-! ### What a step keeps -/

/-- The upload whose file the handler's next step creates. -/
def Handler.creates (f : Fault) (w : World) : Handler → Option Upload
  | .put _ (.created u _) =>
    if openBlobFile (f ≠ .openFails) u.path w.files = none then none else some u
  | _ => none

/-- A step outside deletions creates the file of an upload, or erases a session, or
keeps every entry and gives no file a name. -/
theorem handlerStep_creates {h h' : Handler} (hstep : handlerStep cfg f w h = some (w', h'))
    (hdel : h.deletes = none) :
    (∃ u i fs, h.creates f w = some u ∧ h.upload = some u ∧
      w.files.openWrite u.path = some (i, fs) ∧ w' = {w with files := fs}) ∨
    (∃ s, h.erases = some s ∧ w' = {w with manager := w.manager.dispose s}) ∨
    ((∀ s b e, w.manager.Entry s b e → Kept w'.manager s b e) ∧ NamesShrink w w' none) := by
  have hkept : h.erases = none → ∀ s b e, w.manager.Entry s b e → Kept w'.manager s b e := by
    intro her s b e he
    refine kept_handlerStep hstep ?_ ?_ he
    · rw [her]
      nofun
    · rw [hdel]
      nofun
  have hsame : w' = w → h.erases = none → (∀ s b e, w.manager.Entry s b e →
      Kept w'.manager s b e) ∧ NamesShrink w w' none := by
    rintro rfl her
    exact ⟨hkept her, fun _ _ => Or.inl rfl⟩
  cases h with
  | put messages pc =>
    obtain ⟨pc', rfl, hput⟩ := handlerStep_put hstep
    by_cases hopens : pc.opens = none
    · have hshrink := namesShrink_putStepped hput
      rw [hopens] at hshrink
      exact Or.inr (Or.inr ⟨hkept rfl, hshrink⟩)
    · cases pc with
      | created u rest =>
        obtain ⟨r, hr, he⟩ := Option.map_eq_some_iff.mp hstep
        cases he
        dsimp only [putStep] at hr
        split at hr
        · cases hr
          exact Or.inr (Or.inr (hsame rfl rfl))
        · rename_i out fs ho
          obtain ⟨_, i, hi, _⟩ := openBlobFile_some ho
          cases hr
          refine Or.inl ⟨u, i, fs, if_neg ?_, rfl, hi, rfl⟩
          rw [ho]
          nofun
      | _ => exact absurd rfl hopens
  | get request pc =>
    obtain ⟨rfl, _⟩ := handlerStep_get hstep
    exact Or.inr (Or.inr (hsame rfl rfl))
  | remove r ids pc =>
    obtain ⟨_, hrem⟩ := handlerStep_remove hstep
    rw [Option.map_eq_none_iff.mp hdel] at hrem
    cases hrem
    exact Or.inr (Or.inr (hsame rfl rfl))
  | dispose r pc =>
    obtain ⟨_, ⟨hpc, hdis⟩ | ⟨rfl, _, rfl⟩⟩ := handlerStep_dispose hstep
    · rw [Option.map_eq_none_iff.mp hdel] at hdis
      cases hdis
      have hlater : (Handler.dispose r pc).erases = none := by
        unfold Handler.erases
        split
        · rename_i heq
          cases heq
          exact absurd rfl hpc
        · rfl
      exact Or.inr (Or.inr (hsame rfl hlater))
    · exact Or.inr (Or.inl ⟨r, rfl, rfl⟩)

/-- What is known of `itr` without the mutex. -/
structure Erasure.Valid (cfg : Config) (w : World) (d : Erasure) : Prop where
  issued : d.blobId ≤ w.manager.blobId
  path : ∀ e, w.manager.Entry d.session d.blobId e → e.1 = d.path
  absent : d.pc = .gone → d.path = uploadPath cfg d.blobId →
    w.files.names (uploadPath cfg d.blobId) = none

theorem Erasure.Valid.evolves (h : d.Valid cfg w) (hev : Evolves w w')
    (habsent : d.pc = .gone → w.files.names (uploadPath cfg d.blobId) = none →
      w'.files.names (uploadPath cfg d.blobId) = none) : d.Valid cfg w' := by
  refine ⟨h.issued.trans hev.blobId, fun e he => ?_, fun hpc hp => habsent hpc (h.absent hpc hp)⟩
  rcases hev.entry _ _ e he with ⟨e', he', hpath⟩ | hlt
  · exact hpath.trans (h.path e' he')
  · have hle := h.issued
    omega

structure Eraser.Valid (cfg : Config) (w : World) (t : Eraser) : Prop where
  thread : ThreadInv cfg w t.handler
  erasure : ∀ d, t.erasure = some d → d.Valid cfg w

/-- The deletion of the blob erases its entry next. -/
def Eraser.erasesNext (b : ℕ) (t : Eraser) : Bool :=
  t.erasure.any fun d => d.blobId == b && d.pc == .gone

/-- Files are created while their entry is there and no deletion is about to erase it, and
sessions are erased when no file of an upload is left in them. -/
def KeepsEntries (cfg : Config) (σ : ErasureSystem) (l : SystemMove) : Prop :=
  Headroom σ.shared.world ∧
    match l with
    | .run i f => ∀ t ∈ σ.threads[i]?,
        (∀ u ∈ t.handler.creates f σ.shared.world,
          σ.shared.world.manager.pathOf u.session u.blobId ≠ none ∧
            ∀ v ∈ σ.threads, v.erasesNext u.blobId = false) ∧
          ∀ s ∈ t.handler.erases, Emptied cfg σ.shared.world s
    | _ => True

instance (cfg : Config) (σ : ErasureSystem) : ∀ l, Decidable (KeepsEntries cfg σ l)
  | .run i f => inferInstanceAs (Decidable (_ ∧ ∀ t ∈ σ.threads[i]?,
      (∀ u ∈ t.handler.creates f σ.shared.world,
        σ.shared.world.manager.pathOf u.session u.blobId ≠ none ∧
          ∀ v ∈ σ.threads, v.erasesNext u.blobId = false) ∧
        ∀ s ∈ t.handler.erases, Emptied cfg σ.shared.world s))
  | .env _ => inferInstanceAs (Decidable (_ ∧ True))
  | .call _ => inferInstanceAs (Decidable (_ ∧ True))

theorem ThreadInv.deleted {h : Handler} (ht : ThreadInv cfg w h) (r : Except Exn Unit) :
    ThreadInv cfg w (h.deleted r) := by
  unfold Handler.deleted
  split
  · exact .of_upload (ht.upload _ rfl) (fun u hu => (Option.some.inj hu).symm) rfl
  · exact .of_none rfl rfl
  · exact .of_none rfl rfl
  · exact ht

theorem safe_eraseEntry (cfg : Config) (s b : ℕ) : Safe cfg w (w.eraseEntry s b) := by
  have hsessions : KeepsSessions w.manager (w.eraseEntry s b).manager :=
    .of_updateSession s (fun _ => rfl) rfl rfl rfl
  exact safe_of_fewer rfl id hsessions (fun r c e he => ⟨e, (entry_eraseEntry.mp he).1, rfl⟩)
    (fun _ _ h => h) rfl

/-- The world stays in order, and so does the handler that moves. -/
theorem EraserStepped.safe (h : EraserStepped cfg f w t w' t') (hroom : Headroom w)
    (hw : WorldInv cfg w) (ht : ThreadInv cfg w t.handler) :
    Safe cfg w w' ∧ ThreadInv cfg w' t'.handler := by
  cases h with
  | whole hdel hstep => exact handlerStep_safe hstep (hroom.room _) hw ht
  | nothing => exact ⟨.refl cfg w, ht.deleted (.ok ())⟩
  | @entered s b e he =>
    have hsafe : Safe cfg w (w.giveBack cfg e.2) := safe_counter release_lt
    exact ⟨hsafe, ht.evolves hsafe.evolves⟩
  | @throws x => exact ⟨.refl cfg w, ht.deleted (.error x)⟩
  | asked => exact ⟨.refl cfg w, ht⟩
  | absent => exact ⟨.refl cfg w, ht⟩
  | @removed d =>
    have hsafe : Safe cfg w {w with files := w.files.unlink d.path} := safe_unlink d.path
    exact ⟨hsafe, ht.evolves hsafe.evolves⟩
  | @erased d =>
    have hsafe := safe_eraseEntry (w := w) cfg d.session d.blobId
    exact ⟨hsafe, (ht.evolves hsafe.evolves).deleted (.ok ())⟩

/-- A file that is not there is not created by any step but the open of its upload. -/
theorem EraserStepped.absent_kept (h : EraserStepped cfg f w t w' t')
    (ht : ThreadInv cfg w t.handler) {k : ℕ}
    (hk : ∀ u ∈ t.handler.creates f w, u.blobId ≠ k)
    (hnone : w.files.names (uploadPath cfg k) = none) :
    w'.files.names (uploadPath cfg k) = none := by
  cases h with
  | whole hdel hstep =>
    rcases handlerStep_creates hstep hdel with
      ⟨u, i, fs, hcreates, hu, hopen, rfl⟩ | ⟨s, _, rfl⟩ | ⟨_, hshrink⟩
    · have hne : uploadPath cfg k ≠ u.path := by
        rw [(ht.upload u hu).path]
        exact fun hp => hk u hcreates (uploadPath_injective cfg hp).symm
      exact (FileSystem.openWrite_names_of_ne hopen hne).trans hnone
    · exact hnone
    · rcases hshrink (uploadPath cfg k) nofun with hsame | hgone
      · exact hsame.trans hnone
      · exact hgone
  | removed =>
    dsimp only
    rw [FileSystem.names_unlink, hnone, ite_self]
  | _ => exact hnone

/-- What the handler that moves knows of its deletion. -/
theorem EraserStepped.erasure (h : EraserStepped cfg f w t w' t') (hw : WorldInv cfg w)
    (ht : t.Valid cfg w) (d : Erasure) (hd : t'.erasure = some d) : d.Valid cfg w' := by
  cases h with
  | @entered s b e he =>
    obtain rfl := Option.some.inj hd
    refine ⟨(hw.blobIds s b e he).2, fun e' he' => ?_, fun hpc => by cases hpc⟩
    have hsame : w.manager.Entry s b e' := he'
    exact congrArg Prod.fst (hsame.unique he)
  | asked hold =>
    obtain rfl := Option.some.inj hd
    exact ⟨(ht.erasure _ hold).issued, (ht.erasure _ hold).path, fun hpc => by cases hpc⟩
  | absent hold hfile =>
    obtain rfl := Option.some.inj hd
    refine ⟨(ht.erasure _ hold).issued, (ht.erasure _ hold).path, fun _ hp => ?_⟩
    exact hp ▸ FileSystem.present_eq_false_iff.mp hfile
  | removed hold =>
    obtain rfl := Option.some.inj hd
    refine ⟨(ht.erasure _ hold).issued, (ht.erasure _ hold).path, fun _ hp => ?_⟩
    dsimp only at hp ⊢
    rw [hp]
    exact FileSystem.names_unlink_self _ _
  | whole => cases hd
  | nothing => cases hd
  | throws => cases hd
  | erased => cases hd

theorem EraserStepped.attached (h : EraserStepped cfg f w t w' t') (ht : t.Valid cfg w)
    (hattached : Attached cfg w)
    (hopens : ∀ u ∈ t.handler.creates f w, w.manager.pathOf u.session u.blobId ≠ none)
    (herases : ∀ s ∈ t.handler.erases, Emptied cfg w s) : Attached cfg w' := by
  cases h with
  | whole hdel hstep =>
    rcases handlerStep_creates hstep hdel with
      ⟨u, i, fs, hcreates, hu, hopen, rfl⟩ | ⟨s, hs, rfl⟩ | ⟨hkept, hshrink⟩
    · obtain ⟨e, he⟩ := pathOf_ne_none (hopens u hcreates)
      exact attached_opened hattached (ht.thread.upload u hu) he hopen
    · exact attached_dispose hattached (herases s hs)
    · refine attached_of_kept hattached (fun k hk hold => hk ?_) fun s k n he _ => hkept s k _ he
      rcases hshrink (uploadPath cfg k) nofun with hsame | hgone
      · exact hsame.trans hold
      · exact hgone
  | entered he =>
    exact attached_same hattached rfl fun s k e he => kept_of_entry he
  | removed =>
    refine attached_of_kept hattached (fun k hk hold => hk ?_) fun s k n he _ => kept_of_entry he
    dsimp only
    rw [FileSystem.names_unlink, hold, ite_self]
  | @erased d hd hpc =>
    refine attached_of_kept hattached (fun k hk => hk) fun s k n he hk => kept_of_entry ?_
    refine entry_eraseEntry.mpr ⟨he, ?_⟩
    rintro ⟨rfl, rfl⟩
    -- the file of the entry that goes was gone before
    have hvalid := ht.erasure d hd
    exact hk (hvalid.absent hpc (hvalid.path _ he).symm)
  | _ => exact hattached

/-! ### Every run -/

def ErasureInv (cfg : Config) (σ : ErasureSystem) : Prop :=
  Pool.Holds (fun v => WorldInv cfg v.world ∧ Attached cfg v.world)
    (fun v t => t.Valid cfg v.world) (fun _ _ => True) σ

section Run
variable {σ σ' : ErasureSystem} {l : SystemMove}

theorem Eraser.erasesNext_of_gone (hd : t.erasure = some d) (hpc : d.pc = .gone) :
    t.erasesNext d.blobId = true := by
  simp [Eraser.erasesNext, hd, hpc]

theorem erasureInv_env {a : EnvAction} (h : ErasureInv cfg σ) (hroom : Headroom σ.shared.world)
    (hst : lockedEnvStep cfg a σ.shared = some v') : ErasureInv cfg {σ with shared := v'} := by
  unfold lockedEnvStep at hst
  split at hst
  · cases hst
  · obtain ⟨w', hw, rfl⟩ := Option.map_eq_some_iff.mp hst
    have hsafe := envStep_safe hw (hroom.room _)
    refine h.of_env ⟨hsafe.inv h.shared.1, attached_envStep h.shared.2 hw⟩ fun i t ht => ?_
    have hvalid := h.thread i t ht
    refine ⟨hvalid.thread.evolves hsafe.evolves, fun d hd =>
      (hvalid.erasure d hd).evolves hsafe.evolves fun _ hnone => ?_⟩
    exact absent_envStep hw (uploadPath_inDirectory cfg _) hnone

/-- A handler moves under the condition, and every deletion under way still knows its
entry: the only file that comes is the one just opened, which no deletion takes for gone. -/
theorem erasureInv_run {i : ℕ} (h : ErasureInv cfg σ) (ht : σ.threads[i]? = some t)
    (hok : KeepsEntries cfg σ (.run i f)) (hst : EraserStepped cfg f σ.shared.world t v'.world t') :
    ErasureInv cfg ⟨v', σ.threads.set i t'⟩ := by
  obtain ⟨hroom, hcond⟩ := hok
  obtain ⟨hcreates, herases⟩ := hcond t ht
  have hvalid := h.thread i t ht
  obtain ⟨hsafe, hthread⟩ := hst.safe hroom h.shared.1 hvalid.thread
  have hkeep : ∀ (j : ℕ) (u : Eraser) (d : Erasure), σ.threads[j]? = some u →
      u.erasure = some d → d.Valid cfg v'.world := by
    intro j u d hu hd
    refine ((h.thread j u hu).erasure d hd).evolves hsafe.evolves fun hpc hnone => ?_
    refine hst.absent_kept hvalid.thread (fun w hw heq => ?_) hnone
    have hnot := (hcreates w hw).2 u (List.mem_of_getElem? hu)
    rw [heq, Eraser.erasesNext_of_gone hd hpc] at hnot
    cases hnot
  have hattached : Attached cfg v'.world :=
    hst.attached hvalid h.shared.2 (fun u hu => (hcreates u hu).1) herases
  refine h.of_run ⟨hsafe.inv h.shared.1, hattached⟩ ⟨hthread, hst.erasure h.shared.1 hvalid⟩
    fun j u _ hu => ⟨⟨?_, fun d hd => hkeep j u d hu hd⟩, trivial, trivial⟩
  exact (h.thread j u hu).thread.evolves hsafe.evolves

theorem erasureInv_step (h : ErasureInv cfg σ) (hok : KeepsEntries cfg σ l)
    (hst : erasureSystemStep cfg l σ = some σ') : ErasureInv cfg σ' := by
  cases l with
  | env a =>
    obtain ⟨v', hv, rfl⟩ := Pool.step_env hst
    exact erasureInv_env h hok.1 hv
  | call c =>
    obtain rfl := Pool.step_call hst
    refine h.of_call ⟨.of_none c.start_upload c.start_handle, fun d hd => ?_⟩
      fun _ _ _ => ⟨trivial, trivial⟩
    cases hd
  | run i f =>
    obtain ⟨t, v', t', ht, hone, rfl⟩ := Pool.step_run hst
    exact erasureInv_run h ht hok (eraserStep_cases hone)

theorem erasureInv_initial {σ₀ : System} (h₀ : Initial cfg σ₀) : ErasureInv cfg (unerased σ₀) := by
  have hinv := inv_initial h₀
  obtain ⟨⟨_, fs, hfs⟩, hthreads⟩ := h₀
  refine ⟨⟨hinv.shared, fun k hk => absurd (constructStore_uploads hfs k) hk⟩, ?_, ?_⟩
  · intro i t ht
    simp [unerased, hthreads] at ht
  · exact fun _ _ _ _ _ _ _ => trivial

/-- In every run that creates the files of uploads while their entries are there to stay,
and erases sessions without such files, each upload file is the path of an entry of a live
session. -/
theorem no_orphan_file {σ₀ : System} {ls : List SystemMove} (h₀ : Initial cfg σ₀)
    (hrun : Run (erasureSystemStep cfg) (KeepsEntries cfg) (unerased σ₀) ls σ) :
    Attached cfg σ.shared.world :=
  (hrun.invariant (ErasureInv cfg) (fun _ _ _ h hok hst => erasureInv_step h hok hst)
    (erasureInv_initial h₀)).shared.2

/-- A deletion has found no file of the upload; the file is opened while the entry is still
there, and then the entry goes. -/
def openedBeforeErase : List SystemMove :=
  [.env (.createSession none), .call (.put [.metadata ⟨1, 1, none⟩]), .run 0 .none, .run 0 .none,
    .call (.remove 1 [1]), .run 1 .none, .run 1 .none, .run 1 .none, .run 0 .none, .run 1 .none,
    .run 1 .none, .run 0 .none, .run 0 .none, .run 0 .none]

theorem orphan_file : ¬ ∀ (cfg : Config) (σ₀ : System) (σ : ErasureSystem) (ls : List SystemMove),
    Initial cfg σ₀ →
    Run (erasureSystemStep cfg) (fun σ _ => Headroom σ.shared.world) (unerased σ₀) ls σ →
    (∀ t ∈ σ.threads, t.handler.finished = true) → Attached cfg σ.shared.world := by
  intro h
  obtain ⟨σ, hσ, hend⟩ := (Option.any_eq_true
    (fun σ : ErasureSystem => σ.threads.all (fun t => t.handler.finished) &&
      σ.shared.world.files.present (uploadPath smallConfig 1) &&
      σ.shared.world.manager.blobSessions.keys == [1] &&
      σ.shared.world.manager.pathOf 1 1 == none) _).mp
    (by decide : (exec (erasureSystemStep smallConfig)
      (fun σ _ => decide (Headroom σ.shared.world)) openedBeforeErase
      (unerased smallStart)).any _ = true)
  simp only [Bool.and_eq_true, beq_iff_eq, List.all_eq_true] at hend
  obtain ⟨⟨⟨hfinished, hpresent⟩, hkeys⟩, hgone⟩ := hend
  have hrun : Run (erasureSystemStep smallConfig) (fun σ _ => Headroom σ.shared.world)
      (unerased smallStart) openedBeforeErase σ := .of_exec hσ fun _ _ _ hc => of_decide_eq_true hc
  have hattached := h smallConfig smallStart σ openedBeforeErase smallStart_initial hrun hfinished
  have hname : σ.shared.world.files.names (uploadPath smallConfig 1) ≠ none := by
    intro hnone
    rw [FileSystem.present_eq_false_iff.mpr hnone] at hpresent
    cases hpresent
  obtain ⟨s, n, he⟩ := hattached 1 hname
  have hs : s ∈ σ.shared.world.manager.blobSessions.keys :=
    (OrderedMap.mem_keys_iff _ _).mpr ⟨_, he.live.choose_spec⟩
  rw [hkeys, List.mem_singleton] at hs
  subst hs
  rw [he.pathOf] at hgone
  cases hgone

/-- Three uploads and a `remove` of the first, step by step in between; then the session of
the second is disposed. -/
def attachedRun : List SystemMove :=
  [.env (.createSession none), .env (.createSession none),
    .call (.put [.metadata ⟨1, 1, none⟩]), .call (.put [.metadata ⟨1, 2, none⟩]),
    .run 0 .none, .run 1 .none, .run 0 .none, .run 1 .none, .run 0 .none,
    .call (.remove 1 [1]), .call (.put [.metadata ⟨1, 1, none⟩, .chunk [7]]), .run 3 .none,
    .run 3 .none, .run 2 .none, .run 2 .none, .run 2 .none, .run 1 .none, .run 2 .none,
    .run 3 .none, .run 2 .none, .run 2 .none, .run 3 .none, .run 0 .none, .run 0 .none,
    .run 0 .none, .run 1 .none, .run 1 .none, .run 1 .none, .run 3 .none, .run 3 .none,
    .run 3 .none, .call (.dispose 2)] ++ List.replicate 7 (.run 4 .none)

theorem no_orphan_file_attachedRun : ∃ σ : ErasureSystem,
    exec (erasureSystemStep smallConfig) (fun σ l => decide (KeepsEntries smallConfig σ l))
      attachedRun (unerased smallStart) = some σ ∧
    (∀ t ∈ σ.threads, t.handler.finished = true) ∧
    σ.shared.world.files.names (uploadPath smallConfig 1) = none ∧
    σ.shared.world.files.names (uploadPath smallConfig 2) = none ∧
    ∃ s n, σ.shared.world.manager.Entry s 3 (uploadPath smallConfig 3, n) := by
  obtain ⟨σ, hσ, hend⟩ := (Option.any_eq_true
    (fun σ : ErasureSystem => σ.threads.all (fun t => t.handler.finished) &&
      !σ.shared.world.files.present (uploadPath smallConfig 1) &&
      !σ.shared.world.files.present (uploadPath smallConfig 2) &&
      σ.shared.world.files.present (uploadPath smallConfig 3)) _).mp
    (by decide : (exec (erasureSystemStep smallConfig)
      (fun σ l => decide (KeepsEntries smallConfig σ l)) attachedRun
      (unerased smallStart)).any _ = true)
  simp only [Bool.and_eq_true, Bool.not_eq_true', List.all_eq_true] at hend
  obtain ⟨⟨⟨hfinished, hfirst⟩, hsecond⟩, hthird⟩ := hend
  have hrun : Run (erasureSystemStep smallConfig) (KeepsEntries smallConfig)
      (unerased smallStart) attachedRun σ := .of_exec hσ fun _ _ _ hc => of_decide_eq_true hc
  refine ⟨σ, hσ, hfinished, FileSystem.present_eq_false_iff.mp hfirst,
    FileSystem.present_eq_false_iff.mp hsecond,
    no_orphan_file smallStart_initial hrun 3 fun hnone => ?_⟩
  rw [FileSystem.present_eq_false_iff.mpr hnone] at hthird
  cases hthird

end Run

end BlobRelay
