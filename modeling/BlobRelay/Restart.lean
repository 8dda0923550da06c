import BlobRelay.Persistence

/-! # Restarts (session_store.h)

The service may stop at any moment and be constructed again over the files it has left.
The constructor empties the store directory and starts from no session, so each life of
the service is a run from a newly constructed one. -/

namespace BlobRelay
open Foundation Foundation.FileStore

inductive LifeMove
  | serves (l : SystemMove)
  /-- The process ends, whatever is in progress, and the service is constructed again. -/
  | restarts (stuck : Option Path)
  deriving DecidableEq

def lifeStep (cfg : Config) : LifeMove → System → Option System
  | .serves l, σ => systemStep cfg l σ
  | .restarts stuck, σ =>
    match constructStore cfg.directory stuck σ.shared.files with
    | .ok files => some ⟨⟨.empty, files⟩, []⟩
    | .error _ => none

/-- The id counters do not run out within a life, and the store directory itself is
neither deleted nor registered as a blob. -/
def LifeOk (cfg : Config) (σ : System) (l : LifeMove) : Prop :=
  Headroom σ.shared ∧
    match l with
    | .serves (.env (.add _ path)) => cfg.canonical path ≠ cfg.directory
    | .serves (.env (.outsideDelete path)) => path ≠ cfg.directory
    | _ => True

instance (cfg : Config) (σ : System) : ∀ l, Decidable (LifeOk cfg σ l)
  | .serves (.env (.add _ path)) =>
    inferInstanceAs (Decidable (_ ∧ cfg.canonical path ≠ cfg.directory))
  | .serves (.env (.outsideDelete path)) => inferInstanceAs (Decidable (_ ∧ path ≠ cfg.directory))
  | .serves (.env (.createSession _)) => inferInstanceAs (Decidable (_ ∧ True))
  | .serves (.env (.outsideWrite _ _)) => inferInstanceAs (Decidable (_ ∧ True))
  | .serves (.call _) => inferInstanceAs (Decidable (_ ∧ True))
  | .serves (.run _ _) => inferInstanceAs (Decidable (_ ∧ True))
  | .restarts _ => inferInstanceAs (Decidable (_ ∧ True))

/-- What the constructor checks of the directory holds, and no entry names it. -/
structure DirectoryStands (cfg : Config) (w : World) : Prop where
  directory : w.files.names cfg.directory = some (.directory true)
  entry : ∀ s b e, w.manager.Entry s b e → e.1 ≠ cfg.directory

variable {cfg : Config} {f : Fault} {w w' : World} {t t' : Handler} {σ σ' : System}

theorem uploadPath_ne_directory (cfg : Config) (b : ℕ) : uploadPath cfg b ≠ cfg.directory := by
  intro h
  have hlen := congrArg List.length h
  simp [uploadPath, blobFilePath] at hlen

theorem constructStore_ok {stuck : Option Path} {fs fs' : Files}
    (h : constructStore cfg.directory stuck fs = .ok fs') :
    fs.names cfg.directory = some (.directory true) ∧ stuck = none ∧
      fs' = fs.unlinkAll (inDirectory cfg.directory) := by
  unfold constructStore at h
  split at h
  · cases h
  · rename_i writable hdir
    split at h
    · rename_i hw
      split at h
      · cases h
      · cases h
        exact ⟨hw ▸ hdir, rfl, rfl⟩
    · cases h
  · cases h

theorem constructStore_succeeds {fs : Files}
    (h : fs.names cfg.directory = some (.directory true)) :
    constructStore cfg.directory none fs = .ok (fs.unlinkAll (inDirectory cfg.directory)) := by
  simp only [constructStore, h, if_true]

theorem stands_initial (h : Initial cfg σ) : DirectoryStands cfg σ.shared := by
  obtain ⟨⟨hm, fs, hfs⟩, _⟩ := h
  obtain ⟨hdir, _, hfiles⟩ := constructStore_ok hfs
  refine ⟨?_, fun s b e he => ?_⟩
  · rw [hfiles]
    simp [FileSystem.unlinkAll, inDirectory, hdir]
  · obtain ⟨impl, hs, _⟩ := he
    simp [hm, BlobSessionManager.empty] at hs

theorem DirectoryStands.kept (h : DirectoryStands cfg w)
    (hnames : w'.files.names cfg.directory = w.files.names cfg.directory)
    (hentry : ∀ s b e, w'.manager.Entry s b e →
      (∃ e', w.manager.Entry s b e' ∧ e.1 = e'.1) ∨ e.1 ≠ cfg.directory) :
    DirectoryStands cfg w' := by
  refine ⟨hnames.trans h.directory, fun s b e he => ?_⟩
  rcases hentry s b e he with ⟨e', he', hpath⟩ | hne
  · exact hpath ▸ h.entry s b e' he'
  · exact hne

theorem DirectoryStands.files (h : DirectoryStands cfg w) {fs : Files}
    (hnames : fs.names cfg.directory = w.files.names cfg.directory) :
    DirectoryStands cfg {w with files := fs} :=
  h.kept hnames fun _ _ e he => Or.inl ⟨e, he, rfl⟩

theorem DirectoryStands.registers {s b : ℕ} {path : Path} (h : DirectoryStands cfg w)
    (hreg : World.Registers cfg s b path w w') (hpath : path ≠ cfg.directory) :
    DirectoryStands cfg w' := by
  refine h.kept (by rw [hreg.files]) fun r c e he => ?_
  rcases (hreg.entry r c e).mp he with hold | ⟨_, _, rfl, _⟩
  · exact Or.inl ⟨e, hold, rfl⟩
  · exact Or.inr hpath

theorem DirectoryStands.erases {s b : ℕ} {e : Path × ℕ} (h : DirectoryStands cfg w)
    (her : World.Erases cfg s b e w w') : DirectoryStands cfg w' := by
  refine h.kept ?_ fun r c e' he => Or.inl ⟨e', ((her.entry r c e').mp he).1, rfl⟩
  rw [her.names, if_neg (h.entry s b e her.found).symm]

theorem DirectoryStands.charges {s b n : ℕ} {e : Path × ℕ} {fs : Files}
    (h : DirectoryStands cfg w) (hch : World.Charges cfg s b n e w w')
    (hnames : fs.names = w.files.names) : DirectoryStands cfg {w' with files := fs} := by
  refine h.kept (congrFun hnames _) fun r c e' he => ?_
  have hnew := (hch.entry r c e').mp he
  split at hnew
  · rename_i hrc
    exact Or.inl ⟨e, hrc.1 ▸ hrc.2 ▸ hch.found, by rw [hnew]⟩
  · exact Or.inl ⟨e', hnew, rfl⟩

theorem stands_putStepped {messages : List PutStreamingRequest} {pc pc' : PutPc}
    (h : DirectoryStands cfg w) (ht : ThreadInv cfg w (.put messages pc))
    (hstep : PutStepped cfg f messages w pc w' pc') : DirectoryStands cfg w' := by
  have hpath : ∀ u, (Handler.put messages pc).upload = some u → u.path ≠ cfg.directory :=
    fun u hu => (ht.upload u hu).path ▸ uploadPath_ne_directory cfg u.blobId
  cases hstep with
  | created hreg => exact h.registers hreg (uploadPath_ne_directory cfg _)
  | opened hopen =>
    exact h.files (FileSystem.openWrite_names_of_ne hopen (hpath _ rfl).symm)
  | closed => exact h.files (by rw [OutStream.names_close])
  | charged hch => exact h.charges hch (by rw [OutStream.names_write, hch.files])
  | refused => exact h.files (by rw [OutStream.names_close])
  | lost => exact h.kept (by rw [OutStream.names_close]) fun _ _ e he => Or.inl ⟨e, he, rfl⟩
  | notChunk => exact h.files (by rw [OutStream.names_close])
  | deleted her => exact h.erases her
  | deleteFails => exact h.kept rfl fun _ _ e he => Or.inl ⟨e, he, rfl⟩
  | mismatch => exact h.files (FileSystem.names_unlink_of_ne _ (hpath _ rfl).symm)
  | _ => exact h

theorem stands_deleteStepped {s : ℕ} {b : Option ℕ} (h : DirectoryStands cfg w)
    (hstep : DeleteStepped cfg f w s b w') : DirectoryStands cfg w' := by
  cases hstep with
  | same => exact h
  | deleted her => exact h.erases her
  | deleteFails => exact h.kept rfl fun _ _ e he => Or.inl ⟨e, he, rfl⟩

theorem stands_handlerStep (h : DirectoryStands cfg w) (ht : ThreadInv cfg w t)
    (hstep : handlerStep cfg f w t = some (w', t')) : DirectoryStands cfg w' := by
  cases t with
  | put messages pc =>
    obtain ⟨pc', rfl, hput⟩ := handlerStep_put hstep
    exact stands_putStepped h ht hput
  | get request pc =>
    obtain ⟨rfl, _⟩ := handlerStep_get hstep
    exact h
  | remove s ids pc =>
    obtain ⟨_, hdel⟩ := handlerStep_remove hstep
    exact stands_deleteStepped h hdel
  | dispose s pc =>
    obtain ⟨_, ⟨_, hdel⟩ | ⟨rfl, _, rfl⟩⟩ := handlerStep_dispose hstep
    · exact stands_deleteStepped h hdel
    · refine h.kept rfl fun r c e he => Or.inl ⟨e, ?_, rfl⟩
      exact (BlobSessionManager.entry_dispose.mp he).1

theorem stands_envStep {a : EnvAction} (h : DirectoryStands cfg w)
    (hok : LifeOk cfg σ (.serves (.env a))) (hstep : envStep cfg a w = some w') :
    DirectoryStands cfg w' := by
  cases a with
  | createSession u =>
    cases hstep
    exact h.kept rfl fun _ _ e he =>
      Or.inl ⟨e, (BlobSessionManager.entry_createSession u).mp he, rfl⟩
  | add s path =>
    obtain ⟨⟨x, w₁⟩, hadd, he⟩ := Option.map_eq_some_iff.mp hstep
    cases he
    cases x with
    | ok b => exact h.registers (World.add_ok hadd).2 hok.2
    | error x =>
      obtain ⟨_, rfl⟩ := World.add_error hadd
      exact h.kept rfl fun _ _ e he => Or.inl ⟨e, he, rfl⟩
  | outsideWrite path bytes =>
    simp only [envStep, outsideWrite] at hstep
    split at hstep
    · cases hstep
    · obtain ⟨⟨i, fs⟩, hopen, rfl⟩ := Option.map_eq_some_iff.mp hstep
      have hne : cfg.directory ≠ path := by
        rintro rfl
        simp [FileSystem.openWrite, h.directory] at hopen
      have hname := FileSystem.openWrite_names_of_ne hopen hne
      exact h.files hname
  | outsideDelete path =>
    cases hstep
    exact h.files (FileSystem.names_unlink_of_ne _ (Ne.symm hok.2))

theorem stands_step {l : SystemMove} (hσ : Inv cfg σ) (h : DirectoryStands cfg σ.shared)
    (hok : LifeOk cfg σ (.serves l)) (hst : systemStep cfg l σ = some σ') :
    DirectoryStands cfg σ'.shared := by
  cases l with
  | env a =>
    obtain ⟨w₁, hw, rfl⟩ := Pool.step_env hst
    exact stands_envStep h hok hw
  | call c =>
    obtain rfl := Pool.step_call hst
    exact h
  | run i f =>
    obtain ⟨t, w₁, t', ht, hone, rfl⟩ := Pool.step_run hst
    exact stands_handlerStep h (hσ.thread i t ht) hone

/-- A service constructed over the files of another. -/
theorem initial_restarts {stuck : Option Path} (hst : lifeStep cfg (.restarts stuck) σ = some σ') :
    Initial cfg σ' := by
  dsimp only [lifeStep] at hst
  split at hst
  · rename_i files hfs
    cases hst
    obtain ⟨_, rfl, _⟩ := constructStore_ok hfs
    exact ⟨⟨rfl, _, hfs⟩, rfl⟩
  · cases hst

/-- A run from a newly constructed service. -/
def OneLife (cfg : Config) (σ : System) : Prop :=
  DirectoryStands cfg σ.shared ∧ ∃ σ₀ ls, Initial cfg σ₀ ∧
    Run (systemStep cfg) (fun σ _ => Headroom σ.shared) σ₀ ls σ

theorem oneLife_step {l : LifeMove} (h : OneLife cfg σ) (hok : LifeOk cfg σ l)
    (hst : lifeStep cfg l σ = some σ') : OneLife cfg σ' := by
  cases l with
  | serves l =>
    obtain ⟨hstands, σ₀, ls, h₀, hrun⟩ := h
    have hinv := inv_run (fun _ _ ho => ho) hrun (inv_initial h₀)
    exact ⟨stands_step hinv hstands hok hst, σ₀, ls ++ [l], h₀,
      hrun.append (.cons hok.1 hst (.nil σ'))⟩
  | restarts stuck =>
    have h₀ := initial_restarts hst
    exact ⟨stands_initial h₀, σ', [], h₀, .nil σ'⟩

/-- However often the service has stopped and been constructed again, at whatever moments:
its state is one that a newly constructed service comes to, and it can be constructed once
more over what is there, which removes the files in the store directory and no others. -/
theorem restarts_reachable {σ₀ σ : System} {ls : List LifeMove} (h₀ : Initial cfg σ₀)
    (hrun : Run (lifeStep cfg) (LifeOk cfg) σ₀ ls σ) :
    (Headroom σ.shared → Reachable cfg σ) ∧
      ∃ σ', lifeStep cfg (.restarts none) σ = some σ' ∧ Initial cfg σ' ∧
        (∀ p, inDirectory cfg.directory p = true → σ'.shared.files.present p = false) ∧
        ∀ p, inDirectory cfg.directory p = false → σ.shared.files.SameAt σ'.shared.files p := by
  have hstart : OneLife cfg σ₀ := ⟨stands_initial h₀, σ₀, [], h₀, .nil σ₀⟩
  obtain ⟨hstands, σ₁, ms, h₁, hlife⟩ := hrun.invariant (OneLife cfg)
    (fun _ _ _ h hok hst => oneLife_step h hok hst) hstart
  refine ⟨fun hroom => ⟨hroom, σ₁, ms, h₁, hlife⟩, ?_⟩
  have hst : lifeStep cfg (.restarts none) σ =
      some ⟨⟨.empty, σ.shared.files.unlinkAll (inDirectory cfg.directory)⟩, []⟩ := by
    simp only [lifeStep, constructStore_succeeds hstands.directory]
  refine ⟨_, hst, initial_restarts hst, fun p hp => ?_, fun p hp => ?_⟩
  · simp [FileSystem.present, FileSystem.unlinkAll, hp]
  · have hname : (σ.shared.files.unlinkAll (inDirectory cfg.directory)).names p =
        σ.shared.files.names p := by
      simp [FileSystem.unlinkAll, hp]
    exact ⟨hname, by simp only [FileSystem.contents, hname]; rfl⟩

/-- A crash in the middle of an upload, and another life after it. -/
def crashedUpload : List LifeMove :=
  [.serves (.env (.createSession none)),
    .serves (.call (.put [.metadata ⟨1, 1, none⟩, .chunk [1, 2]])), .serves (.run 0 .none),
    .serves (.run 0 .none), .serves (.run 0 .none), .serves (.run 0 .none), .restarts none,
    .serves (.env (.createSession (some 7)))]

theorem restarts_reachable_crashedUpload : ∃ σ,
    exec (lifeStep smallConfig) (fun σ l => decide (LifeOk smallConfig σ l)) crashedUpload
      smallStart = some σ ∧ σ.threads = [] ∧ Reachable smallConfig σ := by
  obtain ⟨σ, hσ, hend⟩ := (Option.any_eq_true
    (fun σ : System => decide (Headroom σ.shared) && σ.threads.isEmpty) _).mp
    (by decide : (exec (lifeStep smallConfig) (fun σ l => decide (LifeOk smallConfig σ l))
      crashedUpload smallStart).any _ = true)
  simp only [Bool.and_eq_true, decide_eq_true_eq, List.isEmpty_iff] at hend
  have hrun : Run (lifeStep smallConfig) (LifeOk smallConfig) smallStart crashedUpload σ :=
    .of_exec hσ fun _ _ _ hc => of_decide_eq_true hc
  exact ⟨σ, hσ, hend.2, (restarts_reachable smallStart_initial hrun).1 hend.1⟩

end BlobRelay
