import BlobRelay.Handlers
import BlobRelay.Foundation.Pool

/-! # The service under concurrent calls

Any number of handlers run over one world. Between their steps sessions are
created, outside files are registered with `add`, and an outside party deletes
files, or writes files that are not in the store directory. -/

namespace BlobRelay
open Foundation Foundation.FileStore

inductive EnvAction
  | createSession (transactionIdOpt : Option TransactionId)
  | add (s : ℕ) (path : Path)
  | outsideWrite (path : Path) (bytes : Bytes)
  | outsideDelete (path : Path)
  deriving DecidableEq

/-- An outside party's write to a file that is not the service's. -/
def outsideWrite (cfg : Config) (path : Path) (bytes : Bytes) (w : World) : Option World :=
  if inDirectory cfg.directory path then none
  else (w.files.openWrite path).map fun r => {w with files := r.2.append r.1 bytes}

def envStep (cfg : Config) : EnvAction → World → Option World
  | .createSession t, w => some {w with manager := (w.manager.createSession t).2}
  | .add s path, w => (w.add cfg s path).map Prod.snd
  | .outsideWrite path bytes, w => outsideWrite cfg path bytes w
  | .outsideDelete path, w => some {w with files := w.files.unlink path}

abbrev System := Pool World Handler
abbrev SystemMove := Move EnvAction Call Fault

def systemStep (cfg : Config) : SystemMove → System → Option System :=
  Pool.step (envStep cfg) Call.start (handlerStep cfg)

/-- A service just constructed: nothing registered, the store directory empty. -/
structure Constructed (cfg : Config) (w : World) : Prop where
  manager : w.manager = BlobSessionManager.empty
  files : ∃ fs, constructStore cfg.directory none fs = .ok w.files

def Initial (cfg : Config) (σ : System) : Prop := Constructed cfg σ.shared ∧ σ.threads = []

/-- The next session id and the next blob id are not past the end of 64 bits. -/
def Headroom (w : World) : Prop := w.manager.blobId + 1 < 2^64 ∧ w.manager.sessionId + 1 < 2^64

instance (w : World) : Decidable (Headroom w) := inferInstanceAs (Decidable (_ ∧ _))

/-- States that a newly constructed service can come to by any interleaving of
calls, as long as neither 64-bit id counter has run out. -/
def Reachable (cfg : Config) (σ : System) : Prop :=
  Headroom σ.shared ∧
    ∃ σ₀ ls, Initial cfg σ₀ ∧ Run (systemStep cfg) (fun σ _ => Headroom σ.shared) σ₀ ls σ

/-! ### A small service to run -/

def emptyDisk : Files where
  names p := if p = ["store"] then some (.directory true) else none
  data _ := []
  next := 0
  bounded p i h := by split at h <;> cases h
  linkedOnce p q i h := by split at h <;> cases h

/-- A quota of ten bytes, two-byte reads, and tags that differ between the
datastore and the generator. -/
def smallConfig : Config where
  directory := ["store"]
  quota := 10
  streamChunkSize := 2
  devAcceptMockTag := false
  api := ⟨fun b t => .ok (b + t), fun b => .ok ["datastore", toString b]⟩
  tagGenerator := ⟨fun key bytes => .ok (key ++ bytes), [1]⟩
  canonical := id

def smallStart : System := ⟨⟨.empty, emptyDisk.unlinkAll (inDirectory ["store"])⟩, []⟩

theorem smallStart_initial : Initial smallConfig smallStart := ⟨⟨rfl, emptyDisk, rfl⟩, rfl⟩

def runs (cfg : Config) (ls : List SystemMove) (σ₀ : System) : Option System :=
  exec (systemStep cfg) (fun σ _ => decide (Headroom σ.shared)) ls σ₀

theorem Reachable.of_runs {cfg : Config} {ls : List SystemMove} {σ₀ σ : System}
    (h₀ : Initial cfg σ₀) (h : runs cfg ls σ₀ = some σ) (hroom : Headroom σ.shared) :
    Reachable cfg σ :=
  ⟨hroom, σ₀, ls, h₀, .of_exec h fun _ _ _ hc => of_decide_eq_true hc⟩

def oneSession (t : Option TransactionId) : System :=
  ⟨{smallStart.shared with manager := (smallStart.shared.manager.createSession t).2}, []⟩

theorem oneSession_reachable (t : Option TransactionId) :
    Reachable smallConfig (oneSession t) := by
  have hrun : runs smallConfig [.env (.createSession t)] smallStart = some (oneSession t) := rfl
  have hroom : Headroom (oneSession t).shared := by
    show 0 + 1 < 2^64 ∧ 1 + 1 < 2^64
    norm_num
  exact .of_runs smallStart_initial hrun hroom

end BlobRelay
