import BlobRelay.SessionImpl

/-! # `streaming_service::Put` (streaming_service.cpp)

The handler running alone, from the first message to the returned status. What
the surroundings decide (whether the file opens, how writes and the deleting
calls end) is the parameter `env`. -/

namespace BlobRelay
open Foundation.FileStore

def sessionStorageId : ℕ := 0
def limestoneBlobStore : ℕ := 1

structure PutEnv where
  opens : Bool
  writes : ℕ → WriteResult
  closes : WriteResult
  deletes : DeleteResult
  removes : Bool

def PutEnv.calm : PutEnv := ⟨true, fun _ => none, none, .succeeds, true⟩

/-- A call either returns a status, with the response it filled in, or is left
by an exception no clause of it catches. -/
inductive PutOutcome
  | returned (status : Status) (blob : Option BlobReference)
  | thrown (e : Exn)
  deriving DecidableEq

def PutOutcome.IsOk : PutOutcome → Prop
  | .returned status _ => status.code = .ok
  | .thrown _ => False

instance (o : PutOutcome) : Decidable o.IsOk := by
  cases o <;> (unfold PutOutcome.IsOk; infer_instance)

namespace PutStatus

def ok : Status := ⟨.ok, ""⟩
def noRequest : Status := ⟨.invalidArgument, "no request"⟩
def notMetadata : Status := ⟨.invalidArgument, "the first request is not metadata"⟩
def apiVersion (v : ℕ) : Status := ⟨.unavailable, apiVersionErrorMessage v⟩
def cannotOpen : Status := ⟨.failedPrecondition, "cannot open the file to write the blob to"⟩
def notChunk : Status := ⟨.invalidArgument, "A subsequent requests is not chunk"⟩
def exhausted : Status := ⟨.resourceExhausted, "session storage usage has reached its limit"⟩
def sizeMismatch : Status :=
  ⟨.invalidArgument, "the size in the metadata does not match the size of the sent blob"⟩

end PutStatus

/-- The handler's `catch (std::out_of_range &ex)`. -/
def putCatch : Exn → PutOutcome
  | .outOfRange what => .returned ⟨.notFound, what⟩ none
  | e => .thrown e

/-- The output stream `std::ofstream blob_file(path)`, when it is open. -/
def openBlobFile (opens : Bool) (path : Path) (fs : Files) : Option (OutStream × Files) :=
  if opens then (fs.openWrite path).map fun r => (⟨r.1, true⟩, r.2) else none

def sizeMismatches (blobSizeOpt : Option ℕ) (totalSize : ℕ) : Bool :=
  match blobSizeOpt with
  | some n => n ≠ totalSize
  | none => false

def putResponse (cfg : Config) (s : ℕ) (blobId : ℕ) : PutOutcome :=
  match BlobSessionImpl.computeTag cfg s blobId with
  | .ok tag => .returned PutStatus.ok (some ⟨sessionStorageId, blobId, tag⟩)
  | .error e => putCatch e

def finishPut (cfg : Config) (env : PutEnv) (s : ℕ) (blobId : ℕ) (path : Path)
    (blobSizeOpt : Option ℕ) (totalSize : ℕ) (w : World) : PutOutcome × World :=
  if sizeMismatches blobSizeOpt totalSize then
    if env.removes then
      (.returned PutStatus.sizeMismatch none, {w with files := w.files.unlink path})
    else (.thrown (.filesystemError "remove"), w)
  else (putResponse cfg s blobId, w)

/-- `while (reader->Read(&request))`, with `k` chunks written before. Every way
out of the loop closes `blob_file`, the early ones by its destructor. -/
def receive (cfg : Config) (env : PutEnv) (s : ℕ) (blobId : ℕ) (path : Path)
    (blobSizeOpt : Option ℕ) (k : ℕ) (out : OutStream) (totalSize : ℕ) :
    List PutStreamingRequest → World → Option (PutOutcome × World)
  | [], w =>
    some (finishPut cfg env s blobId path blobSizeOpt totalSize
      {w with files := out.close env.closes w.files})
  | .chunk bytes :: rest, w =>
    match w.reserveSessionStore cfg s blobId bytes.length with
    | none => none
    | some (.error e, w) => some (putCatch e, {w with files := out.close env.closes w.files})
    | some (.ok false, w) =>
      match World.deleteBlobFile cfg s blobId env.deletes
          {w with files := out.close env.closes w.files} with
      | none => none
      | some (.error e, w) => some (putCatch e, w)
      | some (.ok (), w) => some (.returned PutStatus.exhausted none, w)
    | some (.ok true, w) =>
      let r := out.write (env.writes k) bytes w.files
      receive cfg env s blobId path blobSizeOpt (k + 1) r.1 (add64 totalSize bytes.length) rest
        {w with files := r.2}
  | .metadata _ :: _, w =>
    some (.returned PutStatus.notChunk none, {w with files := out.close env.closes w.files})
  | .unset :: _, w =>
    some (.returned PutStatus.notChunk none, {w with files := out.close env.closes w.files})

def putInto (cfg : Config) (env : PutEnv) (s : ℕ) (blobSizeOpt : Option ℕ)
    (rest : List PutStreamingRequest) (w : World) : Option (PutOutcome × World) :=
  match w.createBlobFile cfg s with
  | none => none
  | some ((blobId, path), w) =>
    match openBlobFile env.opens path w.files with
    | none => some (.returned PutStatus.cannotOpen none, w)
    | some (out, files) =>
      receive cfg env s blobId path blobSizeOpt 0 out 0 rest {w with files := files}

def put (cfg : Config) (env : PutEnv) (messages : List PutStreamingRequest) (w : World) :
    Option (PutOutcome × World) :=
  match messages with
  | [] => some (.returned PutStatus.noRequest none, w)
  | .metadata metadata :: rest =>
    if checkApiVersion metadata.apiVersion then
      match w.manager.getSessionImpl metadata.sessionId with
      | .error e => some (putCatch e, w)
      | .ok _ => putInto cfg env metadata.sessionId metadata.blobSize rest w
    else some (.returned (PutStatus.apiVersion metadata.apiVersion) none, w)
  | .chunk _ :: _ => some (.returned PutStatus.notMetadata none, w)
  | .unset :: _ => some (.returned PutStatus.notMetadata none, w)

theorem putResponse_cases (cfg : Config) (s blobId : ℕ) :
    (∃ tag, BlobSessionImpl.computeTag cfg s blobId = .ok tag ∧
      putResponse cfg s blobId = .returned PutStatus.ok (some ⟨sessionStorageId, blobId, tag⟩)) ∨
    ∃ what, putResponse cfg s blobId = .thrown (.stdException what) := by
  unfold putResponse BlobSessionImpl.computeTag TagGenerator.generateReferenceTag
  cases cfg.tagGenerator.hmac cfg.tagGenerator.hmacSecretKey
      (memoryBytes blobId 8 ++ memoryBytes s 8) with
  | ok md => exact Or.inl ⟨_, rfl, rfl⟩
  | error errors => exact Or.inr ⟨_, rfl⟩

end BlobRelay
