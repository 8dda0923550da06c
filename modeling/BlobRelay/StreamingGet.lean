import BlobRelay.StreamingPut

/-! # `streaming_service::Get` (streaming_service.cpp)

The handler running alone. Its early returns and the exceptions its callees
throw are the two kinds of `GetExit`; the `catch` clause around the whole body
turns the second kind into a status. -/

namespace BlobRelay
open Foundation.FileStore

inductive GetExit
  | status (status : Status)
  | raised (e : Exn)
  deriving DecidableEq

inductive GetOutcome
  | returned (status : Status)
  | thrown (e : Exn)
  deriving DecidableEq

def GetOutcome.IsOk : GetOutcome → Prop
  | .returned status => status.code = .ok
  | .thrown _ => False

/-- What the surroundings decide: whether `exists(path)` and `file_size(path)`
return or throw, whether the blob file opens for reading, and whether the read
buffer can be allocated. -/
structure GetEnv where
  existsReturns : Bool
  sizeReturns : Bool
  opens : Bool
  allocates : Bool

def GetEnv.calm : GetEnv := ⟨true, true, true, true⟩

/-- Both questions about the file are answered. -/
def GetEnv.Answered (env : GetEnv) : Prop := env.existsReturns = true ∧ env.sizeReturns = true

theorem GetEnv.calm_answered : GetEnv.calm.Answered := ⟨rfl, rfl⟩

namespace GetStatus

def ok : Status := ⟨.ok, ""⟩
def apiVersion (v : ℕ) : Status := ⟨.unavailable, apiVersionErrorMessage v⟩
def noContext : Status :=
  ⟨.invalidArgument, "content_id is neither session_id nor transaction_id"⟩
def otherTransaction : Status :=
  ⟨.permissionDenied, "transaction_id does not match with that of the session"⟩
def withoutTransaction : Status := ⟨.permissionDenied, "the session has no transaction"⟩
def noBlob : Status := ⟨.notFound, "cannot find the blob data by the blob_id given"⟩
def noStorage : Status :=
  ⟨.invalidArgument, "storage_id is neither session store nor limestone blob store"⟩
def wrongTag : Status := ⟨.permissionDenied, "the given tag does not match the desiring value"⟩
def noFile : Status := ⟨.notFound, "an error occurred while reading the blob file"⟩

end GetStatus

def getCatch : Exn → GetOutcome
  | .outOfRange what => .returned ⟨.internal, what⟩
  | .stdException what => .returned ⟨.internal, what⟩
  | .foreign => .thrown .foreign

def getExit : GetExit → GetOutcome
  | .status st => .returned st
  | .raised e => getCatch e

def raising {α : Type} : Except Exn α → Except GetExit α
  | .ok a => .ok a
  | .error e => .error (.raised e)

/-- `session_id`, `transaction_id` and `raw_transaction` after the context is read. -/
structure GetContext where
  sessionId : ℕ
  transactionId : Option TransactionId
  rawTransaction : Bool
  deriving DecidableEq

def readContext (m : BlobSessionManager) : Option ContextId → Except GetExit GetContext
  | some (.sessionId s) => .ok ⟨s, none, false⟩
  | some (.transactionId t) =>
    match m.getSessionId t with
    | .ok s => .ok ⟨s, some t, false⟩
    | .error (.outOfRange _) => .ok ⟨0, some t, true⟩
    | .error e => .error (.raised e)
  | none => .error (.status GetStatus.noContext)

def ownerCheck (transactionIdOpt : Option TransactionId) (t : TransactionId) : Except GetExit Unit :=
  match transactionIdOpt with
  | some u => if u ≠ t then .error (.status GetStatus.otherTransaction) else .ok ()
  | none => .error (.status GetStatus.withoutTransaction)

def checkOwner (m : BlobSessionManager) (ctx : GetContext) : Except GetExit Unit :=
  match ctx.transactionId, ctx.rawTransaction with
  | some t, false => do
    let impl ← raising (m.getSessionImpl ctx.sessionId)
    ownerCheck impl.transactionIdOpt t
  | _, _ => .ok ()

def foundPath (path : Option Path) : Except GetExit Path :=
  match path with
  | some p => .ok p
  | none => .error (.status GetStatus.noBlob)

def limestonePath (cfg : Config) (files : Files) (blobId : ℕ) : Except GetExit Path := do
  let path ← raising (cfg.api.getPath blobId)
  if files.present path then .ok path else .error (.status GetStatus.noBlob)

def resolvePath (cfg : Config) (w : World) (ctx : GetContext) (blob : BlobReference) :
    Except GetExit Path :=
  if blob.storageId = sessionStorageId then
    if ctx.rawTransaction then .error (.status GetStatus.noBlob)
    else do
      let impl ← raising (w.manager.getSessionImpl ctx.sessionId)
      foundPath (impl.find blob.objectId)
  else if blob.storageId = limestoneBlobStore then limestonePath cfg w.files blob.objectId
  else .error (.status GetStatus.noStorage)

def expectedTag (cfg : Config) (m : BlobSessionManager) (ctx : GetContext) (blobId : ℕ) :
    Except GetExit BlobTag :=
  match ctx.transactionId with
  | some t => raising (cfg.api.getTag blobId t)
  | none => do
    let impl ← raising (m.getSessionImpl ctx.sessionId)
    raising (impl.getTag cfg ctx.sessionId blobId)

def checkTag (cfg : Config) (expected blobTag : BlobTag) : Except GetExit Unit :=
  if expected ≠ blobTag then
    if !cfg.devAcceptMockTag || blobTag ≠ mockTag then .error (.status GetStatus.wrongTag)
    else .ok ()
  else .ok ()

/-- Everything before the file is touched: the path to send, if access is granted. -/
def authorise (cfg : Config) (w : World) (request : GetStreamingRequest) :
    Except GetExit Path := do
  let ctx ← readContext w.manager request.contextId
  checkOwner w.manager ctx
  let path ← resolvePath cfg w ctx request.blob
  let expected ← expectedTag cfg w.manager ctx request.blob.objectId
  checkTag cfg expected request.blob.tag
  pure path

/-- Enough reads for any file: each non-empty one takes a byte. -/
def sendFuel (n : ℕ) : ℕ := n + 1

def sendBlob (cfg : Config) (env : GetEnv) (fs : Files) (path : Path) :
    Option (GetOutcome × List GetStreamingResponse) :=
  if env.existsReturns then
    if fs.present path then
      match if env.sizeReturns then fs.fileSize path else none with
      | none => some (getCatch (.filesystemError "file_size"), [])
      | some n =>
        if env.allocates then
          (drain cfg.streamChunkSize fs (sendFuel n) (openRead fs env.opens path)).map fun chunks =>
            (.returned GetStatus.ok, .metadata (some n) :: chunks.map .chunk)
        else some (getCatch (.stdException "std::bad_alloc"), [.metadata (some n)])
    else some (.returned GetStatus.noFile, [])
  else some (getCatch (.filesystemError "status"), [])

/-- The outcome with the messages written, in order. -/
def get (cfg : Config) (env : GetEnv) (request : GetStreamingRequest) (w : World) :
    Option (GetOutcome × List GetStreamingResponse) :=
  if checkApiVersion request.apiVersion then
    match authorise cfg w request with
    | .ok path => sendBlob cfg env w.files path
    | .error e => some (getExit e, [])
  else some (.returned (GetStatus.apiVersion request.apiVersion), [])

end BlobRelay
