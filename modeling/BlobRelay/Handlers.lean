import BlobRelay.StreamingGet

/-! # Handlers as sequences of atomic steps

The same code as `put`, `get`, `blob_session::remove` and `dispose`, cut where
another thread can run: at each mutex-held section and each file-system call. A
handler that holds a reference to a session keeps its id; a step that uses the
reference has no outcome once the session is erased. -/

namespace BlobRelay
open Foundation.FileStore

/-- What the file system does to the step: nothing, or one call of it fails. -/
inductive Fault
  | none
  | openFails
  | writeFails (kept : ℕ)
  | existsThrows
  | sizeThrows
  | removeThrows
  | allocFails
  deriving DecidableEq

/-- None of the calls that a `Get` makes to send a file fails. -/
structure Fault.SparesGet (f : Fault) : Prop where
  looks : f ≠ .existsThrows
  size : f ≠ .sizeThrows
  opens : f ≠ .openFails
  alloc : f ≠ .allocFails

theorem Fault.none_sparesGet : Fault.none.SparesGet := by
  constructor <;> decide

def Fault.writes : Fault → WriteResult
  | .writeFails kept => some kept
  | _ => Option.none

def Fault.deletes : Fault → DeleteResult
  | .existsThrows => .existsThrows
  | .removeThrows => .removeThrows
  | _ => .succeeds

/-! ### Put -/

/-- The local variables of `Put` once `create_blob_file` has returned. -/
structure Upload where
  session : ℕ
  blobId : ℕ
  path : Path
  blobSizeOpt : Option ℕ
  deriving DecidableEq

inductive PutPc
  | called
  /-- `get_session_impl` returned a reference to the session. -/
  | located (s : ℕ) (blobSizeOpt : Option ℕ) (rest : List PutStreamingRequest)
  /-- The entry is registered; the file is opened next. -/
  | created (u : Upload) (rest : List PutStreamingRequest)
  | receiving (u : Upload) (out : OutStream) (totalSize : ℕ) (rest : List PutStreamingRequest)
  /-- The quota refused a chunk; `delete_blob_file` is called next. -/
  | exhausted (u : Upload)
  /-- All messages are read and the file is closed. -/
  | received (u : Upload) (totalSize : ℕ)
  | tagging (u : Upload)
  | finished (u : Option Upload) (outcome : PutOutcome)
  deriving DecidableEq

def putStep (cfg : Config) (f : Fault) (messages : List PutStreamingRequest) (w : World) :
    PutPc → Option (World × PutPc)
  | .called =>
    match messages with
    | [] => some (w, .finished none (.returned PutStatus.noRequest none))
    | .metadata metadata :: rest =>
      if checkApiVersion metadata.apiVersion then
        match w.manager.getSessionImpl metadata.sessionId with
        | .error e => some (w, .finished none (putCatch e))
        | .ok _ => some (w, .located metadata.sessionId metadata.blobSize rest)
      else
        some (w, .finished none (.returned (PutStatus.apiVersion metadata.apiVersion) none))
    | .chunk _ :: _ => some (w, .finished none (.returned PutStatus.notMetadata none))
    | .unset :: _ => some (w, .finished none (.returned PutStatus.notMetadata none))
  | .located s blobSizeOpt rest =>
    match w.createBlobFile cfg s with
    | none => none
    | some ((blobId, path), w) => some (w, .created ⟨s, blobId, path, blobSizeOpt⟩ rest)
  | .created u rest =>
    match openBlobFile (f ≠ .openFails) u.path w.files with
    | none => some (w, .finished (some u) (.returned PutStatus.cannotOpen none))
    | some (out, files) => some ({w with files := files}, .receiving u out 0 rest)
  | .receiving u out totalSize [] =>
    some ({w with files := out.close f.writes w.files}, .received u totalSize)
  | .receiving u out totalSize (.chunk bytes :: rest) =>
    match w.reserveSessionStore cfg u.session u.blobId bytes.length with
    | none => none
    | some (.error e, w) =>
      some ({w with files := out.close f.writes w.files}, .finished (some u) (putCatch e))
    | some (.ok false, w) =>
      some ({w with files := out.close f.writes w.files}, .exhausted u)
    | some (.ok true, w) =>
      let r := out.write f.writes bytes w.files
      some ({w with files := r.2}, .receiving u r.1 (add64 totalSize bytes.length) rest)
  | .receiving u out _ (_ :: _) =>
    some ({w with files := out.close f.writes w.files},
      .finished (some u) (.returned PutStatus.notChunk none))
  | .exhausted u =>
    match w.deleteBlobFile cfg u.session u.blobId f.deletes with
    | none => none
    | some (.error e, w) => some (w, .finished (some u) (putCatch e))
    | some (.ok (), w) => some (w, .finished (some u) (.returned PutStatus.exhausted none))
  | .received u totalSize =>
    if sizeMismatches u.blobSizeOpt totalSize then
      if f = .removeThrows then
        some (w, .finished (some u) (.thrown (.filesystemError "remove")))
      else
        some ({w with files := w.files.unlink u.path},
          .finished (some u) (.returned PutStatus.sizeMismatch none))
    else some (w, .tagging u)
  | .tagging u =>
    (w.manager.blobSessions[u.session]?).map fun _ =>
      (w, .finished (some u) (putResponse cfg u.session u.blobId))
  | .finished _ _ => none

/-! ### Get -/

inductive GetPc
  | called
  | ownerLookup (ctx : GetContext) (t : TransactionId)
  | ownerHeld (ctx : GetContext) (t : TransactionId)
  | resolving (ctx : GetContext)
  | findHeld (ctx : GetContext)
  | tagging (ctx : GetContext) (path : Path)
  | tagHeld (ctx : GetContext) (path : Path)
  /-- Access is granted; `exists(path)` is asked next. -/
  | authorised (path : Path)
  | sizing (path : Path)
  | opening (path : Path) (written : List GetStreamingResponse)
  | reading (s : InStream) (written : List GetStreamingResponse)
  | finished (outcome : GetOutcome) (written : List GetStreamingResponse)
  deriving DecidableEq

def GetPc.ofExcept {α : Type} (next : α → GetPc) : Except GetExit α → GetPc
  | .ok a => next a
  | .error e => .finished (getExit e) []

/-- After the context is read: a session found by transaction is checked first. -/
def GetPc.afterContext (ctx : GetContext) : GetPc :=
  match ctx.transactionId, ctx.rawTransaction with
  | some t, false => .ownerLookup ctx t
  | _, _ => .resolving ctx

def GetPc.afterTag (cfg : Config) (request : GetStreamingRequest) (path : Path)
    (expected : Except GetExit BlobTag) : GetPc :=
  .ofExcept (fun _ => .authorised path)
    (expected.bind fun tag => checkTag cfg tag request.blob.tag)

def getPcStep (cfg : Config) (f : Fault) (request : GetStreamingRequest) (w : World) :
    GetPc → Option GetPc
  | .called =>
    if checkApiVersion request.apiVersion then
      some (.ofExcept GetPc.afterContext (readContext w.manager request.contextId))
    else some (.finished (.returned (GetStatus.apiVersion request.apiVersion)) [])
  | .ownerLookup ctx t =>
    some (.ofExcept (fun _ => .ownerHeld ctx t) (raising (w.manager.getSessionImpl ctx.sessionId)))
  | .ownerHeld ctx t =>
    (w.manager.blobSessions[ctx.sessionId]?).map fun impl =>
      .ofExcept (fun _ => .resolving ctx) (ownerCheck impl.transactionIdOpt t)
  | .resolving ctx =>
    if request.blob.storageId = sessionStorageId then
      if ctx.rawTransaction then some (.finished (.returned GetStatus.noBlob) [])
      else
        some (.ofExcept (fun _ => .findHeld ctx) (raising (w.manager.getSessionImpl ctx.sessionId)))
    else if request.blob.storageId = limestoneBlobStore then
      some (.ofExcept (.tagging ctx) (limestonePath cfg w.files request.blob.objectId))
    else some (.finished (.returned GetStatus.noStorage) [])
  | .findHeld ctx =>
    (w.manager.blobSessions[ctx.sessionId]?).map fun impl =>
      .ofExcept (.tagging ctx) (foundPath (impl.find request.blob.objectId))
  | .tagging ctx path =>
    match ctx.transactionId with
    | some t =>
      some (.afterTag cfg request path (raising (cfg.api.getTag request.blob.objectId t)))
    | none =>
      some (.ofExcept (fun _ => .tagHeld ctx path)
        (raising (w.manager.getSessionImpl ctx.sessionId)))
  | .tagHeld ctx path =>
    (w.manager.blobSessions[ctx.sessionId]?).map fun impl =>
      .afterTag cfg request path (raising (impl.getTag cfg ctx.sessionId request.blob.objectId))
  | .authorised path =>
    if f = .existsThrows then some (.finished (getCatch (.filesystemError "status")) [])
    else if w.files.present path then some (.sizing path)
    else some (.finished (.returned GetStatus.noFile) [])
  | .sizing path =>
    match if f = .sizeThrows then none else w.files.fileSize path with
    | none => some (.finished (getCatch (.filesystemError "file_size")) [])
    | some n => some (.opening path [.metadata (some n)])
  | .opening path written =>
    if f = .allocFails then
      some (.finished (getCatch (.stdException "std::bad_alloc")) written)
    else some (.reading (openRead w.files (f ≠ .openFails) path) written)
  | .reading s written =>
    let r := s.read cfg.streamChunkSize w.files
    if r.1 = [] then some (.finished (.returned GetStatus.ok) written)
    else some (.reading r.2 (written ++ [.chunk r.1]))
  | .finished _ _ => none

/-! ### remove and dispose -/

inductive RemovePc
  | called
  | removing (rest : List ℕ)
  | finished (r : Except Exn Unit)

def removeStep (cfg : Config) (f : Fault) (s : ℕ) (ids : List ℕ) (w : World) :
    RemovePc → Option (World × RemovePc)
  | .called =>
    match w.manager.getSessionImpl s with
    | .ok _ => some (w, .removing ids)
    | .error e => some (w, .finished (.error e))
  | .removing [] => some (w, .finished (.ok ()))
  | .removing (b :: rest) =>
    match w.deleteBlobFile cfg s b f.deletes with
    | none => none
    | some (.error e, w) => some (w, .finished (.error e))
    | some (.ok (), w) => some (w, .removing rest)
  | .finished _ => none

inductive DisposePc
  | called
  | listing
  | deleting (rest : List ℕ)
  | finished (r : Except Exn Unit)

def disposeStep (cfg : Config) (f : Fault) (s : ℕ) (w : World) :
    DisposePc → Option (World × DisposePc)
  | .called =>
    match w.manager.getSessionImpl s with
    | .ok _ => some (w, .listing)
    | .error e => some (w, .finished (.error e))
  | .listing =>
    (w.manager.blobSessions[s]?).map fun impl => (w, .deleting impl.entries)
  | .deleting (b :: rest) =>
    match w.deleteBlobFile cfg s b f.deletes with
    | none => none
    | some (.error e, w) => some (w, .finished (.error e))
    | some (.ok (), w) => some (w, .deleting rest)
  | .deleting [] =>
    (w.manager.blobSessions[s]?).map fun _ =>
      ({w with manager := w.manager.dispose s}, .finished (.ok ()))
  | .finished _ => none

/-! ### All handlers -/

inductive Handler
  | put (messages : List PutStreamingRequest) (pc : PutPc)
  | get (request : GetStreamingRequest) (pc : GetPc)
  | remove (s : ℕ) (ids : List ℕ) (pc : RemovePc)
  | dispose (s : ℕ) (pc : DisposePc)

inductive Call
  | put (messages : List PutStreamingRequest)
  | get (request : GetStreamingRequest)
  | remove (s : ℕ) (ids : List ℕ)
  | dispose (s : ℕ)
  deriving DecidableEq

def Call.start : Call → Handler
  | .put messages => .put messages .called
  | .get request => .get request .called
  | .remove s ids => .remove s ids .called
  | .dispose s => .dispose s .called

def handlerStep (cfg : Config) (f : Fault) (w : World) : Handler → Option (World × Handler)
  | .put messages pc => (putStep cfg f messages w pc).map fun r => (r.1, .put messages r.2)
  | .get request pc => (getPcStep cfg f request w pc).map fun pc => (w, .get request pc)
  | .remove s ids pc => (removeStep cfg f s ids w pc).map fun r => (r.1, .remove s ids r.2)
  | .dispose s pc => (disposeStep cfg f s w pc).map fun r => (r.1, .dispose s r.2)

def Handler.finished : Handler → Bool
  | .put _ (.finished _ _) => true
  | .get _ (.finished _ _) => true
  | .remove _ _ (.finished _) => true
  | .dispose _ (.finished _) => true
  | _ => false

end BlobRelay
