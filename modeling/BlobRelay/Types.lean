import BlobRelay.Foundation.FileStore

/-! # Identifiers, messages and statuses

`session.h`, `api.h`, `api_version.h`, `blob_relay/utils.h`, the three `.proto`
files and the parts of `grpc::Status` the services use. Identifiers, tags and
sizes are the naturals below 2^64; where the code computes with them the
wrap-around is written out. -/

namespace BlobRelay
open Foundation.FileStore

abbrev SessionId := ℕ
abbrev TransactionId := ℕ
abbrev BlobId := ℕ
abbrev BlobTag := ℕ
abbrev Bytes := List UInt8

/-- A file-system path as its sequence of elements; `dir / name` appends one. -/
abbrev Path := List String
abbrev Files := FileSystem Path UInt8

/-- `a + b` in `std::uint64_t` and `std::size_t`. -/
def add64 (a b : ℕ) : ℕ := (a + b) % 2^64

/-- `a - b` in `std::size_t`, for operands below 2^64. -/
def sub64 (a b : ℕ) : ℕ := (a + (2^64 - b)) % 2^64

theorem add64_of_lt {a b : ℕ} (h : a + b < 2^64) : add64 a b = a + b := Nat.mod_eq_of_lt h

theorem add64_lt (a b : ℕ) : add64 a b < 2^64 := Nat.mod_lt _ (by norm_num)

theorem sub64_of_le {a b : ℕ} (ha : a < 2^64) (h : b ≤ a) : sub64 a b = a - b := by
  unfold sub64
  omega

theorem sub64_lt (a b : ℕ) : sub64 a b < 2^64 := Nat.mod_lt _ (by norm_num)

theorem sub64_add64 {a b : ℕ} (ha : a < 2^64) : sub64 (add64 a b) (b % 2^64) = a := by
  unfold sub64 add64
  omega

/-- What a call can throw, by the `catch` clauses the code tells apart. -/
inductive Exn
  | outOfRange (what : String)
  | stdException (what : String)
  | foreign
  deriving DecidableEq

/-- `std::filesystem::filesystem_error`, thrown by `exists`, `remove`, `file_size`. -/
def Exn.filesystemError (what : String) : Exn := .stdException ("filesystem error: " ++ what)

/-- `std::map::at` on a missing key. -/
def Exn.mapAt : Exn := .outOfRange "map::at"

/-! ### Statuses -/

inductive StatusCode
  | ok
  | invalidArgument
  | notFound
  | permissionDenied
  | resourceExhausted
  | failedPrecondition
  | internal
  | unavailable
  deriving DecidableEq

structure Status where
  code : StatusCode
  message : String
  deriving DecidableEq

/-! ### Messages -/

structure BlobReference where
  storageId : ℕ
  objectId : BlobId
  tag : BlobTag
  deriving DecidableEq

/-- `oneof context_id` of `GetStreamingRequest`. -/
inductive ContextId
  | sessionId (id : SessionId)
  | transactionId (id : TransactionId)
  deriving DecidableEq

structure GetStreamingRequest where
  apiVersion : ℕ
  contextId : Option ContextId
  blob : BlobReference
  deriving DecidableEq

inductive GetStreamingResponse
  | metadata (blobSize : Option ℕ)
  | chunk (bytes : Bytes)
  deriving DecidableEq

structure PutMetadata where
  apiVersion : ℕ
  sessionId : SessionId
  blobSize : Option ℕ
  deriving DecidableEq

/-- `PutStreamingRequest` by its `oneof payload`, which a client may leave unset. -/
inductive PutStreamingRequest
  | metadata (m : PutMetadata)
  | chunk (bytes : Bytes)
  | unset
  deriving DecidableEq

/-! ### API version (utils.h) -/

def blobRelayApiVersion : ℕ := 1

def checkApiVersion (apiVersion : ℕ) : Bool :=
  if apiVersion > blobRelayApiVersion then false else true

def apiVersionErrorMessage (apiVersion : ℕ) : String :=
  "the requested API version " ++ toString apiVersion ++
    " is not compatible with required version (less than or equal to " ++
    toString blobRelayApiVersion ++ ")"

/-! ### The datastore callbacks (api.h) -/

structure Api where
  getTag : BlobId → TransactionId → Except Exn BlobTag
  getPath : BlobId → Except Exn Path

end BlobRelay
