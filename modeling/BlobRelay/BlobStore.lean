import BlobRelay.Foundation.Answering
import BlobRelay.Disposal
import BlobRelay.DownloadStream

/-! # What the service is for

A store of blobs. Sessions are created and disposed of, each with a transaction or without;
a blob is put into a session as a sequence of bytes and read back by whoever names the
session and has the blob's tag; a quota bounds what all blobs are charged for. Nothing here
knows of files, streams, counters or maps. -/

namespace BlobRelay
open Foundation Foundation.FileStore

/-- A blob of a session: what it is charged for, and its bytes, which a blob whose size was
not the announced one has lost. -/
structure StoredBlob where
  size : ℕ
  bytes : Option Bytes

structure BlobStore where
  sessionIds : ℕ
  blobIds : ℕ
  used : ℕ
  session : ℕ → Option (Option TransactionId)
  byTransaction : TransactionId → Option ℕ
  blob : ℕ → ℕ → Option StoredBlob

inductive StoreCall
  | createSession (transactionIdOpt : Option TransactionId)
  | put (messages : List PutStreamingRequest)
  | get (request : GetStreamingRequest)
  | remove (s : ℕ) (ids : List ℕ)
  | entries (s : ℕ)
  | dispose (s : ℕ)

inductive StoreReply
  | created (s : ℕ)
  | stored (o : PutOutcome)
  | sent (bytes : Option Bytes)
  | removed (r : Except Exn Unit)
  | listed (r : Except Exn (List ℕ))
  | disposed (r : Except Exn Unit)

/-- How the reading of an upload ends under a quota of which `used` is taken, and the bytes
taken in by then. -/
def admitted (quota : ℕ) : ℕ → List PutStreamingRequest → Ending × Bytes
  | _, [] => (.complete, [])
  | used, .chunk bytes :: rest =>
    if quota = 0 ∨ used + bytes.length ≤ quota then
      let tail := admitted quota (used + bytes.length) rest
      (tail.1, bytes ++ tail.2)
    else (.refused, [])
  | _, .metadata _ :: _ => (.brokenOff, [])
  | _, .unset :: _ => (.brokenOff, [])

theorem admitted_length_le (quota used : ℕ) (messages : List PutStreamingRequest) :
    (admitted quota used messages).2.length ≤ (payload messages).length := by
  induction messages generalizing used with
  | nil => exact Nat.zero_le _
  | cons m rest ih =>
    cases m with
    | metadata m => exact Nat.zero_le _
    | unset => exact Nat.zero_le _
    | chunk bytes =>
      simp only [admitted, payload, List.length_append]
      split
      · have hrest := ih (used + bytes.length)
        rw [List.length_append]
        omega
      · exact Nat.zero_le _

/-- Whatever is sent, the quota holds. -/
theorem admitted_within {quota used : ℕ} (hq : quota ≠ 0) (hused : used ≤ quota)
    (messages : List PutStreamingRequest) :
    used + (admitted quota used messages).2.length ≤ quota := by
  induction messages generalizing used with
  | nil => exact hused
  | cons m rest ih =>
    cases m with
    | metadata m => exact hused
    | unset => exact hused
    | chunk bytes =>
      simp only [admitted]
      split
      · rename_i hfit
        have hrest := ih (hfit.resolve_left hq)
        rw [List.length_append]
        omega
      · exact hused

namespace BlobStore

def empty : BlobStore := ⟨0, 0, 0, fun _ => none, fun _ => none, fun _ _ => none⟩

/-- A transaction is found under the first of its sessions. -/
def create (t : Option TransactionId) (st : BlobStore) : BlobStore :=
  {st with
    sessionIds := st.sessionIds + 1
    session := Function.update st.session (st.sessionIds + 1) (some t)
    byTransaction := fun u =>
      if t = some u then some ((st.byTransaction u).getD (st.sessionIds + 1))
      else st.byTransaction u}

/-- The next blob id names `blob` in `s`. -/
def keep (s : ℕ) (blob : StoredBlob) (st : BlobStore) : BlobStore :=
  {st with
    blobIds := st.blobIds + 1
    used := st.used + blob.size
    blob := fun r b => if r = s ∧ b = st.blobIds + 1 then some blob else st.blob r b}

def drop (s : ℕ) (st : BlobStore) (b : ℕ) : BlobStore :=
  match st.blob s b with
  | none => st
  | some blob =>
    {st with
      used := st.used - blob.size
      blob := fun r c => if r = s ∧ c = b then none else st.blob r c}

@[simp] theorem session_drop (s : ℕ) (st : BlobStore) (b : ℕ) :
    (st.drop s b).session = st.session := by
  unfold drop
  split <;> rfl

@[simp] theorem byTransaction_drop (s : ℕ) (st : BlobStore) (b : ℕ) :
    (st.drop s b).byTransaction = st.byTransaction := by
  unfold drop
  split <;> rfl

theorem session_drops (s : ℕ) (st : BlobStore) (ids : List ℕ) :
    (ids.foldl (drop s) st).session = st.session := by
  induction ids generalizing st with
  | nil => rfl
  | cons b rest ih => rw [List.foldl_cons, ih, session_drop]

theorem byTransaction_drops (s : ℕ) (st : BlobStore) (ids : List ℕ) :
    (ids.foldl (drop s) st).byTransaction = st.byTransaction := by
  induction ids generalizing st with
  | nil => rfl
  | cons b rest ih => rw [List.foldl_cons, ih, byTransaction_drop]

/-- A blob that is dropped as soon as it is kept has only taken an id. -/
theorem drop_keep {s : ℕ} {st : BlobStore} (blob : StoredBlob)
    (hfresh : st.blob s (st.blobIds + 1) = none) :
    (st.keep s blob).drop s (st.blobIds + 1) = {st with blobIds := st.blobIds + 1} := by
  have hkept : (st.keep s blob).blob s (st.blobIds + 1) = some blob := if_pos ⟨rfl, rfl⟩
  simp only [drop, hkept]
  simp only [keep, Nat.add_sub_cancel, BlobStore.mk.injEq, true_and]
  funext r c
  by_cases hrc : r = s ∧ c = st.blobIds + 1
  · obtain ⟨rfl, rfl⟩ := hrc
    simp only [and_self, if_true, hfresh]
  · rw [if_neg hrc, if_neg hrc]

/-- The blobs of a session, oldest first. -/
def listed (s : ℕ) (st : BlobStore) : List ℕ :=
  (List.range' 1 st.blobIds).filter fun b => (st.blob s b).isSome

/-- The session and all its blobs go; so does its transaction, whichever session it was
found under. -/
def close (s : ℕ) (st : BlobStore) : BlobStore :=
  let emptied := (st.listed s).foldl (drop s) st
  {emptied with
    session := Function.update st.session s none
    byTransaction := fun u => if st.session s = some (some u) then none else st.byTransaction u}

/-- An upload whose reading has ended like this. -/
def receive (cfg : Config) (m : PutMetadata) (st : BlobStore) :
    Ending × Bytes → PutOutcome × BlobStore
  | (.refused, _) => (.returned PutStatus.exhausted none, {st with blobIds := st.blobIds + 1})
  | (.brokenOff, bytes) =>
    (.returned PutStatus.notChunk none, st.keep m.sessionId ⟨bytes.length, some bytes⟩)
  | (.complete, bytes) =>
    if sizeMismatches m.blobSize bytes.length then
      (.returned PutStatus.sizeMismatch none, st.keep m.sessionId ⟨bytes.length, none⟩)
    else
      (putResponse cfg m.sessionId (st.blobIds + 1),
        st.keep m.sessionId ⟨bytes.length, some bytes⟩)

def put (cfg : Config) (messages : List PutStreamingRequest) (st : BlobStore) :
    PutOutcome × BlobStore :=
  match messages with
  | [] => (.returned PutStatus.noRequest none, st)
  | .metadata m :: rest =>
    if checkApiVersion m.apiVersion then
      if (st.session m.sessionId).isSome then
        st.receive cfg m (admitted cfg.quota st.used rest)
      else (putCatch noSession, st)
    else (.returned (PutStatus.apiVersion m.apiVersion) none, st)
  | .chunk _ :: _ => (.returned PutStatus.notMetadata none, st)
  | .unset :: _ => (.returned PutStatus.notMetadata none, st)

/-- The session that a context names, and the transaction that tags are issued for there. -/
def named (st : BlobStore) : Option ContextId → Option (ℕ × TransactionId)
  | some (.sessionId s) => (st.session s).map fun t => (s, t.getD s)
  | some (.transactionId t) => (st.byTransaction t).map fun s => (s, t)
  | none => none

def tagFits (cfg : Config) (blob : BlobReference) (t : TransactionId) : Bool :=
  match cfg.api.getTag blob.objectId t with
  | .ok tag => blob.tag = tag || (cfg.devAcceptMockTag && blob.tag = mockTag)
  | .error _ => false

def get (cfg : Config) (request : GetStreamingRequest) (st : BlobStore) : Option Bytes :=
  if checkApiVersion request.apiVersion && request.blob.storageId = sessionStorageId then
    (st.named request.contextId).bind fun place =>
      if tagFits cfg request.blob place.2 then
        (st.blob place.1 request.blob.objectId).bind StoredBlob.bytes
      else none
  else none

/-- Bytes are sent only of a blob in a session that the context names, to whom has its tag. -/
theorem get_eq_some {cfg : Config} {request : GetStreamingRequest} {st : BlobStore} {bytes : Bytes}
    (h : st.get cfg request = some bytes) : checkApiVersion request.apiVersion = true ∧
      request.blob.storageId = sessionStorageId ∧
      ∃ place blob, st.named request.contextId = some place ∧
        tagFits cfg request.blob place.2 = true ∧
        st.blob place.1 request.blob.objectId = some blob := by
  unfold get at h
  split at h
  · rename_i hasked
    rw [Bool.and_eq_true, decide_eq_true_eq] at hasked
    obtain ⟨place, hnamed, h⟩ := Option.bind_eq_some_iff.mp h
    split at h
    · rename_i hfits
      obtain ⟨blob, hblob, _⟩ := Option.bind_eq_some_iff.mp h
      exact ⟨hasked.1, hasked.2, place, blob, hnamed, hfits, hblob⟩
    · cases h
  · cases h

/-- What the store answers to a call. -/
def answer (cfg : Config) : StoreCall → BlobStore → StoreReply × BlobStore
  | .createSession t, st => (.created (st.sessionIds + 1), st.create t)
  | .put messages, st => ((.stored (st.put cfg messages).1), (st.put cfg messages).2)
  | .get request, st => (.sent (st.get cfg request), st)
  | .remove s ids, st =>
    if (st.session s).isSome then (.removed (.ok ()), ids.foldl (drop s) st)
    else (.removed (.error noSession), st)
  | .entries s, st =>
    if (st.session s).isSome then (.listed (.ok (st.listed s)), st)
    else (.listed (.error noSession), st)
  | .dispose s, st =>
    if (st.session s).isSome then (.disposed (.ok ()), st.close s)
    else (.disposed (.error noSession), st)

/-- The call leaves room below 2^64 in ids and in sizes, and asks for no blob of the
datastore. -/
def Answerable (cfg : Config) (st : BlobStore) (c : StoreCall) : Prop :=
  st.sessionIds + 1 < 2^64 ∧ st.blobIds + 1 < 2^64 ∧
    match c with
    | .put messages => cfg.quota + (payload messages).length < 2^64
    | .get request => request.blob.storageId ≠ limestoneBlobStore
    | _ => True

instance (cfg : Config) (st : BlobStore) : ∀ c, Decidable (Answerable cfg st c)
  | .put messages =>
    inferInstanceAs (Decidable (_ ∧ _ ∧ cfg.quota + (payload messages).length < 2^64))
  | .get request =>
    inferInstanceAs (Decidable (_ ∧ _ ∧ request.blob.storageId ≠ limestoneBlobStore))
  | .createSession _ => inferInstanceAs (Decidable (_ ∧ _ ∧ True))
  | .remove _ _ => inferInstanceAs (Decidable (_ ∧ _ ∧ True))
  | .entries _ => inferInstanceAs (Decidable (_ ∧ _ ∧ True))
  | .dispose _ => inferInstanceAs (Decidable (_ ∧ _ ∧ True))

end BlobStore

/-! ### The service, call by call -/

inductive ServiceReply
  | created (s : ℕ)
  | stored (o : PutOutcome)
  | sent (o : GetOutcome) (written : List GetStreamingResponse)
  | removed (r : Except Exn Unit)
  | listed (r : Except Exn (List ℕ))
  | disposed (r : Except Exn Unit)

/-- One call of the service with nothing beside it and no fault of the surroundings. -/
def serve (cfg : Config) : StoreCall → World → Option (ServiceReply × World)
  | .createSession t, w =>
    some (.created (w.manager.createSession t).1, {w with manager := (w.manager.createSession t).2})
  | .put messages, w => (put cfg .calm messages w).map fun r => (.stored r.1, r.2)
  | .get request, w => (get cfg .calm request w).map fun r => (.sent r.1 r.2, w)
  | .remove s ids, w =>
    (BlobSession.removeList cfg s (fun _ => .succeeds) ids w).map fun r => (.removed r.1, r.2)
  | .entries s, w =>
    some (.listed ((w.manager.getSessionImpl s).map BlobSessionImpl.entries), w)
  | .dispose s, w =>
    (BlobSession.dispose cfg s (fun _ => .succeeds) w).map fun r => (.disposed r.1, r.2)

/-- What a client can tell from a reply: bytes that are sent come as a whole, in pieces,
after their number; and where there are none nothing is sent and the call fails. -/
def RepliesAlike (cfg : Config) : ServiceReply → StoreReply → Prop
  | .created s, .created s' => s = s'
  | .stored o, .stored o' => o = o'
  | .sent o written, .sent (some bytes) => SentWhole cfg bytes o written
  | .sent o written, .sent none => ¬ o.IsOk ∧ written = []
  | .removed r, .removed r' => r = r'
  | .listed r, .listed r' => r = r'
  | .disposed r, .disposed r' => r = r'
  | _, _ => False

end BlobRelay
