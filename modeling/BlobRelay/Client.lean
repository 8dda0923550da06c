import BlobRelay.Foundation.Chunks
import BlobRelay.Foundation.Repetition
import BlobRelay.StreamingGet

/-! # The command-line client (client.h)

What it sends for a `put`, what it saves of a `get`, and the comparison of a file with
the repeated reference text. The client's files are its own: a failed write or flush of
the saved file goes unnoticed until `file_size` is asked. `fault` is `FLAGS_fault`. -/

namespace BlobRelay.Client
open Foundation Foundation.FileStore

/-- `test_blob::ref_`. -/
def reference : Bytes :=
  "ABCDEFGHIJKLMNOPQRSTUVWXYZabcdefghijklmnopqrstuvwxyz\n".toList.map fun c => UInt8.ofNat c.toNat

def bufferSize : ℕ := 32

def errorAt (func : String) (line : ℕ) : String := "error in " ++ func ++ " at " ++ toString line

/-- What the client is told when an exception has left the handler. The handler itself has
returned no status then, so nothing said of the handlers' own answers counts it as one. -/
def handlerThrew : String := "Unexpected error in RPC handling"

def failedAt (func : String) (line : ℕ) (message : String) : Exn :=
  .stdException (errorAt func line ++ ", message = `" ++ message ++ "'")

/-! ### put -/

/-- The `do` loop of `put`, after `transferedSize` bytes: every chunk is a beginning of
the reference text. -/
def sendChunks (size : ℕ) : ℕ → ℕ → Option (List Bytes)
  | 0, _ => none
  | fuel + 1, transferedSize =>
    let chunkSize := min reference.length (size - transferedSize)
    let chunk := reference.take chunkSize
    if transferedSize + chunkSize < size then
      (sendChunks size fuel (transferedSize + chunkSize)).map (chunk :: ·)
    else some [chunk]

/-- Enough rounds for any size: each but the last takes a byte. -/
def sendFuel (size : ℕ) : ℕ := size + 1

def putMetadata (fault sessionId size : ℕ) : PutMetadata where
  apiVersion := blobRelayApiVersion
  sessionId := add64 sessionId (if fault = 1 then 1 else 0)
  blobSize := some (add64 size (if fault = 6 then 1 else 0))

def putRequests (fault sessionId size : ℕ) : Option (List PutStreamingRequest) :=
  (sendChunks size (sendFuel size) 0).map fun chunks =>
    .metadata (putMetadata fault sessionId size) :: chunks.map .chunk

/-- What `put` returns or throws, by how the call to the service ended. -/
def putResult : PutOutcome → Except Exn BlobId
  | .returned status blob =>
    if status.code ≠ .ok then .error (failedAt "put" 110 status.message)
    else .ok (blob.elim 0 BlobReference.objectId)
  | .thrown _ => .error (failedAt "put" 110 handlerThrew)

/-! ### get -/

def getRequest (fault sessionId blobId tag : ℕ) : GetStreamingRequest where
  apiVersion := blobRelayApiVersion
  contextId := some (.sessionId (add64 sessionId (if fault = 1 then 1 else 0)))
  blob := ⟨sessionStorageId, add64 blobId (if fault = 5 then 1 else 0),
    add64 tag (if fault = 3 then 1 else 0)⟩

/-- How the client's own file system treats the file it saves to. -/
structure Saving where
  opens : Bool
  writes : ℕ → WriteResult
  closes : WriteResult

def Saving.calm : Saving := ⟨true, fun _ => none, none⟩

def notMetadata : Exn := .stdException "first response is not a metadata"

def inconsistentSize : Exn := .stdException "inconsistent blob size"

/-- `resp.chunk()`, which is empty for a message that carries none. -/
def chunkOf : GetStreamingResponse → Bytes
  | .chunk bytes => bytes
  | .metadata _ => []

/-- `reader->Finish()`. -/
def finish : GetOutcome → Except Exn Unit
  | .returned status =>
    if status.code ≠ .ok then .error (failedAt "get" 150 status.message) else .ok ()
  | .thrown _ => .error (failedAt "get" 150 handlerThrew)

def get (env : Saving) (path : Path) (responses : List GetStreamingResponse) (o : GetOutcome)
    (fs : Files) : Except Exn Unit × Files :=
  match openBlobFile env.opens path fs with
  | none => (.error (.stdException (errorAt "get" 131)), fs)
  | some (out, fs) =>
    match responses with
    | [] => (finish o, out.close env.closes fs)
    | .chunk _ :: _ => (.error notMetadata, out.close env.closes fs)
    | .metadata blobSize :: rest =>
      let r := OutStream.writeAll env.writes 0 out (rest.map chunkOf) fs
      let fs := r.1.close env.closes r.2
      match fs.fileSize path with
      | none => (.error (.filesystemError "file_size"), fs)
      | some n => if n ≠ blobSize.getD 0 then (.error inconsistentSize, fs) else (finish o, fs)

/-! ### compare -/

/-- `test_blob::compare` at the position `p`, with the position after it. Positions in a
file stay below 2^63, so the sums here do not wrap. -/
def compareBlock (p : ℕ) (data : Bytes) (s : ℕ) : Bool × ℕ :=
  if s < 1 then (false, p)
  else
    let size := reference.length
    if p / size = (p + s - 1) / size then
      ((reference.drop (p % size)).take s == data.take s, p + s)
    else
      let b := p % size
      let rem := size - b
      if (reference.drop b).take rem == data.take rem then
        (reference.take (s - rem) == data.drop rem, p + s)
      else (false, p + s)

/-- The reads of `compare`: each overwrites the start of one buffer. -/
def compareReads : ℕ → ℕ → Bytes → Bytes → Option Bool
  | 0, _, _, _ => none
  | _ + 1, _, _, [] => some true
  | fuel + 1, p, buffer, b :: rest =>
    let size := min (b :: rest).length bufferSize
    let buffer := (b :: rest).take size ++ buffer.drop size
    let r := compareBlock p buffer size
    if r.1 then compareReads fuel r.2 buffer ((b :: rest).drop size) else some false

/-- `compare` on a client that has compared nothing before. -/
def compare (contents : Option Bytes) : Option Bool :=
  match contents with
  | none => some false
  | some bytes => compareReads (bytes.length + 1) 0 (List.replicate bufferSize 0) bytes

/-! ### What a put sends -/

theorem length_reference : reference.length = 53 := by decide

/-- The chunks joined are the reference text repeated up to the size. -/
theorem sendChunks_spec (size : ℕ) {fuel t : ℕ} (hfuel : size - t < fuel) :
    ∃ chunks, sendChunks size fuel t = some chunks ∧ chunks ≠ [] ∧
      chunks.flatten = stretch reference 0 (size - t) := by
  induction fuel generalizing t with
  | zero => omega
  | succ fuel ih =>
    have hlen := length_reference
    unfold sendChunks
    dsimp only
    split
    · rename_i hmore
      have hwhole : min reference.length (size - t) = reference.length := by omega
      rw [hwhole] at hmore ⊢
      obtain ⟨chunks, hchunks, _, hflat⟩ := ih (t := t + reference.length) (by omega)
      refine ⟨reference.take reference.length :: chunks, by rw [hchunks, Option.map_some],
        List.cons_ne_nil _ _, ?_⟩
      have hsplit : size - t = reference.length + (size - (t + reference.length)) := by omega
      rw [List.flatten_cons, hflat, List.take_length, hsplit, stretch_next]
    · rename_i hlast
      have hrest : min reference.length (size - t) = size - t := by omega
      rw [hrest]
      refine ⟨_, rfl, List.cons_ne_nil _ _, ?_⟩
      rw [List.flatten_singleton, stretch_start (by omega)]

/-! ### What compare accepts -/

/-- The last read of `n` bytes from the position `p` is a partial one over the border of
two repetitions: the rest of the buffer is then compared along with it. -/
def CutByBorder (p n : ℕ) : Prop :=
  n % bufferSize ≠ 0 ∧
    (p + (n - n % bufferSize)) / reference.length ≠ (p + n - 1) / reference.length

instance (p n : ℕ) : Decidable (CutByBorder p n) := inferInstanceAs (Decidable (_ ∧ _))

theorem same_repetition_iff {p s size : ℕ} (hsize : 0 < size) (hs : 1 ≤ s) :
    p / size = (p + s - 1) / size ↔ p % size + s ≤ size := by
  have hp := Nat.div_add_mod p size
  have hmod := Nat.mod_lt p hsize
  constructor
  · intro h
    have hend := Nat.div_add_mod (p + s - 1) size
    have hlt := Nat.mod_lt (p + s - 1) hsize
    rw [← h] at hend
    omega
  · intro h
    symm
    refine (Nat.div_eq_iff hsize).mpr ?_
    rw [Nat.mul_comm]
    omega

theorem compareBlock_eq {p s : ℕ} {data : Bytes} (hdata : data.length = bufferSize) (hs : 1 ≤ s)
    (hle : s ≤ bufferSize) :
    compareBlock p data s = (decide (data.take s = stretch reference p s ∧
      ¬ (s < bufferSize ∧ p / reference.length ≠ (p + s - 1) / reference.length)), p + s) := by
  have hlen := length_reference
  have hbuffer : bufferSize = 32 := rfl
  have hsame := same_repetition_iff (p := p) (by omega : 0 < reference.length) hs
  have hmod := Nat.mod_lt p (by omega : 0 < reference.length)
  unfold compareBlock
  rw [if_neg (by omega)]
  dsimp only
  by_cases hwithin : p % reference.length + s ≤ reference.length
  · rw [if_pos (hsame.mpr hwithin), stretch_within hwithin]
    refine congrArg (·, p + s) ?_
    rw [Bool.beq_eq_decide_eq, decide_eq_decide]
    constructor
    · exact fun h => ⟨h.symm, fun hcut => hcut.2 (hsame.mpr hwithin)⟩
    · exact fun h => h.1.symm
  · have hcross : p / reference.length ≠ (p + s - 1) / reference.length :=
      fun h => hwithin (hsame.mp h)
    have hrem : (reference.drop (p % reference.length)).length =
        reference.length - p % reference.length := List.length_drop
    rw [if_neg hcross, List.take_of_length_le hrem.le,
      stretch_across (by omega : 0 < reference.length) (by omega : _ < _),
      stretch_start (by omega)]
    by_cases hfull : s = bufferSize
    · rw [List.take_of_length_le (by omega : data.length ≤ s)]
      split
      · rename_i hstart
        rw [beq_iff_eq] at hstart
        refine congrArg (·, p + s) ?_
        rw [Bool.beq_eq_decide_eq, decide_eq_decide]
        constructor
        · intro h
          refine ⟨?_, by omega⟩
          rw [hstart, h, List.take_append_drop]
        · rintro ⟨h, _⟩
          rw [h, List.drop_left' hrem]
      · rename_i hstart
        refine congrArg (·, p + s) ?_
        rw [eq_comm, decide_eq_false_iff_not]
        rintro ⟨h, _⟩
        refine hstart ?_
        rw [beq_iff_eq, h, List.take_left' hrem]
    · have hfalse : decide (data.take s = reference.drop (p % reference.length) ++
          reference.take (s - (reference.length - p % reference.length)) ∧
          ¬ (s < bufferSize ∧ p / reference.length ≠ (p + s - 1) / reference.length)) = false :=
        decide_eq_false fun h => h.2 ⟨by omega, hcross⟩
      rw [hfalse]
      split
      · refine congrArg (·, p + s) (beq_eq_false_iff_ne.mpr fun h => ?_)
        -- the buffer is longer than what was read
        have hlong := congrArg List.length h
        rw [List.length_take, List.length_drop] at hlong
        omega
      · rfl

/-- What `compare` accepts from the position `p` on. -/
def Accepted (p : ℕ) (bytes : Bytes) : Prop :=
  bytes = stretch reference p bytes.length ∧ ¬ CutByBorder p bytes.length

instance (p : ℕ) (bytes : Bytes) : Decidable (Accepted p bytes) :=
  inferInstanceAs (Decidable (_ ∧ _))

/-- The next read is a partial one over the border, or the last read is. -/
theorem cutByBorder_step {p n m : ℕ} (hn : 1 ≤ n) (hm : m = min n bufferSize) :
    CutByBorder p n ↔ (m < bufferSize ∧ p / reference.length ≠ (p + m - 1) / reference.length) ∨
      CutByBorder (p + m) (n - m) := by
  have hsize : bufferSize = 32 := rfl
  unfold CutByBorder
  by_cases hlast : n < bufferSize
  · have hall : m = n := by omega
    subst hall
    rw [Nat.mod_eq_of_lt hlast, Nat.sub_self, Nat.add_zero, Nat.zero_mod]
    constructor
    · exact fun h => Or.inl ⟨hlast, h.2⟩
    · intro h
      rcases h with h | h
      · exact ⟨by omega, h.2⟩
      · exact absurd rfl h.1
  · have hwhole : m = bufferSize := by omega
    subst hwhole
    have hmod : n % bufferSize = (n - bufferSize) % bufferSize := Nat.mod_eq_sub_mod (by omega)
    have hle := Nat.mod_le (n - bufferSize) bufferSize
    have hstart : p + (n - (n - bufferSize) % bufferSize) =
        p + bufferSize + (n - bufferSize - (n - bufferSize) % bufferSize) := by omega
    have hend : p + n - 1 = p + bufferSize + (n - bufferSize) - 1 := by omega
    rw [hmod, hstart, hend]
    constructor
    · exact Or.inr
    · intro h
      rcases h with h | h
      · omega
      · exact h

theorem accepted_step {p m : ℕ} {rest : Bytes} (hrest : 1 ≤ rest.length)
    (hm : m = min rest.length bufferSize) :
    Accepted p rest ↔ (rest.take m = stretch reference p m ∧
        ¬ (m < bufferSize ∧ p / reference.length ≠ (p + m - 1) / reference.length)) ∧
      Accepted (p + m) (rest.drop m) := by
  have hsame : rest = stretch reference p rest.length ↔
      rest.take m = stretch reference p m ∧
        rest.drop m = stretch reference (p + m) (rest.drop m).length :=
    eq_stretch_iff (by omega)
  have hcut := cutByBorder_step (p := p) hrest hm
  unfold Accepted
  rw [hsame, hcut, List.length_drop]
  tauto

theorem compareReads_eq {fuel p : ℕ} {buffer rest : Bytes} (hbuffer : buffer.length = bufferSize)
    (hfuel : rest.length < fuel) :
    compareReads fuel p buffer rest = some (decide (Accepted p rest)) := by
  induction fuel generalizing p buffer rest with
  | zero => omega
  | succ fuel ih =>
    cases rest with
    | nil =>
      have hnil : Accepted p [] := ⟨rfl, fun h => h.1 (Nat.zero_mod _)⟩
      rw [compareReads, decide_eq_true hnil]
    | cons b tail =>
      generalize hrest : b :: tail = rest at hfuel ⊢
      generalize hm : min rest.length bufferSize = m
      have hsize : bufferSize = 32 := rfl
      have hpos : 1 ≤ rest.length := by
        rw [← hrest, List.length_cons]
        omega
      have hread : (rest.take m ++ buffer.drop m).length = bufferSize := by
        rw [List.length_append, List.length_take, List.length_drop]
        omega
      have htake : (rest.take m ++ buffer.drop m).take m = rest.take m := by
        refine List.take_left' ?_
        rw [List.length_take]
        omega
      have hblock := compareBlock_eq (p := p) hread (s := m) (by omega) (by omega)
      rw [htake] at hblock
      have hstep := accepted_step (p := p) hpos hm.symm
      rw [← hrest, compareReads, hrest, hm, hblock]
      by_cases hsame : rest.take m = stretch reference p m ∧
          ¬ (m < bufferSize ∧ p / reference.length ≠ (p + m - 1) / reference.length)
      · have hlater : (rest.drop m).length < fuel := by
          rw [List.length_drop]
          omega
        rw [if_pos (decide_eq_true hsame), ih hread hlater]
        exact congrArg some (decide_eq_decide.mpr
          ⟨fun h => hstep.mpr ⟨hsame, h⟩, fun h => (hstep.mp h).2⟩)
      · rw [decide_eq_false hsame, decide_eq_false fun h => hsame (hstep.mp h).1]
        rfl

/-- `compare` accepts a file exactly when it is the reference text repeated, unless the
last read is cut by the border of two repetitions: then it rejects any file. -/
theorem compare_iff (bytes : Bytes) :
    compare (some bytes) = some (decide (bytes = stretch reference 0 bytes.length ∧
      ¬ CutByBorder 0 bytes.length)) :=
  compareReads_eq List.length_replicate (Nat.lt_succ_self _)

end BlobRelay.Client
