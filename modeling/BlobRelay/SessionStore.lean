import BlobRelay.TagGenerator

/-! # The session store (session_store.h)

The store's directory and quota never change after construction and live in
`Config`; its only state is the usage counter. -/

namespace BlobRelay
open Foundation.FileStore

/-- What is fixed when the service is constructed: `service_configuration`, the
`api` callbacks, the tag generator's key, and how the file system resolves paths. -/
structure Config where
  directory : Path
  quota : ℕ
  streamChunkSize : ℕ
  devAcceptMockTag : Bool
  api : Api
  tagGenerator : TagGenerator
  canonical : Path → Path

def pathString (p : Path) : String := "/".intercalate p

/-- Whether a path names an entry of the store directory. -/
def inDirectory (directory p : Path) : Bool :=
  p.dropLast == directory && p.length == directory.length + 1

/-- The constructor of `blob_session_store`: checks the directory and removes
what is left in it. `stuck` is the first entry that `fs::remove` reports an
error for. -/
def constructStore (directory : Path) (stuck : Option Path) (fs : Files) : Except Exn Files :=
  match fs.names directory with
  | none => .error (.stdException (pathString directory ++ " does not exists"))
  | some (.directory writable) =>
    if writable then
      match stuck with
      | some p => .error (.stdException (pathString p ++ "remains in the session store directory (" ++
          pathString directory ++ ")"))
      | none => .ok (fs.unlinkAll (inDirectory directory))
    else .error (.stdException (pathString directory ++ " is not writable"))
  | some _ => .error (.stdException (pathString directory ++ " is not a directory"))

/-- `create_blob_file`: names the file, does not create it. -/
def blobFilePath (directory : Path) (newBlobId : ℕ) (prefix' : String) : Path :=
  directory ++ [prefix' ++ "_" ++ toString newBlobId]

/-- `create_blob_file` with the one prefix the code uses. -/
def uploadPath (cfg : Config) (b : ℕ) : Path := blobFilePath cfg.directory b "upload"

/-- `reserve` when no other call changes the counter between its load and its
compare-exchange: the answer and the counter after it. -/
def reserve (quota size currentSize : ℕ) : Bool × ℕ :=
  if quota ≠ 0 then
    if add64 currentSize size > quota then (false, currentSize)
    else (true, add64 currentSize size)
  else (true, currentSize)

/-- `remove`: the counter after giving back `size`. -/
def release (quota size currentSize : ℕ) : ℕ :=
  if quota ≠ 0 then sub64 currentSize size else currentSize

theorem reserve_refused_iff {quota size cur : ℕ} (hq : quota ≠ 0) :
    (reserve quota size cur).1 = false ↔ quota < add64 cur size := by
  rw [reserve, if_pos hq]
  split
  · rename_i hlt
    exact ⟨fun _ => hlt, fun _ => rfl⟩
  · rename_i hle
    exact ⟨fun h => (by cases h), fun h => absurd h hle⟩

theorem reserve_charges {quota size cur : ℕ} (hq : quota ≠ 0)
    (h : (reserve quota size cur).1 = true) :
    ¬ quota < add64 cur size ∧ (reserve quota size cur).2 = add64 cur size := by
  unfold reserve at h ⊢
  rw [if_pos hq] at h ⊢
  split at h
  · cases h
  · rename_i hle
    exact ⟨hle, by rw [if_neg hle]⟩

theorem reserve_fits {quota size cur : ℕ} (hq : quota ≠ 0) (hlt : cur + size < 2^64)
    (hle : cur + size ≤ quota) : reserve quota size cur = (true, cur + size) := by
  rw [reserve, if_pos hq, add64_of_lt hlt, if_neg (by omega)]

theorem uploadPath_injective (cfg : Config) : Function.Injective (uploadPath cfg) := by
  intro a b h
  simp only [uploadPath, blobFilePath, List.append_cancel_left_eq, List.cons.injEq, and_true] at h
  have hdigits : a.repr.toList = b.repr.toList := by
    have hd := congrArg String.toList h
    simp only [String.toList_append, List.append_cancel_left_eq] at hd
    exact hd
  rw [Nat.toList_repr, Nat.toList_repr] at hdigits
  have hvalue := congrArg (fun ds => Nat.ofDigitChars 10 ds 0) hdigits
  simpa [Nat.ofDigitChars_toDigits] using hvalue

theorem uploadPath_inDirectory (cfg : Config) (b : ℕ) :
    inDirectory cfg.directory (uploadPath cfg b) = true := by
  simp [inDirectory, uploadPath, blobFilePath]

end BlobRelay
