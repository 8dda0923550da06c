import Mathlib.Tactic

/-! # A file system with names, inodes and stream handles

Names point at nodes and regular files keep their bytes under an inode, so a
handle outlives the name it was opened under: an unlinked file can still be
written and read through its handle and no longer shows at any name. -/

set_option linter.unusedSectionVars false

namespace Foundation.FileStore

inductive Node
  | regular (ino : ℕ)
  | directory (writable : Bool)
  | special
  deriving DecidableEq

variable {P B : Type} [DecidableEq P]

/-- Inodes below `next` are in use. No file has two names: nothing modelled
here creates hard links. -/
structure FileSystem (P B : Type) where
  names : P → Option Node
  data : ℕ → List B
  next : ℕ
  bounded : ∀ p i, names p = some (.regular i) → i < next
  linkedOnce : ∀ p q i, names p = some (.regular i) → names q = some (.regular i) → p = q

/-- How the system calls of a copy end: one may fail before the new file is there,
or after some bytes have reached it. -/
inductive CopyResult
  | succeeds
  | notOpened
  | breaksOff (kept : ℕ)
  deriving DecidableEq

namespace FileSystem

def present (fs : FileSystem P B) (p : P) : Bool := (fs.names p).isSome

def contents (fs : FileSystem P B) (p : P) : Option (List B) :=
  match fs.names p with
  | some (.regular i) => some (fs.data i)
  | _ => none

def fileSize (fs : FileSystem P B) (p : P) : Option ℕ := (fs.contents p).map List.length

def SameAt (fs fs' : FileSystem P B) (p : P) : Prop :=
  fs'.names p = fs.names p ∧ fs'.contents p = fs.contents p

/-- A path shows the same in two file systems, whatever the inode behind it. -/
def Alike (fs fs' : FileSystem P B) (p : P) : Prop :=
  fs.present p = fs'.present p ∧ fs.contents p = fs'.contents p

def setData (fs : FileSystem P B) (i : ℕ) (bs : List B) : FileSystem P B :=
  {fs with data := Function.update fs.data i bs}

def append (fs : FileSystem P B) (i : ℕ) (bs : List B) : FileSystem P B :=
  fs.setData i (fs.data i ++ bs)

def unlink (fs : FileSystem P B) (p : P) : FileSystem P B where
  names := Function.update fs.names p none
  data := fs.data
  next := fs.next
  bounded q i h := by
    by_cases hq : q = p
    · subst hq
      simp at h
    · rw [Function.update_of_ne hq] at h
      exact fs.bounded q i h
  linkedOnce q r i hq hr := by
    by_cases hqp : q = p
    · subst hqp
      simp at hq
    · by_cases hrp : r = p
      · subst hrp
        simp at hr
      · rw [Function.update_of_ne hqp] at hq
        rw [Function.update_of_ne hrp] at hr
        exact fs.linkedOnce q r i hq hr

def unlinkAll (fs : FileSystem P B) (q : P → Bool) : FileSystem P B where
  names p := if q p then none else fs.names p
  data := fs.data
  next := fs.next
  bounded p i h := by
    split at h
    · cases h
    · exact fs.bounded p i h
  linkedOnce p r i hp hr := by
    split at hp
    · cases hp
    · split at hr
      · cases hr
      · exact fs.linkedOnce p r i hp hr

def create (fs : FileSystem P B) (p : P) : FileSystem P B where
  names := Function.update fs.names p (some (.regular fs.next))
  data := Function.update fs.data fs.next []
  next := fs.next + 1
  bounded q i h := by
    by_cases hq : q = p
    · subst hq
      simp only [Function.update_self, Option.some.injEq, Node.regular.injEq] at h
      omega
    · rw [Function.update_of_ne hq] at h
      have hlt := fs.bounded q i h
      omega
  linkedOnce q r i hq hr := by
    by_cases hqp : q = p
    · by_cases hrp : r = p
      · exact hqp.trans hrp.symm
      · subst hqp
        rw [Function.update_of_ne hrp] at hr
        simp only [Function.update_self, Option.some.injEq, Node.regular.injEq] at hq
        have hlt := fs.bounded r i hr
        omega
    · rw [Function.update_of_ne hqp] at hq
      by_cases hrp : r = p
      · subst hrp
        simp only [Function.update_self, Option.some.injEq, Node.regular.injEq] at hr
        have hlt := fs.bounded q i hq
        omega
      · rw [Function.update_of_ne hrp] at hr
        exact fs.linkedOnce q r i hq hr

/-- A new file that holds these bytes. -/
def createWith (fs : FileSystem P B) (p : P) (bs : List B) : FileSystem P B :=
  (fs.create p).setData fs.next bs

def createDirectory (fs : FileSystem P B) (p : P) : FileSystem P B where
  names := Function.update fs.names p (some (.directory true))
  data := fs.data
  next := fs.next
  bounded q i h := by
    by_cases hq : q = p
    · subst hq
      simp at h
    · rw [Function.update_of_ne hq] at h
      exact fs.bounded q i h
  linkedOnce q r i hq hr := by
    by_cases hqp : q = p
    · subst hqp
      simp at hq
    · by_cases hrp : r = p
      · subst hrp
        simp at hr
      · rw [Function.update_of_ne hqp] at hq
        rw [Function.update_of_ne hrp] at hr
        exact fs.linkedOnce q r i hq hr

/-- Opening for output: a missing file is created, a regular one is cut to
length zero, and anything else cannot be opened. -/
def openWrite (fs : FileSystem P B) (p : P) : Option (ℕ × FileSystem P B) :=
  match fs.names p with
  | none => some (fs.next, fs.create p)
  | some (.regular i) => some (i, fs.setData i [])
  | some _ => none

/-! ### What a name shows after an operation -/

theorem present_eq_false_iff {fs : FileSystem P B} {p : P} :
    fs.present p = false ↔ fs.names p = none := by
  simp [present]

theorem present_of_contents {fs : FileSystem P B} {p : P} {bs : List B}
    (h : fs.contents p = some bs) : fs.present p = true := by
  unfold contents at h
  split at h
  · rename_i hp
    simp [present, hp]
  · cases h

theorem contents_of_regular {fs : FileSystem P B} {p : P} {i : ℕ}
    (h : fs.names p = some (.regular i)) : fs.contents p = some (fs.data i) := by
  simp only [contents, h]

theorem contents_regular {fs : FileSystem P B} {p : P} {bs : List B}
    (h : fs.contents p = some bs) : ∃ i, fs.names p = some (.regular i) ∧ fs.data i = bs := by
  unfold contents at h
  split at h
  · rename_i i hp
    exact ⟨i, hp, Option.some.inj h⟩
  · cases h

theorem contents_absent {fs : FileSystem P B} {p : P} (h : fs.names p = none) :
    fs.contents p = none := by
  simp only [contents, h]

theorem SameAt.refl (fs : FileSystem P B) (p : P) : fs.SameAt fs p := ⟨rfl, rfl⟩

theorem SameAt.trans {a b c : FileSystem P B} {p : P} (h : a.SameAt b p) (h' : b.SameAt c p) :
    a.SameAt c p :=
  ⟨h'.1.trans h.1, h'.2.trans h.2⟩

@[simp] theorem names_setData (fs : FileSystem P B) (i : ℕ) (bs : List B) :
    (fs.setData i bs).names = fs.names := rfl
@[simp] theorem names_append (fs : FileSystem P B) (i : ℕ) (bs : List B) :
    (fs.append i bs).names = fs.names := rfl

@[simp] theorem data_unlink (fs : FileSystem P B) (p : P) : (fs.unlink p).data = fs.data := rfl
@[simp] theorem data_append_self (fs : FileSystem P B) (i : ℕ) (bs : List B) :
    (fs.append i bs).data i = fs.data i ++ bs := by
  simp [append, setData]
@[simp] theorem names_unlink_self (fs : FileSystem P B) (p : P) : (fs.unlink p).names p = none := by
  simp [unlink]

theorem names_unlink_of_ne (fs : FileSystem P B) {p q : P} (h : q ≠ p) :
    (fs.unlink p).names q = fs.names q := by
  simp [unlink, h]

theorem names_unlink (fs : FileSystem P B) (p q : P) :
    (fs.unlink p).names q = if q = p then none else fs.names q := by
  by_cases h : q = p
  · subst h
    simp
  · rw [names_unlink_of_ne fs h, if_neg h]

theorem ext_names {fs fs' : FileSystem P B} (hnames : ∀ q, fs.names q = fs'.names q)
    (hdata : fs.data = fs'.data) (hnext : fs.next = fs'.next) : fs = fs' := by
  cases fs
  cases fs'
  simp only [FileSystem.mk.injEq]
  exact ⟨funext hnames, hdata, hnext⟩

theorem unlink_of_absent {fs : FileSystem P B} {p : P} (h : fs.present p = false) :
    fs.unlink p = fs := by
  refine ext_names (fun q => ?_) rfl rfl
  rw [names_unlink]
  split
  · rename_i hq
    rw [hq, present_eq_false_iff.mp h]
  · rfl

theorem unlink_comm (fs : FileSystem P B) (p q : P) :
    (fs.unlink p).unlink q = (fs.unlink q).unlink p := by
  refine ext_names (fun r => ?_) rfl rfl
  simp only [names_unlink]
  split <;> split <;> rfl

theorem sameAt_setData (fs : FileSystem P B) {i : ℕ} {bs : List B} {p : P}
    (h : fs.names p ≠ some (.regular i)) : fs.SameAt (fs.setData i bs) p := by
  refine ⟨rfl, ?_⟩
  unfold contents
  rw [names_setData]
  split
  · rename_i j hj
    have hne : j ≠ i := fun hji => h (hji ▸ hj)
    simp [setData, hne]
  · rfl

theorem sameAt_unlink (fs : FileSystem P B) {p q : P} (h : q ≠ p) : fs.SameAt (fs.unlink p) q := by
  constructor
  · exact names_unlink_of_ne fs h
  · simp only [contents, names_unlink_of_ne fs h, data_unlink]

theorem sameAt_openWrite {fs fs' : FileSystem P B} {p q : P} {i : ℕ}
    (h : fs.openWrite p = some (i, fs')) (hq : q ≠ p) : fs.SameAt fs' q := by
  unfold openWrite at h
  split at h
  · cases h
    have hn : (fs.create p).names q = fs.names q := by simp [create, hq]
    refine ⟨hn, ?_⟩
    unfold contents
    rw [hn]
    split
    · rename_i j hj
      have hlt := fs.bounded q j hj
      have hne : j ≠ fs.next := by omega
      simp [create, hne]
    · rfl
  · rename_i j hj
    cases h
    refine sameAt_setData fs (fun hqi => hq (fs.linkedOnce q p _ hqi hj))
  · cases h

theorem openWrite_self {fs fs' : FileSystem P B} {p : P} {i : ℕ}
    (h : fs.openWrite p = some (i, fs')) :
    fs'.names p = some (.regular i) ∧ fs'.data i = [] ∧ fs.next ≤ fs'.next := by
  unfold openWrite at h
  split at h
  · cases h
    simp [create]
  · rename_i j hj
    cases h
    simp [hj, setData]
  · cases h

theorem openWrite_names_of_ne {fs fs' : FileSystem P B} {p q : P} {i : ℕ}
    (h : fs.openWrite p = some (i, fs')) (hq : q ≠ p) : fs'.names q = fs.names q := by
  unfold openWrite at h
  split at h
  · cases h
    simp [create, hq]
  · cases h
    rfl
  · cases h

theorem openWrite_names {fs fs' : FileSystem P B} {p q : P} {i j : ℕ}
    (h : fs.openWrite p = some (i, fs')) (hq : fs'.names q = some (.regular j)) :
    fs.names q = some (.regular j) ∨ fs.next ≤ j := by
  by_cases hqp : q = p
  · subst hqp
    have hji : i = j := by
      rw [(openWrite_self h).1] at hq
      simpa using hq
    subst hji
    unfold openWrite at h
    split at h
    · cases h
      exact Or.inr le_rfl
    · rename_i k hk
      cases h
      exact Or.inl hk
    · cases h
  · rw [openWrite_names_of_ne h hqp] at hq
    exact Or.inl hq

theorem data_openWrite {fs fs' : FileSystem P B} {p : P} {i j : ℕ}
    (h : fs.openWrite p = some (i, fs')) (hj : j < fs.next)
    (hne : fs.names p ≠ some (.regular j)) : fs'.data j = fs.data j := by
  unfold openWrite at h
  split at h
  · cases h
    have hnew : j ≠ fs.next := by omega
    simp [create, hnew]
  · rename_i i hi
    cases h
    have hij : j ≠ i := fun heq => hne (heq ▸ hi)
    simp [setData, hij]
  · cases h

theorem data_append_of_ne (fs : FileSystem P B) {i j : ℕ} (h : j ≠ i) (bs : List B) :
    (fs.append i bs).data j = fs.data j := by
  simp [append, setData, h]

theorem openWrite_of_absent {fs : FileSystem P B} {p : P} (h : fs.names p = none) :
    fs.openWrite p = some (fs.next, fs.create p) := by
  simp only [openWrite, h]

/-! ### Copying a file -/

/-- Only a regular file is copied, and only to a name that does not exist. -/
def copyFile (r : CopyResult) (source target : P) (fs : FileSystem P B) : Bool × FileSystem P B :=
  match fs.contents source, fs.names target with
  | some bs, none =>
    match r with
    | .succeeds => (true, fs.createWith target bs)
    | .notOpened => (false, fs)
    | .breaksOff kept => (false, fs.createWith target (bs.take kept))
  | _, _ => (false, fs)

theorem names_createWith (fs : FileSystem P B) (p q : P) (bs : List B) :
    (fs.createWith p bs).names q = if q = p then some (.regular fs.next) else fs.names q := by
  simp only [createWith, names_setData, create, Function.update_apply]

theorem contents_createWith (fs : FileSystem P B) (p q : P) (bs : List B) :
    (fs.createWith p bs).contents q = if q = p then some bs else fs.contents q := by
  unfold contents
  rw [names_createWith]
  by_cases hq : q = p
  · rw [if_pos hq, if_pos hq]
    simp [createWith, setData]
  · rw [if_neg hq, if_neg hq]
    split
    · rename_i i hi
      have hlt := fs.bounded q i hi
      have hne : i ≠ fs.next := by omega
      simp [createWith, create, setData, hne]
    · rfl

theorem names_createDirectory (fs : FileSystem P B) (p q : P) :
    (fs.createDirectory p).names q = if q = p then some (.directory true) else fs.names q := by
  simp only [createDirectory, Function.update_apply]

theorem copyFile_succeeds {fs : FileSystem P B} {source target : P} {bs : List B}
    (hsource : fs.contents source = some bs) (htarget : fs.names target = none) :
    copyFile .succeeds source target fs = (true, fs.createWith target bs) := by
  simp only [copyFile, hsource, htarget]

theorem names_copyFile (r : CopyResult) (source target : P) (fs : FileSystem P B) {q : P} {n : Node}
    (h : (copyFile r source target fs).2.names q = some n) :
    fs.names q = some n ∨ (q = target ∧ n = .regular fs.next) := by
  have hnew : ∀ bs, (fs.createWith target bs).names q = some n →
      fs.names q = some n ∨ (q = target ∧ n = .regular fs.next) := by
    intro bs h
    rw [names_createWith] at h
    split at h
    · rename_i hq
      exact Or.inr ⟨hq, (Option.some.inj h).symm⟩
    · exact Or.inl h
  unfold copyFile at h
  split at h
  · cases r with
    | succeeds => exact hnew _ h
    | notOpened => exact Or.inl h
    | breaksOff kept => exact hnew _ h
  · exact Or.inl h

theorem next_copyFile (r : CopyResult) (source target : P) (fs : FileSystem P B) :
    fs.next ≤ (copyFile r source target fs).2.next := by
  have hnew : ∀ bs, fs.next ≤ (fs.createWith target bs).next := fun bs => Nat.le_succ _
  unfold copyFile
  split
  · cases r with
    | succeeds => exact hnew _
    | notOpened => exact le_rfl
    | breaksOff kept => exact hnew _
  · exact le_rfl

end FileSystem

/-! ### Streams -/

/-- An output stream on an inode; once a write fails the rest is dropped. It holds nothing
back: what a write takes is in the file at once, where a stream with a buffer may keep it
until the close. -/
structure OutStream where
  ino : ℕ
  good : Bool
  deriving DecidableEq

/-- A write, or the flush on close, either reaches the file (`none`) or fails
after a number of bytes. -/
abbrev WriteResult := Option ℕ

def OutStream.write (out : OutStream) (r : WriteResult) (bs : List B) (fs : FileSystem P B) :
    OutStream × FileSystem P B :=
  if out.good then
    match r with
    | none => (out, fs.append out.ino bs)
    | some k => ({out with good := false}, fs.append out.ino (bs.take k))
  else (out, fs)

def OutStream.close (out : OutStream) (r : WriteResult) (fs : FileSystem P B) : FileSystem P B :=
  if out.good then
    match r with
    | none => fs
    | some k => fs.setData out.ino ((fs.data out.ino).take k)
  else fs

@[simp] theorem OutStream.ino_write (out : OutStream) (r : WriteResult) (bs : List B)
    (fs : FileSystem P B) : (out.write r bs fs).1.ino = out.ino := by
  unfold OutStream.write
  split
  · cases r <;> rfl
  · rfl

@[simp] theorem OutStream.names_write (out : OutStream) (r : WriteResult) (bs : List B)
    (fs : FileSystem P B) : (out.write r bs fs).2.names = fs.names := by
  unfold OutStream.write
  split
  · cases r <;> rfl
  · rfl

@[simp] theorem OutStream.names_close (out : OutStream) (r : WriteResult)
    (fs : FileSystem P B) : (out.close r fs).names = fs.names := by
  unfold OutStream.close
  split
  · cases r <;> rfl
  · rfl

@[simp] theorem OutStream.next_write (out : OutStream) (r : WriteResult) (bs : List B)
    (fs : FileSystem P B) : (out.write r bs fs).2.next = fs.next := by
  unfold OutStream.write
  split
  · cases r <;> rfl
  · rfl

@[simp] theorem OutStream.next_close (out : OutStream) (r : WriteResult)
    (fs : FileSystem P B) : (out.close r fs).next = fs.next := by
  unfold OutStream.close
  split
  · cases r <;> rfl
  · rfl

theorem OutStream.sameAt_write (out : OutStream) (r : WriteResult) (bs : List B)
    (fs : FileSystem P B) {p : P} (h : fs.names p ≠ some (.regular out.ino)) :
    fs.SameAt (out.write r bs fs).2 p := by
  unfold OutStream.write
  split
  · cases r with
    | none => exact FileSystem.sameAt_setData fs h
    | some k => exact FileSystem.sameAt_setData fs h
  · exact .refl fs p

theorem OutStream.sameAt_close (out : OutStream) (r : WriteResult) (fs : FileSystem P B) {p : P}
    (h : fs.names p ≠ some (.regular out.ino)) : fs.SameAt (out.close r fs) p := by
  unfold OutStream.close
  split
  · cases r with
    | none => exact .refl fs p
    | some k => exact FileSystem.sameAt_setData fs h
  · exact .refl fs p

/-- Writes one after the other, the first of them the `k`-th through this stream. -/
def OutStream.writeAll (writes : ℕ → WriteResult) :
    ℕ → OutStream → List (List B) → FileSystem P B → OutStream × FileSystem P B
  | _, out, [], fs => (out, fs)
  | k, out, bs :: rest, fs =>
    let r := out.write (writes k) bs fs
    writeAll writes (k + 1) r.1 rest r.2

@[simp] theorem OutStream.ino_writeAll (writes : ℕ → WriteResult) (k : ℕ) (out : OutStream)
    (bss : List (List B)) (fs : FileSystem P B) :
    (out.writeAll writes k bss fs).1.ino = out.ino := by
  induction bss generalizing k out fs with
  | nil => rfl
  | cons bs rest ih => simp [writeAll, ih]

@[simp] theorem OutStream.names_writeAll (writes : ℕ → WriteResult) (k : ℕ) (out : OutStream)
    (bss : List (List B)) (fs : FileSystem P B) :
    (out.writeAll writes k bss fs).2.names = fs.names := by
  induction bss generalizing k out fs with
  | nil => rfl
  | cons bs rest ih => simp [writeAll, ih]

@[simp] theorem OutStream.next_writeAll (writes : ℕ → WriteResult) (k : ℕ) (out : OutStream)
    (bss : List (List B)) (fs : FileSystem P B) :
    (out.writeAll writes k bss fs).2.next = fs.next := by
  induction bss generalizing k out fs with
  | nil => rfl
  | cons bs rest ih => simp [writeAll, ih]

theorem OutStream.sameAt_writeAll (writes : ℕ → WriteResult) (k : ℕ) (out : OutStream)
    (bss : List (List B)) (fs : FileSystem P B) {p : P}
    (h : fs.names p ≠ some (.regular out.ino)) : fs.SameAt (out.writeAll writes k bss fs).2 p := by
  induction bss generalizing k out fs with
  | nil => exact .refl fs p
  | cons bs rest ih =>
    have hnext := ih (k + 1) (out.write (writes k) bs fs).1 (out.write (writes k) bs fs).2
      (by simpa using h)
    exact (out.sameAt_write (writes k) bs fs h).trans hnext

theorem OutStream.writeAll_none (writes : ℕ → WriteResult) (k : ℕ) (out : OutStream)
    (hgood : out.good = true) (bss : List (List B)) (fs : FileSystem P B)
    (hw : ∀ j, writes j = none) :
    (out.writeAll writes k bss fs).1 = out ∧
      (out.writeAll writes k bss fs).2.data out.ino = fs.data out.ino ++ bss.flatten := by
  induction bss generalizing k fs with
  | nil => exact ⟨rfl, by simp [writeAll]⟩
  | cons bs rest ih =>
    have hone : out.write (writes k) bs fs = (out, fs.append out.ino bs) := by
      simp [OutStream.write, hgood, hw]
    obtain ⟨hout, hdata⟩ := ih (k + 1) (fs.append out.ino bs)
    simp only [writeAll, hone]
    refine ⟨hout, ?_⟩
    rw [hdata, FileSystem.data_append_self, List.flatten_cons, List.append_assoc]

/-- An input stream. A stream that failed to open has no inode; a read that
comes back short sets the stream's end-of-file state. Reads themselves do not fail, and
each looks at the file as it is then: nothing is read ahead. -/
structure InStream where
  ino : Option ℕ
  pos : ℕ
  good : Bool
  deriving DecidableEq

def InStream.read (s : InStream) (n : ℕ) (fs : FileSystem P B) : List B × InStream :=
  match s.ino with
  | some i =>
    if s.good then
      let bs := ((fs.data i).drop s.pos).take n
      (bs, {s with pos := s.pos + bs.length, good := bs.length == n})
    else ([], s)
  | none => ([], s)

def openRead (fs : FileSystem P B) (opens : Bool) (p : P) : InStream :=
  match fs.names p, opens with
  | some (.regular i), true => ⟨some i, 0, true⟩
  | _, _ => ⟨none, 0, false⟩

/-- Reads of `n` elements until one comes back empty; `none` when the fuel runs
out first. -/
def drain (n : ℕ) (fs : FileSystem P B) : ℕ → InStream → Option (List (List B))
  | 0, _ => none
  | fuel + 1, s =>
    let r := s.read n fs
    if r.1 = [] then some [] else (drain n fs fuel r.2).map (r.1 :: ·)

theorem drain_ended {n fuel : ℕ} {fs : FileSystem P B} {s : InStream}
    (h : (s.read n fs).1 = []) : drain n fs (fuel + 1) s = some [] := by
  simp only [drain, h, if_true]

theorem read_good {n i pos : ℕ} {fs : FileSystem P B} :
    InStream.read ⟨some i, pos, true⟩ n fs =
      (((fs.data i).drop pos).take n, ⟨some i, pos + (((fs.data i).drop pos).take n).length,
        (((fs.data i).drop pos).take n).length == n⟩) := rfl

theorem drain_more {n i pos fuel : ℕ} {fs : FileSystem P B}
    (h : ((fs.data i).drop pos).take n ≠ []) :
    drain n fs (fuel + 1) ⟨some i, pos, true⟩ =
      (drain n fs fuel ⟨some i, pos + (((fs.data i).drop pos).take n).length,
        (((fs.data i).drop pos).take n).length == n⟩).map (((fs.data i).drop pos).take n :: ·) := by
  simp only [drain, read_good]
  exact if_neg h

/-- Reading on where a stream stands: what has been read stays the beginning of
`all`, if the file is one. -/
theorem InStream.read_prefix {s : InStream} {n : ℕ} {fs : FileSystem P B} {all sent : List B}
    (hsent : sent <+: all) (hpos : s.pos = sent.length)
    (hdata : ∀ i, s.ino = some i → fs.data i <+: all) :
    sent ++ (s.read n fs).1 <+: all ∧ (s.read n fs).2.pos = (sent ++ (s.read n fs).1).length ∧
      (s.read n fs).2.ino = s.ino := by
  obtain ⟨_ | i, pos, good⟩ := s
  · exact ⟨by simpa [read] using hsent, by simpa [read] using hpos, rfl⟩
  · cases good with
    | false => exact ⟨by simpa [read] using hsent, by simpa [read] using hpos, rfl⟩
    | true =>
      dsimp only at hpos
      subst hpos
      refine ⟨?_, by simp [read_good], rfl⟩
      rw [read_good]
      have hread : sent ++ ((fs.data i).drop sent.length).take n <+:
          sent ++ (fs.data i).drop sent.length :=
        (List.prefix_append_right_inj sent).mpr (List.take_prefix n _)
      rcases List.prefix_or_prefix_of_prefix hsent (hdata i rfl) with hle | hle
      · obtain ⟨rest, hrest⟩ := hle
        refine hread.trans ?_
        rw [← hrest, List.drop_left, hrest]
        exact hdata i rfl
      · -- the file is shorter than what was read before, and nothing more comes
        rw [List.drop_eq_nil_of_le hle.length_le, List.take_nil, List.append_nil]
        exact hsent

/-- A stream that is no longer good has come to the end of its file. -/
theorem InStream.read_ended {s : InStream} {n i : ℕ} {fs : FileSystem P B} (hi : s.ino = some i)
    (hgood : s.good = false → (fs.data i).length ≤ s.pos)
    (h : (s.read n fs).2.good = false) : (fs.data i).length ≤ (s.read n fs).2.pos := by
  obtain ⟨_ | j, pos, good⟩ := s
  · cases hi
  · cases hi
    cases good with
    | false => exact hgood rfl
    | true =>
      rw [read_good] at h ⊢
      have hshort : (((fs.data i).drop pos).take n).length ≠ n := by simpa using h
      rw [List.length_take, List.length_drop] at hshort
      simp only [List.length_take, List.length_drop]
      omega

theorem InStream.read_nil {s : InStream} {n i : ℕ} {fs : FileSystem P B} (hn : 1 ≤ n)
    (hi : s.ino = some i) (hgood : s.good = false → (fs.data i).length ≤ s.pos)
    (h : (s.read n fs).1 = []) : (fs.data i).length ≤ s.pos := by
  obtain ⟨_ | j, pos, good⟩ := s
  · cases hi
  · cases hi
    cases good with
    | false => exact hgood rfl
    | true =>
      rw [read_good] at h
      have hlen := congrArg List.length h
      simp only [List.length_take, List.length_drop, List.length_nil] at hlen
      dsimp only
      omega

/-- Reads of at least one element return the rest of the file, whatever their size. -/
theorem drain_good {n : ℕ} (hn : 1 ≤ n) (fs : FileSystem P B) (i : ℕ) {fuel pos : ℕ}
    (hfuel : ((fs.data i).drop pos).length < fuel) :
    ∃ bss, drain n fs fuel ⟨some i, pos, true⟩ = some bss ∧ bss.flatten = (fs.data i).drop pos := by
  induction fuel generalizing pos with
  | zero => omega
  | succ fuel ih =>
    by_cases hend : (fs.data i).drop pos = []
    · exact ⟨[], drain_ended (by rw [read_good, hend, List.take_nil]), hend.symm⟩
    · have hpos : 0 < ((fs.data i).drop pos).length := List.length_pos_of_ne_nil hend
      have hne : ((fs.data i).drop pos).take n ≠ [] := by
        rw [← List.length_pos_iff_ne_nil, List.length_take]
        omega
      rw [drain_more hne]
      by_cases hfull : (((fs.data i).drop pos).take n).length = n
      · -- a full read: the stream stays good and the rest is shorter
        have hrest : (((fs.data i).drop (pos + n))).length < fuel := by
          rw [List.length_drop] at hfuel hpos ⊢
          omega
        obtain ⟨bss, hdrain, hflat⟩ := ih hrest
        refine ⟨((fs.data i).drop pos).take n :: bss, ?_, ?_⟩
        · simp only [hfull, beq_self_eq_true, hdrain, Option.map_some]
        · rw [List.flatten_cons, hflat, ← List.drop_drop, List.take_append_drop]
      · -- a short read took all there was, and the next one comes back empty
        have hlen : ((fs.data i).drop pos).length ≤ n := by
          rw [List.length_take] at hfull
          omega
        obtain ⟨k, rfl⟩ : ∃ k, fuel = k + 1 := ⟨fuel - 1, by omega⟩
        refine ⟨[((fs.data i).drop pos).take n], ?_, ?_⟩
        · have hbad : ((((fs.data i).drop pos).take n).length == n) = false := by
            simpa using hfull
          rw [hbad, drain_ended rfl]
          rfl
        · rw [List.flatten_singleton, List.take_of_length_le hlen]

theorem drain_congr {n i j : ℕ} {fs fs' : FileSystem P B} (h : fs.data i = fs'.data j)
    (fuel pos : ℕ) (good : Bool) : drain n fs fuel ⟨some i, pos, good⟩ = drain n fs' fuel ⟨some j, pos, good⟩ := by
  induction fuel generalizing pos good with
  | zero => rfl
  | succ fuel ih =>
    cases good with
    | false => rfl
    | true =>
      by_cases hend : ((fs'.data j).drop pos).take n = []
      · rw [drain_ended (by rw [read_good, h, hend]), drain_ended (by rw [read_good, hend])]
      · rw [drain_more (by rwa [h]), drain_more hend, h, ih]

theorem openRead_of_contents {fs : FileSystem P B} {p : P} {bs : List B}
    (h : fs.contents p = some bs) :
    ∃ i, fs.data i = bs ∧ openRead fs true p = ⟨some i, 0, true⟩ := by
  obtain ⟨i, hname, hdata⟩ := FileSystem.contents_regular h
  exact ⟨i, hdata, by simp only [openRead, hname]⟩

theorem openRead_closed {fs : FileSystem P B} {opens : Bool} {p : P}
    (h : opens = false ∨ fs.contents p = none) : openRead fs opens p = ⟨none, 0, false⟩ := by
  unfold openRead
  split
  · rename_i i hname
    rcases h with hfalse | hnone
    · cases hfalse
    · rw [FileSystem.contents_of_regular hname] at hnone
      cases hnone
  · rfl

/-- What is read from a path depends on the contents there only. -/
theorem drain_openRead_congr {fs fs' : FileSystem P B} {p : P}
    (h : fs.contents p = fs'.contents p) (opens : Bool) (n fuel : ℕ) :
    drain n fs fuel (openRead fs opens p) = drain n fs' fuel (openRead fs' opens p) := by
  have hclosed : drain n fs fuel ⟨none, 0, false⟩ = drain n fs' fuel ⟨none, 0, false⟩ := by
    cases fuel <;> rfl
  cases opens with
  | false => rw [openRead_closed (Or.inl rfl), openRead_closed (Or.inl rfl), hclosed]
  | true =>
    cases hc : fs.contents p with
    | some bs =>
      obtain ⟨i, hdata, hi⟩ := openRead_of_contents hc
      obtain ⟨j, hdata', hj⟩ := openRead_of_contents (h.symm.trans hc)
      rw [hi, hj]
      exact drain_congr (hdata.trans hdata'.symm) fuel 0 true
    | none =>
      rw [openRead_closed (Or.inr hc), openRead_closed (Or.inr (h.symm.trans hc)), hclosed]

/-- What a file opened for reading yields; all of it when it opens and reads are
not empty. -/
theorem drain_openRead {fs : FileSystem P B} {p : P} {bs : List B} (h : fs.contents p = some bs)
    (opens : Bool) (n : ℕ) :
    ∃ bss, drain n fs (bs.length + 1) (openRead fs opens p) = some bss ∧ bss.flatten <+: bs ∧
      (opens = true → 1 ≤ n → bss.flatten = bs) := by
  cases opens with
  | false =>
    rw [openRead_closed (Or.inl rfl)]
    exact ⟨[], drain_ended rfl, List.nil_prefix, nofun⟩
  | true =>
    obtain ⟨i, rfl, hopen⟩ := openRead_of_contents h
    rw [hopen]
    rcases Nat.eq_zero_or_pos n with rfl | hn
    · exact ⟨[], drain_ended (by rw [read_good]; rfl), List.nil_prefix,
        fun _ h => absurd h (by omega)⟩
    · have hall : ((fs.data i).drop 0).length < (fs.data i).length + 1 := by simp
      obtain ⟨bss, hdrain, hflat⟩ := drain_good hn fs i hall
      rw [List.drop_zero] at hflat
      exact ⟨bss, hdrain, hflat ▸ List.prefix_rfl, fun _ _ => hflat⟩

/-! ### How long a file gets -/

theorem FileSystem.length_openWrite_le {fs fs' : FileSystem P B} {p : P} {i : ℕ}
    (h : fs.openWrite p = some (i, fs')) (j : ℕ) : (fs'.data j).length ≤ (fs.data j).length := by
  unfold openWrite at h
  split at h
  · cases h
    by_cases hj : j = fs.next
    · simp [create, hj]
    · simp [create, hj]
  · cases h
    by_cases hj : j = i
    · simp [setData, hj]
    · simp [setData, hj]
  · cases h

theorem OutStream.length_write_le (out : OutStream) (r : WriteResult) (bs : List B)
    (fs : FileSystem P B) (j : ℕ) :
    ((out.write r bs fs).2.data j).length ≤ (fs.data j).length + bs.length := by
  have happend : ∀ cs : List B, cs.length ≤ bs.length →
      ((fs.append out.ino cs).data j).length ≤ (fs.data j).length + bs.length := by
    intro cs hle
    by_cases hj : j = out.ino
    · rw [hj, FileSystem.data_append_self, List.length_append]
      omega
    · rw [FileSystem.data_append_of_ne fs hj]
      omega
  unfold write
  split
  · cases r with
    | none => exact happend bs le_rfl
    | some k => exact happend (bs.take k) (List.length_take_le' k bs)
  · exact Nat.le_add_right _ _

theorem OutStream.length_close_le (out : OutStream) (r : WriteResult) (fs : FileSystem P B) (j : ℕ) :
    ((out.close r fs).data j).length ≤ (fs.data j).length := by
  unfold close
  split
  · cases r with
    | none => exact le_rfl
    | some k =>
      by_cases hj : j = out.ino
      · simp [FileSystem.setData, hj]
      · simp [FileSystem.setData, hj]
  · exact le_rfl

/-- A read that brings something moves on, and not past the end of the file. -/
theorem InStream.read_moves {s : InStream} {n : ℕ} {fs : FileSystem P B}
    (h : (s.read n fs).1 ≠ []) :
    s.pos < (s.read n fs).2.pos ∧ ∃ i, (s.read n fs).2.pos ≤ (fs.data i).length := by
  obtain ⟨_ | i, pos, good⟩ := s
  · exact absurd rfl h
  · cases good with
    | false => exact absurd rfl h
    | true =>
      rw [read_good] at h ⊢
      have hpos := List.length_pos_of_ne_nil h
      rw [List.length_take, List.length_drop] at hpos
      dsimp only
      rw [List.length_take, List.length_drop]
      exact ⟨by omega, i, by omega⟩

end Foundation.FileStore
