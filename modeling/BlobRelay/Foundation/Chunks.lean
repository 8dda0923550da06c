import BlobRelay.Foundation.FileStore

/-! # Writing and reading a file in pieces

A writer whose stream may fail at any piece or at the flush on close, and a reader that
asks for `n` elements at a time and stops at the first read that comes back empty: when
all that was written is in the file, and that what is read of an unchanged file is the
file, cut every `n` elements. -/

set_option linter.unusedSectionVars false

namespace Foundation.FileStore
variable {P B : Type} [DecidableEq P]

/-! ### Writing -/

/-- Of the pieces written after `n` elements nothing is lost: a write that fails has
taken its whole piece, with only empty ones to follow, and if none fails, a flush that
does has kept everything. -/
def Lossless (writes : ℕ → WriteResult) (closes : WriteResult) : ℕ → ℕ → List (List B) → Prop
  | _, n, [] => ∀ kept, closes = some kept → n ≤ kept
  | k, n, bs :: rest =>
    match writes k with
    | none => Lossless writes closes (k + 1) (n + bs.length) rest
    | some kept => bs.length ≤ kept ∧ rest.flatten = []

theorem take_eq_append_iff {kept : ℕ} {bs rest : List B} :
    bs.take kept = bs ++ rest ↔ bs.length ≤ kept ∧ rest = [] := by
  constructor
  · intro h
    have hlen := congrArg List.length h
    rw [List.length_take, List.length_append] at hlen
    have hrest : rest.length = 0 := by omega
    exact ⟨by omega, List.length_eq_zero_iff.mp hrest⟩
  · rintro ⟨hle, rfl⟩
    rw [List.take_of_length_le hle, List.append_nil]

theorem OutStream.writeAll_failed (writes : ℕ → WriteResult) (k ino : ℕ) (bss : List (List B))
    (fs : FileSystem P B) :
    OutStream.writeAll writes k ⟨ino, false⟩ bss fs = (⟨ino, false⟩, fs) := by
  induction bss generalizing k with
  | nil => rfl
  | cons bs rest ih => exact ih (k + 1)

/-- All that was written is in the file exactly when nothing was lost. -/
theorem OutStream.writeAll_close_iff (writes : ℕ → WriteResult) (closes : WriteResult) (k ino : ℕ)
    (bss : List (List B)) (fs : FileSystem P B) :
    ((OutStream.writeAll writes k ⟨ino, true⟩ bss fs).1.close closes
        (OutStream.writeAll writes k ⟨ino, true⟩ bss fs).2).data ino = fs.data ino ++ bss.flatten ↔
      Lossless writes closes k (fs.data ino).length bss := by
  induction bss generalizing k fs with
  | nil =>
    cases closes with
    | none => simp [writeAll, close, Lossless]
    | some kept =>
      have hclosed : (OutStream.close ⟨ino, true⟩ (some kept) fs).data ino =
          (fs.data ino).take kept := by
        simp [close, FileSystem.setData]
      rw [writeAll, hclosed, List.flatten_nil, take_eq_append_iff]
      simp [Lossless]
  | cons bs rest ih =>
    cases hw : writes k with
    | none =>
      have hone : OutStream.write ⟨ino, true⟩ none bs fs = (⟨ino, true⟩, fs.append ino bs) := rfl
      have hlater := ih (k + 1) (fs.append ino bs)
      rw [FileSystem.data_append_self, List.length_append, List.append_assoc] at hlater
      simp only [writeAll, hw, hone, Lossless, List.flatten_cons]
      exact hlater
    | some kept =>
      have hone : OutStream.write ⟨ino, true⟩ (some kept) bs fs =
          (⟨ino, false⟩, fs.append ino (bs.take kept)) := rfl
      have hdropped : OutStream.close ⟨ino, false⟩ closes (fs.append ino (bs.take kept)) =
          fs.append ino (bs.take kept) := rfl
      simp only [writeAll, hw, hone, writeAll_failed, hdropped, Lossless,
        FileSystem.data_append_self, List.flatten_cons, List.append_cancel_left_eq]
      exact take_eq_append_iff

/-- However the writes and the flush end, the file holds a beginning of what was to be in it. -/
theorem OutStream.writeAll_close_prefix (writes : ℕ → WriteResult) (closes : WriteResult) (k : ℕ)
    (out : OutStream) (bss : List (List B)) (fs : FileSystem P B) :
    ((OutStream.writeAll writes k out bss fs).1.close closes
        (OutStream.writeAll writes k out bss fs).2).data out.ino <+:
      fs.data out.ino ++ bss.flatten := by
  obtain ⟨ino, good⟩ := out
  cases good with
  | false =>
    rw [writeAll_failed]
    exact List.prefix_append _ _
  | true =>
    induction bss generalizing k fs with
    | nil =>
      cases closes with
      | none => exact List.prefix_append _ _
      | some kept =>
        have hclosed : (OutStream.close ⟨ino, true⟩ (some kept) fs).data ino =
            (fs.data ino).take kept := by
          simp [close, FileSystem.setData]
        rw [writeAll, hclosed, List.flatten_nil, List.append_nil]
        exact List.take_prefix kept _
    | cons bs rest ih =>
      cases hw : writes k with
      | none =>
        have hone : OutStream.write ⟨ino, true⟩ none bs fs = (⟨ino, true⟩, fs.append ino bs) := rfl
        have hlater := ih (k + 1) (fs.append ino bs)
        rw [FileSystem.data_append_self, List.append_assoc] at hlater
        simp only [writeAll, hw, hone, List.flatten_cons]
        exact hlater
      | some kept =>
        have hone : OutStream.write ⟨ino, true⟩ (some kept) bs fs =
            (⟨ino, false⟩, fs.append ino (bs.take kept)) := rfl
        have hdropped : OutStream.close ⟨ino, false⟩ closes (fs.append ino (bs.take kept)) =
            fs.append ino (bs.take kept) := rfl
        simp only [writeAll, hw, hone, writeAll_failed, hdropped, FileSystem.data_append_self,
          List.flatten_cons]
        refine (List.prefix_append_right_inj _).mpr ?_
        exact (List.take_prefix kept bs).trans (List.prefix_append bs _)

/-! ### Reading -/

/-- `all` cut every `n` elements: no piece is empty or longer than `n`, and only the
last may be shorter. -/
structure Pieces (n : ℕ) (all : List B) (pieces : List (List B)) : Prop where
  whole : pieces.flatten = all
  bounded : ∀ c ∈ pieces, c ≠ [] ∧ c.length ≤ n
  full : ∀ c ∈ pieces.dropLast, c.length = n

/-- What a stream over `all` has returned so far, in reads of `n`. -/
structure Progress (n : ℕ) (all : List B) (s : InStream) (pieces : List (List B)) : Prop where
  taken : pieces.flatten = all.take s.pos
  pos : s.pos ≤ all.length
  bounded : ∀ c ∈ pieces, c ≠ [] ∧ c.length ≤ n
  full : ∀ c ∈ pieces.dropLast, c.length = n
  good : s.good = true → ∀ c ∈ pieces, c.length = n
  ended : s.good = false → s.pos = all.length

variable {n i : ℕ} {all : List B} {s : InStream} {pieces : List (List B)} {fs : FileSystem P B}

theorem Progress.start (n : ℕ) (all : List B) (i : ℕ) : Progress n all ⟨some i, 0, true⟩ [] where
  taken := rfl
  pos := Nat.zero_le _
  bounded _ hc := absurd hc List.not_mem_nil
  full _ hc := absurd hc List.not_mem_nil
  good _ _ hc := absurd hc List.not_mem_nil
  ended h := absurd h Bool.true_eq_false.mp

theorem InStream.read_good_of_ne_nil (h : (s.read n fs).1 ≠ []) : s.good = true := by
  obtain ⟨_ | j, pos, good⟩ := s
  · exact absurd rfl h
  · cases good with
    | false => exact absurd rfl h
    | true => rfl

/-- A read that returns something. -/
theorem Progress.more (h : Progress n all s pieces) (hi : s.ino = some i)
    (hdata : fs.data i = all) (hne : (s.read n fs).1 ≠ []) :
    (s.read n fs).2.ino = some i ∧ s.pos < (s.read n fs).2.pos ∧
      Progress n all (s.read n fs).2 (pieces ++ [(s.read n fs).1]) := by
  have hgood := InStream.read_good_of_ne_nil hne
  obtain ⟨ino, pos, good⟩ := s
  cases hi
  cases hgood
  rw [read_good, hdata] at hne ⊢
  have hlen : ((all.drop pos).take n).length = min n (all.length - pos) := by
    rw [List.length_take, List.length_drop]
  have hpos : 0 < ((all.drop pos).take n).length := List.length_pos_of_ne_nil hne
  have hle : pos ≤ all.length := h.pos
  refine ⟨rfl, Nat.lt_add_of_pos_right hpos, ?_, ?_, ?_, ?_, ?_, ?_⟩
  · have hread : (all.drop pos).take n = (all.drop pos).take ((all.drop pos).take n).length := by
      refine List.take_eq_take_iff.mpr ?_
      rw [List.length_take]
      omega
    have hsofar : pieces.flatten = all.take pos := h.taken
    rw [List.flatten_append, List.flatten_singleton, hsofar, List.take_add]
    exact congrArg (all.take pos ++ ·) hread
  · dsimp only
    omega
  · intro c hc
    rcases List.mem_append.mp hc with hold | hnew
    · exact h.bounded c hold
    · rw [List.mem_singleton.mp hnew]
      exact ⟨hne, List.length_take_le n _⟩
  · intro c hc
    rw [List.dropLast_concat] at hc
    exact h.good rfl c hc
  · intro hfull c hc
    rcases List.mem_append.mp hc with hold | hnew
    · exact h.good rfl c hold
    · rw [List.mem_singleton.mp hnew]
      exact beq_iff_eq.mp hfull
  · intro hshort
    have hne : ((all.drop pos).take n).length ≠ n := fun heq => by
      dsimp only at hshort
      rw [heq, beq_self_eq_true] at hshort
      cases hshort
    dsimp only
    omega

/-- A read that returns nothing, of at least one element or of an empty file. -/
theorem Progress.done (h : Progress n all s pieces) (hn : 1 ≤ n ∨ all = []) (hi : s.ino = some i)
    (hdata : fs.data i = all) (hread : (s.read n fs).1 = []) : Pieces n all pieces := by
  have hend : all.length ≤ s.pos := by
    rcases hn with hn | hnil
    · rw [← hdata]
      exact InStream.read_nil hn hi (fun hbad => hdata ▸ (h.ended hbad).ge) hread
    · rw [hnil]
      exact Nat.zero_le _
  exact ⟨h.taken.trans (List.take_of_length_le hend), h.bounded, h.full⟩

/-- Reading to the end, with nobody changing the file. -/
theorem drain_pieces (hn : 1 ≤ n ∨ all = []) (hdata : fs.data i = all) {fuel : ℕ}
    {rest : List (List B)} (h : Progress n all s pieces) (hi : s.ino = some i)
    (hdrain : drain n fs fuel s = some rest) : Pieces n all (pieces ++ rest) := by
  induction fuel generalizing s pieces rest with
  | zero => cases hdrain
  | succ fuel ih =>
    by_cases hread : (s.read n fs).1 = []
    · rw [drain_ended hread] at hdrain
      cases hdrain
      rw [List.append_nil]
      exact h.done hn hi hdata hread
    · simp only [drain, if_neg hread] at hdrain
      obtain ⟨tail, htail, rfl⟩ := Option.map_eq_some_iff.mp hdrain
      obtain ⟨hino, _, hnext⟩ := h.more hi hdata hread
      have hall := ih hnext hino htail
      rwa [List.append_assoc, List.singleton_append] at hall

end Foundation.FileStore
