import BlobRelay.RoundTrip

/-! # What an upload leaves in its file

`Put` asks the output stream neither after a write nor after the close whether it
failed; the size it checks is that of the bytes received. So OK says nothing about
the file, unless no write and not the flush on close has lost a byte. -/

namespace BlobRelay
open Foundation Foundation.FileStore

/-- `find(b)` of session `s` names a file that holds these bytes. -/
def StoredAs (w : World) (s b : ℕ) (bytes : Bytes) : Prop :=
  ∃ path, w.manager.pathOf s b = some path ∧ w.files.contents path = some bytes

variable {cfg : Config} {env : PutEnv} {w w' : World} {s : ℕ} {chunks : List Bytes}

theorem Uploaded.storedAs_iff (h : Uploaded cfg env s chunks w w') :
    StoredAs w' s (w.manager.blobId + 1) chunks.flatten ↔
      Lossless env.writes env.closes 0 0 chunks := by
  have hpath := BlobSessionManager.Entry.pathOf ((h.entry _ _ _).mpr (Or.inr ⟨rfl, rfl, rfl⟩))
  rw [← storedBytes_eq_iff cfg env w chunks]
  constructor
  · rintro ⟨path, hp, hc⟩
    cases hpath.symm.trans hp
    exact Option.some.inj (h.stored.symm.trans hc)
  · intro hdata
    exact ⟨_, hpath, h.stored.trans (congrArg some hdata)⟩

/-- An upload that returned OK is stored, with the size it declared, exactly when no
write and not the close has lost a byte, and the count of the bytes has not wrapped if
a size was declared. -/
theorem put_stored_iff {σ : System} {messages : List PutStreamingRequest} {o : PutOutcome}
    (hσ : Reachable cfg σ) (hput : put cfg env messages σ.shared = some (o, w')) (hok : o.IsOk) :
    ∃ (m : PutMetadata) (chunks : List Bytes) (blob : BlobReference),
      messages = .metadata m :: chunks.map .chunk ∧ o = .returned PutStatus.ok (some blob) ∧
      ((StoredAs w' m.sessionId blob.objectId chunks.flatten ∧
          ∀ n, m.blobSize = some n → chunks.flatten.length = n) ↔
        Lossless env.writes env.closes 0 0 chunks ∧
          (m.blobSize ≠ none → chunks.flatten.length < 2^64)) := by
  obtain ⟨m, chunks, blob, hmessages, ho, hid, hup, hsize⟩ := put_ok_exit hσ.world hσ.1 hput hok
  refine ⟨m, chunks, blob, hmessages, ho, ?_⟩
  rw [hid, hup.storedAs_iff]
  refine and_congr_right fun _ => ?_
  cases hm : m.blobSize with
  | none => simp
  | some n =>
    have hn : n = chunks.flatten.length % 2^64 := by
      rw [hsize n hm, totalLength_eq]
    constructor
    · intro h _
      have hlen := h n rfl
      have hlt : chunks.flatten.length % 2^64 < 2^64 := Nat.mod_lt _ (by norm_num)
      omega
    · intro h n' hn'
      cases hn'
      have hlt := h (Option.some_ne_none _)
      rw [hn, Nat.mod_eq_of_lt hlt]

theorem ok_without_content : ¬ ∀ (cfg : Config) (env : PutEnv) (σ : System)
    (m : PutMetadata) (chunks : List Bytes) (blob : BlobReference) (w' : World),
    Reachable cfg σ →
    put cfg env (.metadata m :: chunks.map .chunk) σ.shared =
      some (.returned PutStatus.ok (some blob), w') →
    StoredAs w' m.sessionId blob.objectId chunks.flatten ∧
      ∀ n, m.blobSize = some n → chunks.flatten.length = n := by
  intro h
  obtain ⟨⟨o, w'⟩, hput, hend⟩ := (Option.any_eq_true
    (fun r : PutOutcome × World => r.1 == .returned PutStatus.ok (some ⟨0, 1, 257⟩) &&
      r.2.manager.pathOf 1 1 == some ["store", "upload_1"] &&
      r.2.files.contents ["store", "upload_1"] == some [1]) _).mp
    (by decide : (put smallConfig fullDisk
      (.metadata ⟨1, 1, some 3⟩ :: [[1, 2, 3]].map .chunk) (oneSession none).shared).any _ = true)
  simp only [Bool.and_eq_true, beq_iff_eq] at hend
  obtain ⟨⟨rfl, hpath⟩, hfile⟩ := hend
  obtain ⟨⟨path, hp, hc⟩, _⟩ := h smallConfig fullDisk (oneSession none) ⟨1, 1, some 3⟩ [[1, 2, 3]]
    _ w' (oneSession_reachable none) hput
  cases hpath.symm.trans hp
  cases hfile.symm.trans hc

/-- The close fails, after everything has reached the disk. -/
def lateFailure : PutEnv := {PutEnv.calm with closes := some 3}

theorem put_stored_lateFailure : ∃ (m : PutMetadata) (chunks : List Bytes)
    (blob : BlobReference) (w' : World),
    put smallConfig lateFailure (.metadata m :: chunks.map .chunk) (oneSession none).shared =
      some (.returned PutStatus.ok (some blob), w') ∧
    StoredAs w' m.sessionId blob.objectId chunks.flatten := by
  obtain ⟨⟨o, w'⟩, hput, hend⟩ := (Option.any_eq_true
    (fun r : PutOutcome × World => decide r.1.IsOk) _).mp
    (by decide : (put smallConfig lateFailure
      [.metadata ⟨1, 1, some 3⟩, .chunk [1, 2], .chunk [3]] (oneSession none).shared).any _ = true)
  obtain ⟨m, chunks, blob, hmessages, rfl, hiff⟩ :=
    put_stored_iff (oneSession_reachable none) hput (of_decide_eq_true hend)
  rw [hmessages] at hput
  refine ⟨m, chunks, blob, w', hput, (hiff.mpr ?_).1⟩
  obtain ⟨hm, hchunks⟩ := List.cons.inj hmessages
  have hcut : chunks = [[1, 2], [3]] := by
    have htail : [[1, 2], [3]].map PutStreamingRequest.chunk = chunks.map .chunk := hchunks
    exact (List.map_injective_iff.mpr (fun _ _ h => PutStreamingRequest.chunk.inj h) htail).symm
  subst hcut
  refine ⟨?_, fun _ => by decide⟩
  intro kept hkept
  cases hkept
  decide

end BlobRelay
