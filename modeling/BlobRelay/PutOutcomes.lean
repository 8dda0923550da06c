import BlobRelay.Grammar
import BlobRelay.ServedUploads

/-! # How a `Put` can end, whatever runs beside it

Other calls decide when the quota refuses and whether the entry is still there; which
messages were read by then, and what the answer says, follows from the messages alone. -/

namespace BlobRelay
open Foundation Foundation.FileStore

/-- The upload `u` has been asked for by these messages, of which it has taken `chunks`
and not yet `rest`. -/
def Asked (messages : List PutStreamingRequest) (u : Upload) (chunks : List Bytes)
    (rest : List PutStreamingRequest) : Prop :=
  ∃ m : PutMetadata, checkApiVersion m.apiVersion = true ∧ u.session = m.sessionId ∧
    u.blobSizeOpt = m.blobSize ∧ messages = .metadata m :: (chunks.map .chunk ++ rest)

/-- The ends of a `Put`: the upload that was begun, if any, and the outcome. -/
inductive PutEnded (cfg : Config) (messages : List PutStreamingRequest) :
    Option Upload → PutOutcome → Prop
  | noRequest : messages = [] → PutEnded cfg messages none (.returned PutStatus.noRequest none)
  | notMetadata {first : PutStreamingRequest} {rest : List PutStreamingRequest} :
      messages = first :: rest → (∀ m, first ≠ .metadata m) →
      PutEnded cfg messages none (.returned PutStatus.notMetadata none)
  | apiVersion {m : PutMetadata} {rest : List PutStreamingRequest} :
      messages = .metadata m :: rest → checkApiVersion m.apiVersion = false →
      PutEnded cfg messages none (.returned (PutStatus.apiVersion m.apiVersion) none)
  | noSession {m : PutMetadata} {rest : List PutStreamingRequest} :
      messages = .metadata m :: rest → checkApiVersion m.apiVersion = true →
      PutEnded cfg messages none (putCatch noSession)
  | cannotOpen {u : Upload} {rest : List PutStreamingRequest} : Asked messages u [] rest →
      PutEnded cfg messages (some u) (.returned PutStatus.cannotOpen none)
  | notChunk {u : Upload} {chunks : List Bytes} {m : PutStreamingRequest}
      {rest : List PutStreamingRequest} : Asked messages u chunks (m :: rest) →
      m.isChunk = false → PutEnded cfg messages (some u) (.returned PutStatus.notChunk none)
  | exhausted {u : Upload} {chunks : List Bytes} {bytes : Bytes}
      {rest : List PutStreamingRequest} : Asked messages u chunks (.chunk bytes :: rest) →
      cfg.quota ≠ 0 → PutEnded cfg messages (some u) (.returned PutStatus.exhausted none)
  | exhaustedThrows {u : Upload} {chunks : List Bytes} {bytes : Bytes}
      {rest : List PutStreamingRequest} {what : String} :
      Asked messages u chunks (.chunk bytes :: rest) → cfg.quota ≠ 0 →
      PutEnded cfg messages (some u) (.thrown (.filesystemError what))
  /-- The entry was removed while the upload went on. -/
  | removed {u : Upload} {chunks : List Bytes} {bytes : Bytes}
      {rest : List PutStreamingRequest} : Asked messages u chunks (.chunk bytes :: rest) →
      PutEnded cfg messages (some u) (putCatch .mapAt)
  | mismatch {u : Upload} {chunks : List Bytes} {n : ℕ} : Asked messages u chunks [] →
      u.blobSizeOpt = some n → n ≠ totalLength chunks % 2^64 →
      PutEnded cfg messages (some u) (.returned PutStatus.sizeMismatch none)
  | mismatchThrows {u : Upload} {chunks : List Bytes} {n : ℕ} : Asked messages u chunks [] →
      u.blobSizeOpt = some n → n ≠ totalLength chunks % 2^64 →
      PutEnded cfg messages (some u) (.thrown (.filesystemError "remove"))
  | answered {u : Upload} {chunks : List Bytes} : Asked messages u chunks [] →
      (∀ n, u.blobSizeOpt = some n → n = totalLength chunks % 2^64) →
      PutEnded cfg messages (some u) (putResponse cfg u.session u.blobId)

/-- What the local variables of a `Put` say about the messages. -/
def Tracks (cfg : Config) (messages : List PutStreamingRequest) : PutPc → Prop
  | .called => True
  | .located s blobSizeOpt rest => ∃ v, checkApiVersion v = true ∧
      messages = .metadata ⟨v, s, blobSizeOpt⟩ :: rest
  | .created u rest => Asked messages u [] rest
  | .receiving u _ totalSize rest => ∃ chunks, Asked messages u chunks rest ∧
      totalSize = totalLength chunks % 2^64
  | .exhausted u => cfg.quota ≠ 0 ∧ ∃ chunks bytes rest, Asked messages u chunks (.chunk bytes :: rest)
  | .received u totalSize => ∃ chunks, Asked messages u chunks [] ∧
      totalSize = totalLength chunks % 2^64
  | .tagging u => ∃ chunks, Asked messages u chunks [] ∧
      ∀ n, u.blobSizeOpt = some n → n = totalLength chunks % 2^64
  | .finished u o => PutEnded cfg messages u o

variable {cfg : Config} {f : Fault} {messages : List PutStreamingRequest} {w w' : World}
  {pc pc' : PutPc} {u : Upload} {o : PutOutcome}

theorem Asked.next {chunks : List Bytes} {bytes : Bytes} {rest : List PutStreamingRequest}
    (h : Asked messages u chunks (.chunk bytes :: rest)) :
    Asked messages u (chunks ++ [bytes]) rest := by
  obtain ⟨m, hv, hs, hsize, hmessages⟩ := h
  refine ⟨m, hv, hs, hsize, ?_⟩
  rw [hmessages, List.map_append, List.map_singleton, List.append_assoc, List.singleton_append]

theorem add64_totalLength (chunks : List Bytes) (bytes : Bytes) :
    add64 (totalLength chunks % 2^64) bytes.length = totalLength (chunks ++ [bytes]) % 2^64 := by
  rw [totalLength_eq, totalLength_eq, List.flatten_append, List.flatten_singleton,
    List.length_append, add64, Nat.mod_add_mod]

theorem quota_of_refused {s b size : ℕ}
    (h : w.reserveSessionStore cfg s b size = some (.ok false, w')) : cfg.quota ≠ 0 := by
  rcases World.reserveSessionStore_cases h with ⟨_, _, _, hrefused⟩ | ⟨_, hok, _⟩ | ⟨herr, _⟩
  · intro hq
    unfold reserve at hrefused
    rw [if_neg (not_not.mpr hq)] at hrefused
    cases hrefused
  · cases hok
  · cases herr

theorem mapAt_of_error {s b size : ℕ} {e : Exn}
    (h : w.reserveSessionStore cfg s b size = some (.error e, w')) : e = .mapAt := by
  rcases World.reserveSessionStore_cases h with ⟨hr, _⟩ | ⟨_, hr, _⟩ | ⟨hr, _⟩
  · cases hr
  · cases hr
  · exact Except.error.inj hr

theorem filesystemError_of_deleteBlobFile {s b : ℕ} {d : DeleteResult} {e : Exn}
    (h : w.deleteBlobFile cfg s b d = some (.error e, w')) : ∃ what, e = .filesystemError what := by
  obtain ⟨impl, _, he⟩ := Option.map_eq_some_iff.mp h
  split at he
  · cases he
  · dsimp only at he
    split at he
    · cases he
      exact ⟨"status", rfl⟩
    · cases he
      exact ⟨"remove", rfl⟩
    · cases he
    · cases he

theorem tracks_called (h : putStep cfg f messages w .called = some (w', pc')) :
    Tracks cfg messages pc' := by
  cases messages with
  | nil =>
    cases h
    exact .noRequest rfl
  | cons first rest =>
    cases first with
    | chunk bytes =>
      cases h
      exact .notMetadata rfl nofun
    | unset =>
      cases h
      exact .notMetadata rfl nofun
    | metadata m =>
      dsimp only [putStep] at h
      split at h
      · rename_i hv
        split at h
        · rename_i e he
          cases h
          obtain ⟨rfl, _⟩ := BlobSessionManager.getSessionImpl_error he
          exact .noSession rfl hv
        · cases h
          exact ⟨m.apiVersion, hv, rfl⟩
      · rename_i hv
        cases h
        exact .apiVersion rfl (Bool.not_eq_true _ ▸ hv)

theorem tracks_chunk {out : OutStream} {n : ℕ} {bytes : Bytes} {rest : List PutStreamingRequest}
    (h : putStep cfg f messages w (.receiving u out n (.chunk bytes :: rest)) = some (w', pc'))
    (hpc : Tracks cfg messages (.receiving u out n (.chunk bytes :: rest))) :
    Tracks cfg messages pc' := by
  obtain ⟨chunks, hasked, rfl⟩ := hpc
  dsimp only [putStep] at h
  split at h
  · cases h
  · rename_i e w₁ hr
    cases h
    obtain rfl := mapAt_of_error hr
    exact .removed hasked
  · rename_i w₁ hr
    cases h
    exact ⟨quota_of_refused hr, chunks, bytes, rest, hasked⟩
  · cases h
    exact ⟨chunks ++ [bytes], hasked.next, add64_totalLength chunks bytes⟩

theorem tracks_step (h : putStep cfg f messages w pc = some (w', pc'))
    (hpc : Tracks cfg messages pc) : Tracks cfg messages pc' := by
  cases pc with
  | called => exact tracks_called h
  | located s blobSizeOpt rest =>
    obtain ⟨v, hv, hmessages⟩ := hpc
    dsimp only [putStep] at h
    split at h
    · cases h
    · cases h
      exact ⟨⟨v, s, blobSizeOpt⟩, hv, rfl, rfl, hmessages⟩
  | created u rest =>
    dsimp only [putStep] at h
    split at h
    · cases h
      exact .cannotOpen hpc
    · cases h
      exact ⟨[], hpc, rfl⟩
  | receiving u out n rest =>
    cases rest with
    | nil =>
      cases h
      exact hpc
    | cons first rest =>
      cases first with
      | chunk bytes => exact tracks_chunk h hpc
      | metadata m =>
        obtain ⟨chunks, hasked, _⟩ := hpc
        cases h
        exact .notChunk hasked rfl
      | unset =>
        obtain ⟨chunks, hasked, _⟩ := hpc
        cases h
        exact .notChunk hasked rfl
  | exhausted u =>
    obtain ⟨hq, chunks, bytes, rest, hasked⟩ := hpc
    dsimp only [putStep] at h
    split at h
    · cases h
    · rename_i e w₁ hd
      cases h
      obtain ⟨what, rfl⟩ := filesystemError_of_deleteBlobFile hd
      exact .exhaustedThrows hasked hq
    · cases h
      exact .exhausted hasked hq
  | received u n =>
    obtain ⟨chunks, hasked, rfl⟩ := hpc
    dsimp only [putStep] at h
    split at h
    · rename_i hsize
      obtain ⟨n, hn, hne⟩ := sizeMismatches_iff.mp hsize
      split at h
      · cases h
        exact .mismatchThrows hasked hn hne
      · cases h
        exact .mismatch hasked hn hne
    · rename_i hsize
      cases h
      refine ⟨chunks, hasked, fun n hn => ?_⟩
      by_contra hne
      exact hsize (sizeMismatches_iff.mpr ⟨n, hn, hne⟩)
  | tagging u =>
    obtain ⟨chunks, hasked, hsize⟩ := hpc
    obtain ⟨impl, _, he⟩ := Option.map_eq_some_iff.mp h
    cases he
    exact .answered hasked hsize
  | finished u o => cases h

/-- In every run every upload is where its messages say. -/
theorem tracks_run {ok : System → SystemMove → Prop} {σ₀ σ : System} {ls : List SystemMove}
    (h₀ : σ₀.threads = []) (hrun : Run (systemStep cfg) ok σ₀ ls σ) {i : ℕ}
    (hi : σ.threads[i]? = some (.put messages pc)) : Tracks cfg messages pc := by
  refine Pool.run_threads (I := fun t => ∀ messages pc, t = .put messages pc → Tracks cfg messages pc)
    ?_ ?_ hrun ?_ _ (List.mem_of_getElem? hi) messages pc rfl
  · intro c messages pc heq
    cases c <;> cases heq
    trivial
  · rintro f w t w' t' hst ht messages pc rfl
    cases t with
    | put messages' pc₀ =>
      obtain ⟨r, hput, heq⟩ := Option.map_eq_some_iff.mp hst
      cases congrArg Prod.snd heq
      exact tracks_step hput (ht _ pc₀ rfl)
    | get request pc₀ =>
      obtain ⟨_, pc', heq, _⟩ := handlerStep_get hst
      cases heq
    | remove s ids pc₀ =>
      obtain ⟨⟨pc', heq⟩, _⟩ := handlerStep_remove hst
      cases heq
    | dispose s pc₀ =>
      obtain ⟨⟨pc', heq⟩, _⟩ := handlerStep_dispose hst
      cases heq
  · intro t ht
    rw [h₀] at ht
    cases ht

/-- What an upload that returned OK was asked, and what it answered. -/
def Answered (cfg : Config) (messages : List PutStreamingRequest) (u : Option Upload)
    (o : PutOutcome) : Prop :=
  ∃ (v : Upload) (m : PutMetadata) (chunks : List Bytes) (tag : BlobTag), u = some v ∧
    m.apiVersion ≤ blobRelayApiVersion ∧ messages = .metadata m :: chunks.map .chunk ∧
    (∀ n, m.blobSize = some n → n = totalLength chunks % 2^64) ∧ v.session = m.sessionId ∧
    BlobSessionImpl.computeTag cfg v.session v.blobId = .ok tag ∧
    o = .returned PutStatus.ok (some ⟨sessionStorageId, v.blobId, tag⟩)

theorem PutEnded.answer {u : Option Upload} (h : PutEnded cfg messages u o) (hok : o.IsOk) :
    Answered cfg messages u o := by
  cases h with
  | @answered u chunks hasked hsize =>
    obtain ⟨m, hv, hs, hblob, hmessages⟩ := hasked
    obtain ⟨tag, htag, hr⟩ | ⟨x, hr⟩ := putResponse_cases cfg u.session u.blobId
    · rw [List.append_nil] at hmessages
      exact ⟨u, m, chunks, tag, rfl, checkApiVersion_iff.mp hv, hmessages, hblob ▸ hsize, hs, htag,
        hr⟩
    · rw [hr] at hok
      cases hok
  | _ => cases hok

/-- In every run, whatever runs beside it: a `Put` ends in one of the listed ways, and when
it returns OK it was sent metadata of a supported version and then nothing but chunks, of
the announced length together, and it hands out the blob id it registered in that session
with the tag of that id and session. -/
theorem put_outcomes {ok : System → SystemMove → Prop} {σ₀ σ : System} {ls : List SystemMove}
    {i : ℕ} {u : Option Upload} (h₀ : σ₀.threads = []) (hrun : Run (systemStep cfg) ok σ₀ ls σ)
    (hi : σ.threads[i]? = some (.put messages (.finished u o))) :
    PutEnded cfg messages u o ∧ (o.IsOk → Answered cfg messages u o) :=
  ⟨tracks_run h₀ hrun hi, (tracks_run h₀ hrun hi).answer⟩

/-- The blob is removed between the two chunks of its upload. -/
def removedWhileUploading : List SystemMove :=
  [.env (.createSession none), .call (.put [.metadata ⟨1, 1, none⟩, .chunk [1, 2], .chunk [3]])] ++
    List.replicate 4 (.run 0 .none) ++
    [.call (.remove 1 [1]), .run 1 .none, .run 1 .none, .run 0 .none]

theorem put_outcomes_removed : ∃ (σ : System) (u : Upload),
    runs smallConfig removedWhileUploading smallStart = some σ ∧
    PutEnded smallConfig [.metadata ⟨1, 1, none⟩, .chunk [1, 2], .chunk [3]] (some u)
      (putCatch .mapAt) := by
  let u : Upload := ⟨1, 1, uploadPath smallConfig 1, none⟩
  obtain ⟨σ, hσ, hend⟩ := (Option.any_eq_true
    (fun σ : System => σ.threads[0]?.bind Handler.uploading ==
      some ([.metadata ⟨1, 1, none⟩, .chunk [1, 2], .chunk [3]],
        .finished (some u) (putCatch .mapAt))) _).mp
    (by decide : (runs smallConfig removedWhileUploading smallStart).any _ = true)
  have hrun : Run (systemStep smallConfig) (fun σ _ => Headroom σ.shared) smallStart
      removedWhileUploading σ := .of_exec hσ fun _ _ _ hc => of_decide_eq_true hc
  exact ⟨σ, u, hσ, (put_outcomes rfl hrun (eq_put_of_uploading (beq_iff_eq.mp hend))).1⟩

end BlobRelay
