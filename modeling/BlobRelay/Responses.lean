import BlobRelay.DownloadStream

/-! # The messages of a download

`Get` writes to its stream in two places: the size before it opens the file, a chunk
after each read that returned something. Whatever happens to the file meanwhile, the
client reads one metadata message and then chunks, and no chunk when the call fails. -/

namespace BlobRelay
open Foundation Foundation.FileStore

/-- The size once, then chunks that are neither empty nor longer than
`stream_chunk_size`, of which only the last is shorter. -/
def Framed (cfg : Config) (written : List GetStreamingResponse) : Prop :=
  ∃ (size : ℕ) (chunks : List Bytes), written = .metadata (some size) :: chunks.map .chunk ∧
    (∀ c ∈ chunks, c ≠ [] ∧ c.length ≤ cfg.streamChunkSize) ∧
    ∀ c ∈ chunks.dropLast, c.length = cfg.streamChunkSize

/-- Nothing, or the size and nothing after it. -/
def NoChunk (written : List GetStreamingResponse) : Prop :=
  written = [] ∨ ∃ size : ℕ, written = [.metadata (some size)]

/-- The stream over the file is good until a read comes back short. -/
def Responding (cfg : Config) : GetPc → Prop
  | .opening _ written => ∃ size : ℕ, written = [.metadata (some size)]
  | .reading ins written => ∃ (size : ℕ) (chunks : List Bytes),
      written = .metadata (some size) :: chunks.map .chunk ∧
        (∀ c ∈ chunks, c ≠ [] ∧ c.length ≤ cfg.streamChunkSize) ∧
        (∀ c ∈ chunks.dropLast, c.length = cfg.streamChunkSize) ∧
        (ins.good = true → ∀ c ∈ chunks, c.length = cfg.streamChunkSize)
  | .finished o written => (o.IsOk → Framed cfg written) ∧ (¬ o.IsOk → NoChunk written)
  | _ => True

variable {cfg : Config} {f : Fault} {request : GetStreamingRequest} {w : World} {pc pc' : GetPc}

/-- An exit before anything was written. -/
theorem responding_refused {o : GetOutcome} (ho : ¬ o.IsOk) : Responding cfg (.finished o []) :=
  ⟨fun hok => absurd hok ho, fun _ => Or.inl rfl⟩

theorem responding_ofExcept {α : Type} {next : α → GetPc} {x : Except GetExit α} (hx : Fails x)
    (hnext : ∀ a, Responding cfg (next a)) : Responding cfg (.ofExcept next x) := by
  cases x with
  | ok a => exact hnext a
  | error e => exact responding_refused (getExit_not_ok (hx e rfl))

theorem responding_afterTag (path : Path) {expected : Except GetExit BlobTag}
    (h : Fails expected) : Responding cfg (.afterTag cfg request path expected) :=
  responding_ofExcept (h.bind fun tag => fails_checkTag tag _) fun _ => trivial

theorem InStream.good_read {ins : InStream} {n : ℕ} {fs : Files} (h : (ins.read n fs).1 ≠ []) :
    (ins.read n fs).1.length ≤ n ∧
      ((ins.read n fs).2.good = true → (ins.read n fs).1.length = n) := by
  have hgood := InStream.read_good_of_ne_nil h
  obtain ⟨_ | i, pos, good⟩ := ins
  · exact absurd rfl h
  · cases hgood
    rw [read_good] at h ⊢
    exact ⟨List.length_take_le _ _, beq_iff_eq.mp⟩

theorem responding_read {ins : InStream} {written : List GetStreamingResponse}
    (hne : (ins.read cfg.streamChunkSize w.files).1 ≠ [])
    (h : Responding cfg (.reading ins written)) :
    Responding cfg (.reading (ins.read cfg.streamChunkSize w.files).2
      (written ++ [.chunk (ins.read cfg.streamChunkSize w.files).1])) := by
  obtain ⟨size, chunks, rfl, hbounded, _, hgood⟩ := h
  obtain ⟨hle, hfull⟩ := InStream.good_read hne
  have hold : ∀ c ∈ chunks, c.length = cfg.streamChunkSize :=
    hgood (InStream.read_good_of_ne_nil hne)
  refine ⟨size, chunks ++ [(ins.read cfg.streamChunkSize w.files).1], ?_, ?_, ?_, ?_⟩
  · rw [List.map_append, List.map_singleton, List.cons_append]
  · intro c hc
    rcases List.mem_append.mp hc with hc | hc
    · exact hbounded c hc
    · rw [List.mem_singleton.mp hc]
      exact ⟨hne, hle⟩
  · intro c hc
    rw [List.dropLast_concat] at hc
    exact hold c hc
  · intro hstill c hc
    rcases List.mem_append.mp hc with hc | hc
    · exact hold c hc
    · rw [List.mem_singleton.mp hc]
      exact hfull hstill

theorem responding_step (h : getPcStep cfg f request w pc = some pc') (hpc : Responding cfg pc) :
    Responding cfg pc' := by
  have hcaught : ∀ e, ¬ (getCatch e).IsOk := getCatch_not_ok
  cases pc with
  | called =>
    dsimp only [getPcStep] at h
    split at h
    · cases h
      refine responding_ofExcept (fails_readContext _ _) fun ctx => ?_
      unfold GetPc.afterContext
      split <;> trivial
    · cases h
      exact responding_refused nofun
  | ownerLookup ctx t =>
    cases h
    exact responding_ofExcept (fails_raising _) fun _ => trivial
  | ownerHeld ctx t =>
    obtain ⟨impl, _, rfl⟩ := Option.map_eq_some_iff.mp h
    exact responding_ofExcept (fails_ownerCheck _ t) fun _ => trivial
  | resolving ctx =>
    dsimp only [getPcStep] at h
    split at h
    · split at h
      · cases h
        exact responding_refused nofun
      · cases h
        exact responding_ofExcept (fails_raising _) fun _ => trivial
    · split at h
      · cases h
        exact responding_ofExcept (fails_limestonePath _ _) fun _ => trivial
      · cases h
        exact responding_refused nofun
  | findHeld ctx =>
    obtain ⟨impl, _, rfl⟩ := Option.map_eq_some_iff.mp h
    exact responding_ofExcept (fails_foundPath _) fun _ => trivial
  | tagging ctx path =>
    dsimp only [getPcStep] at h
    split at h
    · cases h
      exact responding_afterTag path (fails_raising _)
    · cases h
      exact responding_ofExcept (fails_raising _) fun _ => trivial
  | tagHeld ctx path =>
    obtain ⟨impl, _, rfl⟩ := Option.map_eq_some_iff.mp h
    exact responding_afterTag path (fails_raising _)
  | authorised path =>
    dsimp only [getPcStep] at h
    split at h
    · cases h
      exact responding_refused (hcaught _)
    · split at h
      · cases h
        trivial
      · cases h
        exact responding_refused nofun
  | sizing path =>
    dsimp only [getPcStep] at h
    split at h
    · cases h
      exact responding_refused (hcaught _)
    · cases h
      exact ⟨_, rfl⟩
  | opening path written =>
    obtain ⟨size, rfl⟩ := hpc
    dsimp only [getPcStep] at h
    split at h
    · cases h
      exact ⟨fun hok => absurd hok (hcaught _), fun _ => Or.inr ⟨size, rfl⟩⟩
    · cases h
      exact ⟨size, [], rfl, nofun, nofun, nofun⟩
  | reading ins written =>
    dsimp only [getPcStep] at h
    split at h
    · cases h
      obtain ⟨size, chunks, hwritten, hbounded, hfull, _⟩ := hpc
      exact ⟨fun _ => ⟨size, chunks, hwritten, hbounded, hfull⟩, fun hbad => absurd rfl hbad⟩
    · rename_i hne
      cases h
      exact responding_read hne hpc
  | finished o written => cases h

/-- In every run every download is well framed so far. -/
theorem responding_run {ok : System → SystemMove → Prop} {σ₀ σ : System} {ls : List SystemMove}
    (h₀ : σ₀.threads = []) (hrun : Run (systemStep cfg) ok σ₀ ls σ) {i : ℕ}
    (hi : σ.threads[i]? = some (.get request pc)) : Responding cfg pc := by
  refine Pool.run_threads (I := fun t => ∀ request pc, t = .get request pc → Responding cfg pc)
    ?_ ?_ hrun ?_ _ (List.mem_of_getElem? hi) request pc rfl
  · intro c request pc heq
    cases c <;> cases heq
    trivial
  · rintro f w t w' t' hst ht request pc rfl
    cases t with
    | get request' pc₀ =>
      obtain ⟨pc', hget, heq⟩ := Option.map_eq_some_iff.mp hst
      cases congrArg Prod.snd heq
      exact responding_step hget (ht _ pc₀ rfl)
    | put messages pc₀ =>
      obtain ⟨pc', heq, _⟩ := handlerStep_put hst
      cases heq
    | remove s ids pc₀ =>
      obtain ⟨⟨pc', heq⟩, _⟩ := handlerStep_remove hst
      cases heq
    | dispose s pc₀ =>
      obtain ⟨⟨pc', heq⟩, _⟩ := handlerStep_dispose hst
      cases heq
  · intro t ht
    rw [h₀] at ht
    cases ht

/-- In every run, whatever becomes of the file meanwhile: a `Get` that returns OK has
written the size and then chunks of `stream_chunk_size`, the last of at most that and none
of them empty; one that does not return OK has written no chunk. -/
theorem get_grammar {ok : System → SystemMove → Prop} {σ₀ σ : System} {ls : List SystemMove}
    {i : ℕ} {o : GetOutcome} {written : List GetStreamingResponse} (h₀ : σ₀.threads = [])
    (hrun : Run (systemStep cfg) ok σ₀ ls σ)
    (hi : σ.threads[i]? = some (.get request (.finished o written))) :
    (o.IsOk → Framed cfg written) ∧ (¬ o.IsOk → NoChunk written) :=
  responding_run h₀ hrun hi

/-- The download of one upload runs beside another upload. -/
def besideUpload : List SystemMove :=
  untilLookup 8 ++ .call (.put twoChunks) :: (List.replicate 8 [.run 1 .none, .run 2 .none]).flatten ++
    [.run 1 .none]

theorem get_grammar_besideUpload : ∃ (σ : System) (written : List GetStreamingResponse),
    runs smallConfig besideUpload smallStart = some σ ∧
    σ.threads[1]? = some (.get downloadRequest (.finished (.returned GetStatus.ok) written)) ∧
    written = [.metadata (some 4), .chunk [1, 2], .chunk [3, 4]] ∧ Framed smallConfig written := by
  obtain ⟨σ, hσ, hend⟩ := (Option.any_eq_true
    (fun σ : System => σ.threads[1]?.bind Handler.download ==
      some (downloadRequest, .finished (.returned GetStatus.ok)
        [.metadata (some 4), .chunk [1, 2], .chunk [3, 4]])) _).mp
    (by decide : (runs smallConfig besideUpload smallStart).any _ = true)
  have hget := eq_get_of_download (beq_iff_eq.mp hend)
  have hrun : Run (systemStep smallConfig) (fun σ _ => Headroom σ.shared) smallStart besideUpload σ :=
    .of_exec hσ fun _ _ _ hc => of_decide_eq_true hc
  exact ⟨σ, _, hσ, hget, rfl, (get_grammar rfl hrun hget).1 rfl⟩

end BlobRelay
