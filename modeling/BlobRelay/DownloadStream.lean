import BlobRelay.Foundation.Chunks
import BlobRelay.ServedUploads

/-! # What a download sends of a file

Once access is granted `Get` asks whether the file exists, asks its size, opens it and
reads it, in steps of their own. While nobody touches the file it is sent whole, in
pieces of `stream_chunk_size`; when it goes in between, or does not open, the stream
that failed to open reads as an empty file. -/

namespace BlobRelay
open Foundation Foundation.FileStore

/-- A file sent whole: its size, then its content in pieces of `stream_chunk_size`. -/
def SentWhole (cfg : Config) (bytes : Bytes) (o : GetOutcome) (written : List GetStreamingResponse) :
    Prop :=
  o = .returned GetStatus.ok ∧ ∃ chunks : List Bytes,
    written = .metadata (some bytes.length) :: chunks.map .chunk ∧
      Pieces cfg.streamChunkSize bytes chunks

/-- The download past the tag check, of the file with inode `k` at `path`. -/
def Sending (cfg : Config) (k : ℕ) (path : Path) (bytes : Bytes) : GetPc → Prop
  | .authorised p => p = path
  | .sizing p => p = path
  | .opening p written => p = path ∧ written = [.metadata (some bytes.length)]
  | .reading ins written => ins.ino = some k ∧ ∃ sent : List Bytes,
      written = .metadata (some bytes.length) :: sent.map .chunk ∧
        Progress cfg.streamChunkSize bytes ins sent
  | .finished o written => SentWhole cfg bytes o written
  | _ => False

/-- Steps that the download has left at most; each read that is not the last takes a byte. -/
def stepsLeft (bytes : Bytes) : GetPc → ℕ
  | .authorised _ => bytes.length + 4
  | .sizing _ => bytes.length + 3
  | .opening _ _ => bytes.length + 2
  | .reading ins _ => bytes.length - ins.pos + 1
  | _ => 0

def GetPc.ended : GetPc → Bool
  | .finished _ _ => true
  | _ => false

/-- The file is there, with this content, and no call that the step makes to look at it,
to open it or to allocate the buffer fails. -/
def Undisturbed (i k : ℕ) (path : Path) (bytes : Bytes) (σ : System) (l : SystemMove) : Prop :=
  σ.shared.files.names path = some (.regular k) ∧ σ.shared.files.data k = bytes ∧
    ∀ f, l = .run i f → f.SparesGet

variable {cfg : Config} {f : Fault} {request : GetStreamingRequest} {w w' : World} {k i : ℕ}
  {path : Path} {bytes : Bytes} {pc pc' : GetPc} {o : GetOutcome}
  {written : List GetStreamingResponse}

/-! ### An undisturbed download -/

theorem sending_step (hcut : 1 ≤ cfg.streamChunkSize ∨ bytes = [])
    (hname : w.files.names path = some (.regular k)) (hdata : w.files.data k = bytes)
    (hf : f.SparesGet) (hpc : Sending cfg k path bytes pc)
    (hmore : pc.ended = false) :
    ∃ pc', getPcStep cfg f request w pc = some pc' ∧ Sending cfg k path bytes pc' ∧
      stepsLeft bytes pc' < stepsLeft bytes pc := by
  have hfile : w.files.contents path = some bytes := by
    rw [FileSystem.contents_of_regular hname, hdata]
  cases pc with
  | authorised p =>
    obtain rfl : p = path := hpc
    have hpresent := FileSystem.present_of_contents hfile
    refine ⟨.sizing p, ?_, rfl, Nat.lt_succ_self _⟩
    simp only [getPcStep, if_neg hf.looks, hpresent, if_true]
  | sizing p =>
    obtain rfl : p = path := hpc
    have hsize : w.files.fileSize p = some bytes.length := by
      rw [FileSystem.fileSize, hfile, Option.map_some]
    refine ⟨.opening p [.metadata (some bytes.length)], ?_, ⟨rfl, rfl⟩, Nat.lt_succ_self _⟩
    simp only [getPcStep, if_neg hf.size, hsize]
  | opening p written =>
    obtain ⟨rfl, rfl⟩ := hpc
    have hopen : openRead w.files (f ≠ .openFails) p = ⟨some k, 0, true⟩ := by
      rw [decide_eq_true hf.opens]
      simp only [openRead, hname]
    refine ⟨.reading ⟨some k, 0, true⟩ [.metadata (some bytes.length)], ?_,
      ⟨rfl, [], rfl, .start _ _ _⟩, ?_⟩
    · simp only [getPcStep, if_neg hf.alloc, hopen]
    · show bytes.length - 0 + 1 < bytes.length + 2
      omega
  | reading ins written =>
    obtain ⟨hino, sent, rfl, hprogress⟩ := hpc
    by_cases hread : (ins.read cfg.streamChunkSize w.files).1 = []
    · refine ⟨.finished (.returned GetStatus.ok) (.metadata (some bytes.length) :: sent.map .chunk),
        ?_, ⟨rfl, sent, rfl, hprogress.done hcut hino hdata hread⟩, Nat.succ_pos _⟩
      simp only [getPcStep, if_pos hread]
    · obtain ⟨hino', hpos, hnext⟩ := hprogress.more hino hdata hread
      refine ⟨.reading (ins.read cfg.streamChunkSize w.files).2 (.metadata (some bytes.length) ::
        (sent ++ [(ins.read cfg.streamChunkSize w.files).1]).map .chunk), ?_,
        ⟨hino', _, rfl, hnext⟩, ?_⟩
      · simp only [getPcStep, if_neg hread, List.map_append, List.map_singleton, List.cons_append]
      · have hle := hnext.pos
        show bytes.length - _ + 1 < bytes.length - ins.pos + 1
        omega
  | finished o written => cases hmore
  | _ => cases hpc

theorem sending_run {σ σ' : System} {ls : List SystemMove}
    (hcut : 1 ≤ cfg.streamChunkSize ∨ bytes = [])
    (hrun : Run (systemStep cfg) (Undisturbed i k path bytes) σ ls σ')
    (hi : σ.threads[i]? = some (.get request pc)) (hpc : Sending cfg k path bytes pc) :
    ∃ pc', σ'.threads[i]? = some (.get request pc') ∧ Sending cfg k path bytes pc' ∧
      ls.countP (Move.runs i) + stepsLeft bytes pc' ≤ stepsLeft bytes pc := by
  induction hrun generalizing pc with
  | nil σ => exact ⟨pc, hi, hpc, by simp⟩
  | @cons σ τ σ' l ls hok hst _ ih =>
    obtain ⟨hname, hdata, hf⟩ := hok
    rcases Pool.step_at hst hi with ⟨hother, hstays⟩ | ⟨f, t', rfl, hown, hmoved⟩
    · obtain ⟨pc', hi', hpc', hcount⟩ := ih hstays hpc
      refine ⟨pc', hi', hpc', ?_⟩
      rwa [List.countP_cons_of_neg (by simp [hother])]
    · obtain ⟨_, pc₁, rfl, _⟩ := handlerStep_get hown
      have hmore : pc.ended = false := by
        cases pc with
        | finished o written => cases hown
        | _ => rfl
      obtain ⟨pc₂, hstep, hpc₂, hlt⟩ :=
        @sending_step cfg f request σ.shared k path bytes pc hcut hname hdata (hf f rfl) hpc hmore
      obtain rfl : pc₂ = pc₁ := by
        simp only [handlerStep, hstep, Option.map_some, Option.some.injEq, Prod.mk.injEq,
          Handler.get.injEq, true_and] at hown
        exact hown.2
      obtain ⟨pc', hi', hpc', hcount⟩ := ih hmoved hpc₂
      refine ⟨pc', hi', hpc', ?_⟩
      rw [List.countP_cons_of_pos (by simp [Move.runs])]
      omega

/-- With reads of no bytes the download ends after the size. -/
theorem empty_reads {σ : System} (hcut : cfg.streamChunkSize = 0)
    (hi : σ.threads[i]? = some (.get request (.authorised path)))
    (hname : σ.shared.files.names path = some (.regular k))
    (hdata : σ.shared.files.data k = bytes) :
    ∃ ls σ', Run (systemStep cfg) (Undisturbed i k path bytes) σ ls σ' ∧
      σ'.threads[i]? = some (.get request
        (.finished (.returned GetStatus.ok) [.metadata (some bytes.length)])) := by
  have hfile : σ.shared.files.contents path = some bytes := by
    rw [FileSystem.contents_of_regular hname, hdata]
  have hlt : i < σ.threads.length := (List.getElem?_eq_some_iff.mp hi).1
  have hpresent : getPcStep cfg .none request σ.shared (.authorised path) = some (.sizing path) := by
    simp only [getPcStep, if_neg Fault.none_sparesGet.looks, FileSystem.present_of_contents hfile,
      if_true]
  have hsized : getPcStep cfg .none request σ.shared (.sizing path) =
      some (.opening path [.metadata (some bytes.length)]) := by
    simp only [getPcStep, if_neg Fault.none_sparesGet.size, FileSystem.fileSize, hfile,
      Option.map_some]
  have hopened : getPcStep cfg .none request σ.shared
      (.opening path [.metadata (some bytes.length)]) =
      some (.reading ⟨some k, 0, true⟩ [.metadata (some bytes.length)]) := by
    have hopen : openRead σ.shared.files (Fault.none ≠ .openFails) path = ⟨some k, 0, true⟩ := by
      rw [decide_eq_true Fault.none_sparesGet.opens]
      simp only [openRead, hname]
    simp only [getPcStep, if_neg Fault.none_sparesGet.alloc, hopen]
  have hread : getPcStep cfg .none request σ.shared
      (.reading ⟨some k, 0, true⟩ [.metadata (some bytes.length)]) =
      some (.finished (.returned GetStatus.ok) [.metadata (some bytes.length)]) := by
    simp only [getPcStep, hcut, read_good, List.take_zero, if_true]
  have hok : ∀ τ : System, τ.shared = σ.shared →
      Undisturbed i k path bytes τ (.run i .none) := by
    intro τ hτ
    rw [Undisturbed, hτ]
    exact ⟨hname, hdata, fun f hf => by cases hf; exact Fault.none_sparesGet⟩
  have hself : ∀ pc, (σ.threads.set i (.get request pc))[i]? = some (.get request pc) :=
    fun pc => List.getElem?_set_self hlt
  have hstep : ∀ {pc pc'}, getPcStep cfg .none request σ.shared pc = some pc' →
      systemStep cfg (.run i .none) ⟨σ.shared, σ.threads.set i (.get request pc)⟩ =
        some ⟨σ.shared, σ.threads.set i (.get request pc')⟩ := by
    intro pc pc' h
    have hone := @systemStep_get cfg .none request pc pc'
      ⟨σ.shared, σ.threads.set i (.get request pc)⟩ i (hself pc) h
    rwa [List.set_set] at hone
  exact ⟨_, _, .cons (hok _ rfl) (systemStep_get hi hpresent) (.cons (hok _ rfl) (hstep hsized)
    (.cons (hok _ rfl) (hstep hopened) (.cons (hok _ rfl) (hstep hread) (.nil _)))), hself _⟩

/-- However the service runs on while the file is not touched: the download takes no
more steps than this, can always take its next one, and ends by having sent the file
whole. -/
def ServesWhole (cfg : Config) (σ : System) (i : ℕ) (request : GetStreamingRequest) (k : ℕ)
    (path : Path) (bytes : Bytes) : Prop :=
  ∀ ls σ', Run (systemStep cfg) (Undisturbed i k path bytes) σ ls σ' →
    ls.countP (Move.runs i) ≤ bytes.length + 4 ∧
    ∃ pc, σ'.threads[i]? = some (.get request pc) ∧
      (pc.ended = false → Undisturbed i k path bytes σ' (.run i .none) →
        ∃ σ'', systemStep cfg (.run i .none) σ' = some σ'') ∧
      ∀ o written, pc = .finished o written → SentWhole cfg bytes o written

/-- Once access is granted, a file that opens and stays as it is is served whole: unless
it has a byte and `stream_chunk_size` is 0. -/
theorem download_faithful_iff {σ : System}
    (hi : σ.threads[i]? = some (.get request (.authorised path)))
    (hname : σ.shared.files.names path = some (.regular k))
    (hdata : σ.shared.files.data k = bytes) :
    ServesWhole cfg σ i request k path bytes ↔ 1 ≤ cfg.streamChunkSize ∨ bytes = [] := by
  constructor
  · intro h
    rcases Nat.eq_zero_or_pos cfg.streamChunkSize with hzero | hpos
    · obtain ⟨ls, σ', hrun, hend⟩ := empty_reads hzero hi hname hdata
      obtain ⟨_, pc, hpc, _, hsent⟩ := h ls σ' hrun
      cases hpc.symm.trans hend
      obtain ⟨_, chunks, hwritten, hpieces⟩ := hsent _ _ rfl
      have hnil : chunks = [] := List.map_eq_nil_iff.mp (List.cons.inj hwritten).2.symm
      right
      rw [← hpieces.whole, hnil, List.flatten_nil]
    · exact Or.inl hpos
  · intro hcut ls σ' hrun
    obtain ⟨pc, hpc, hsending, hcount⟩ := sending_run hcut hrun hi
      (rfl : Sending cfg k path bytes (.authorised path))
    have hbound : ls.countP (Move.runs i) ≤ bytes.length + 4 :=
      (Nat.le_add_right _ _).trans hcount
    refine ⟨hbound, pc, hpc, fun hmore hok => ?_, fun o written heq => ?_⟩
    · obtain ⟨pc', hstep, _⟩ :=
        @sending_step cfg .none request _ k path bytes pc hcut hok.1 hok.2.1 (hok.2.2 _ rfl)
          hsending hmore
      exact ⟨_, systemStep_get hpc hstep⟩
    · subst heq
      exact hsending

/-- The same for `get`, with nothing running beside it. -/
theorem get_faithful_iff {env : GetEnv} (hv : checkApiVersion request.apiVersion = true)
    (hauth : authorise cfg w request = .ok path) (hasked : env.Answered) (hopens : env.opens = true)
    (halloc : env.allocates = true) (hfile : w.files.contents path = some bytes) :
    (∃ o written, get cfg env request w = some (o, written) ∧ SentWhole cfg bytes o written) ↔
      1 ≤ cfg.streamChunkSize ∨ bytes = [] := by
  obtain ⟨k, hname, hdata⟩ := FileSystem.contents_regular hfile
  have hopen : openRead w.files env.opens path = ⟨some k, 0, true⟩ := by
    simp only [openRead, hname, hopens]
  have hsize : w.files.fileSize path = some bytes.length := by
    rw [FileSystem.fileSize, hfile, Option.map_some]
  obtain ⟨chunks, hdrain, _⟩ := drain_openRead hfile env.opens cfg.streamChunkSize
  have hget : get cfg env request w = some (.returned GetStatus.ok,
      .metadata (some bytes.length) :: chunks.map .chunk) := by
    simp only [get, if_pos hv, hauth, sendBlob, hasked.1, hasked.2,
      FileSystem.present_of_contents hfile, if_true, hsize, halloc, sendFuel, hdrain,
      Option.map_some]
  rw [hopen] at hdrain
  constructor
  · rintro ⟨o, written, heq, _, chunks', hwritten, hpieces⟩
    cases hget.symm.trans heq
    rcases Nat.eq_zero_or_pos cfg.streamChunkSize with hzero | hpos
    · have hread : (InStream.read ⟨some k, 0, true⟩ cfg.streamChunkSize w.files).1 = [] := by
        rw [read_good, hzero, List.take_zero]
      rw [drain_ended hread] at hdrain
      cases hdrain
      have hnil : chunks' = [] := List.map_eq_nil_iff.mp (List.cons.inj hwritten).2.symm
      right
      rw [← hpieces.whole, hnil, List.flatten_nil]
    · exact Or.inl hpos
  · intro hcut
    exact ⟨_, _, hget, rfl, chunks, rfl, drain_pieces hcut hdata (.start _ _ k) rfl hdrain⟩

/-- An upload of four bytes, and a download of it that has just been granted access. -/
def untilAuthorised : List SystemMove := untilLookup 8 ++ List.replicate 3 (.run 1 .none)

def zeroChunks : Config := {smallConfig with streamChunkSize := 0}

def authorisedAt (σ : System) : Bool :=
  σ.threads[1]?.bind Handler.download ==
      some (downloadRequest, .authorised ["store", "upload_1"]) &&
    σ.shared.files.names ["store", "upload_1"] == some (.regular 0) &&
    σ.shared.files.data 0 == [1, 2, 3, 4]

theorem nothing_sent_of_zero_chunks : ¬ ∀ (cfg : Config) (σ : System) (i k : ℕ)
    (request : GetStreamingRequest) (path : Path) (bytes : Bytes),
    σ.threads[i]? = some (.get request (.authorised path)) →
    σ.shared.files.names path = some (.regular k) → σ.shared.files.data k = bytes →
    ServesWhole cfg σ i request k path bytes := by
  intro h
  obtain ⟨σ, hσ, hend⟩ := (Option.any_eq_true authorisedAt _).mp
    (by decide : (runs zeroChunks untilAuthorised smallStart).any _ = true)
  simp only [authorisedAt, Bool.and_eq_true, beq_iff_eq] at hend
  obtain ⟨⟨hget, hname⟩, hdata⟩ := hend
  have hi := eq_get_of_download hget
  obtain ⟨ls, σ', hrun, hlast⟩ := @empty_reads zeroChunks _ _ _ _ _ σ rfl hi hname hdata
  obtain ⟨_, pc, hpc, _, hsent⟩ := h zeroChunks σ 1 0 _ _ _ hi hname hdata ls σ' hrun
  cases hpc.symm.trans hlast
  obtain ⟨_, chunks, hwritten, hpieces⟩ := hsent _ _ rfl
  have hnil : chunks = [] := List.map_eq_nil_iff.mp (List.cons.inj hwritten).2.symm
  have hwhole := hpieces.whole
  rw [hnil] at hwhole
  cases hwhole

theorem download_faithful_upload : ∃ σ, runs smallConfig untilAuthorised smallStart = some σ ∧
    ServesWhole smallConfig σ 1 downloadRequest 0 ["store", "upload_1"] [1, 2, 3, 4] := by
  obtain ⟨σ, hσ, hend⟩ := (Option.any_eq_true authorisedAt _).mp
    (by decide : (runs smallConfig untilAuthorised smallStart).any _ = true)
  simp only [authorisedAt, Bool.and_eq_true, beq_iff_eq] at hend
  obtain ⟨⟨hget, hname⟩, hdata⟩ := hend
  exact ⟨σ, hσ, (download_faithful_iff (eq_get_of_download hget) hname hdata).mpr
    (Or.inl (by decide))⟩

/-! ### A file that goes -/

/-- A step that writes no file: no upload moves and nobody writes from outside. -/
def WritesNothing (σ : System) : SystemMove → Prop
  | .env (.outsideWrite _ _) => False
  | .run j _ => (σ.threads[j]?).bind Handler.uploading = none
  | _ => True

instance : ∀ σ l, Decidable (WritesNothing σ l)
  | _, .env (.outsideWrite _ _) => isFalse id
  | σ, .run j _ =>
    inferInstanceAs (Decidable ((σ.threads[j]?).bind Handler.uploading = none))
  | _, .env (.createSession _) => isTrue trivial
  | _, .env (.add _ _) => isTrue trivial
  | _, .env (.outsideDelete _) => isTrue trivial
  | _, .call _ => isTrue trivial

/-- A step that opens the file to be sent finds it and opens it, or the size sent was 0. -/
def GetPc.Opens (f : Fault) (w : World) : GetPc → Prop
  | .opening path written =>
    (f ≠ .openFails ∧ w.files.contents path ≠ none) ∨ written = [.metadata (some 0)]
  | _ => True

instance (f : Fault) (w : World) : ∀ pc, Decidable (GetPc.Opens f w pc)
  | .opening path written => inferInstanceAs (Decidable
      ((f ≠ .openFails ∧ w.files.contents path ≠ none) ∨ written = [.metadata (some 0)]))
  | .called => isTrue trivial
  | .ownerLookup _ _ => isTrue trivial
  | .ownerHeld _ _ => isTrue trivial
  | .resolving _ => isTrue trivial
  | .findHeld _ => isTrue trivial
  | .tagging _ _ => isTrue trivial
  | .tagHeld _ _ => isTrue trivial
  | .authorised _ => isTrue trivial
  | .sizing _ => isTrue trivial
  | .reading _ _ => isTrue trivial
  | .finished _ _ => isTrue trivial

def OpensFile (i : ℕ) (σ : System) : SystemMove → Prop
  | .run j f => j = i → ∀ d ∈ (σ.threads[j]?).bind Handler.download, d.2.Opens f σ.shared
  | _ => True

instance (i : ℕ) (σ : System) : ∀ l, Decidable (OpensFile i σ l)
  | .run j f => inferInstanceAs (Decidable
      (j = i → ∀ d ∈ (σ.threads[j]?).bind Handler.download, d.2.Opens f σ.shared))
  | .env _ => isTrue trivial
  | .call _ => isTrue trivial

/-- The size sent is that of the file at that time, and what is read is its content. -/
def Delivering (cfg : Config) (w : World) : GetPc → Prop
  | .opening path written => ∃ bytes : Bytes, written = [.metadata (some bytes.length)] ∧
      ∀ bs, w.files.contents path = some bs → bs = bytes
  | .reading ins written => ∃ (bytes : Bytes) (sent : List Bytes),
      written = .metadata (some bytes.length) :: sent.map .chunk ∧
        ((∃ k, ins.ino = some k ∧ w.files.data k = bytes ∧
            Progress cfg.streamChunkSize bytes ins sent) ∨
          (ins.ino = none ∧ bytes = [] ∧ sent = []))
  | .finished o written => o.IsOk → ∃ (bytes : Bytes) (chunks : List Bytes),
      written = .metadata (some bytes.length) :: chunks.map .chunk ∧
        Pieces cfg.streamChunkSize bytes chunks
  | _ => True

theorem delivering_finished (ho : ¬ o.IsOk) : Delivering cfg w (.finished o written) :=
  fun hok => absurd hok ho

theorem delivering_ownerCheck (ctx : GetContext) (u : Option TransactionId) (t : TransactionId) :
    Delivering cfg w (.ofExcept (fun _ => .resolving ctx) (ownerCheck u t)) := by
  cases u with
  | none => exact delivering_finished (by simp [GetStatus.withoutTransaction, getExit, GetOutcome.IsOk])
  | some v =>
    unfold ownerCheck
    dsimp only
    split
    · exact delivering_finished (by simp [GetStatus.otherTransaction, getExit, GetOutcome.IsOk])
    · trivial

theorem delivering_openRead (hopens : GetPc.Opens f w (.opening path written))
    (hd : Delivering cfg w (.opening path written)) :
    Delivering cfg w (.reading (openRead w.files (f ≠ .openFails) path) written) := by
  obtain ⟨bytes, rfl, hsame⟩ := hd
  by_cases hfound : f ≠ .openFails ∧ w.files.contents path ≠ none
  · obtain ⟨bs, hbs⟩ := Option.ne_none_iff_exists'.mp hfound.2
    obtain ⟨k, hdata, hopen⟩ := openRead_of_contents hbs
    rw [decide_eq_true hfound.1, hopen]
    exact ⟨bytes, [], rfl, Or.inl ⟨k, rfl, hdata.trans (hsame bs hbs), .start _ _ _⟩⟩
  · have hclosed : openRead w.files (f ≠ .openFails) path = ⟨none, 0, false⟩ := by
      refine openRead_closed ?_
      by_cases hf : f = .openFails
      · exact Or.inl (decide_eq_false (not_not.mpr hf))
      · exact Or.inr (not_not.mp fun hne => hfound ⟨hf, hne⟩)
    have hempty : bytes = [] := by
      have hzero := hopens.resolve_left hfound
      simpa using hzero
    rw [hclosed]
    exact ⟨bytes, [], rfl, Or.inr ⟨rfl, hempty, rfl⟩⟩

theorem delivering_getStepped (hchunk : 1 ≤ cfg.streamChunkSize)
    (h : GetStepped cfg f request w pc pc') (hopens : pc.Opens f w) (hd : Delivering cfg w pc) :
    Delivering cfg w pc' := by
  cases h with
  | raised => exact delivering_finished (getCatch_not_ok _)
  | denied hcode => exact delivering_finished hcode
  | @contextRead ctx =>
    unfold GetPc.afterContext
    split <;> trivial
  | ownerChecked => exact delivering_ownerCheck _ _ _
  | @sized path n hn =>
    obtain ⟨bs, hbs, rfl⟩ := Option.map_eq_some_iff.mp hn
    exact ⟨bs, rfl, fun bs' hbs' => Option.some.inj (hbs'.symm.trans hbs)⟩
  | opened => exact delivering_openRead hopens hd
  | @sent ins written hne =>
    obtain ⟨bytes, sent, rfl, ⟨k, hino, hdata, hprogress⟩ | ⟨hino, _⟩⟩ := hd
    · obtain ⟨hino', _, hnext⟩ := hprogress.more hino hdata hne
      refine ⟨bytes, sent ++ [(ins.read cfg.streamChunkSize w.files).1], ?_,
        Or.inl ⟨k, hino', hdata, hnext⟩⟩
      rw [List.map_append, List.map_singleton, List.cons_append]
    · refine absurd ?_ hne
      simp only [InStream.read, hino]
  | ended hread =>
    obtain ⟨bytes, sent, rfl, ⟨k, hino, hdata, hprogress⟩ | ⟨_, rfl, rfl⟩⟩ := hd
    · exact fun _ => ⟨bytes, sent, rfl, hprogress.done (Or.inl hchunk) hino hdata hread⟩
    · refine fun _ => ⟨[], [], rfl, rfl, ?_, ?_⟩
      · exact fun c hc => absurd hc List.not_mem_nil
      · exact fun c hc => absurd hc List.not_mem_nil
  | _ => trivial

theorem Delivering.shrink (hd : Delivering cfg w pc) (hdata : w'.files.data = w.files.data)
    (hnames : ∀ q n, w'.files.names q = some n → w.files.names q = some n) :
    Delivering cfg w' pc := by
  cases pc with
  | opening path written =>
    obtain ⟨bytes, hwritten, hsame⟩ := hd
    refine ⟨bytes, hwritten, fun bs hbs => hsame bs ?_⟩
    obtain ⟨k, hname, rfl⟩ := FileSystem.contents_regular hbs
    rw [FileSystem.contents_of_regular (hnames _ _ hname), hdata]
  | reading ins written =>
    obtain ⟨bytes, sent, hwritten, ⟨k, hino, hk, hprogress⟩ | hclosed⟩ := hd
    · exact ⟨bytes, sent, hwritten, Or.inl ⟨k, hino, (congrFun hdata k).trans hk, hprogress⟩⟩
    · exact ⟨bytes, sent, hwritten, Or.inr hclosed⟩
  | _ => exact hd

theorem shrink_deleteStepped {s : ℕ} {b : Option ℕ} (h : DeleteStepped cfg f w s b w') :
    w'.files.data = w.files.data ∧ ∀ q n, w'.files.names q = some n → w.files.names q = some n := by
  cases h with
  | same => exact ⟨rfl, fun _ _ h => h⟩
  | deleted her =>
    refine ⟨her.data, fun q n hq => ?_⟩
    rw [her.names] at hq
    split at hq
    · cases hq
    · exact hq
  | deleteFails => exact ⟨rfl, fun _ _ h => h⟩

theorem writesNothing_step {σ σ' : System} {l : SystemMove} (hok : WritesNothing σ l)
    (h : systemStep cfg l σ = some σ') : σ'.shared.files.data = σ.shared.files.data ∧
      ∀ q n, σ'.shared.files.names q = some n → σ.shared.files.names q = some n := by
  cases l with
  | env a =>
    obtain ⟨w₁, hw, rfl⟩ := Pool.step_env h
    cases a with
    | createSession t =>
      cases hw
      exact ⟨rfl, fun _ _ h => h⟩
    | add s path =>
      obtain ⟨⟨r, w₂⟩, hadd, hr⟩ := Option.map_eq_some_iff.mp hw
      cases hr
      cases r with
      | ok b =>
        rw [(World.add_ok hadd).2.files]
        exact ⟨rfl, fun _ _ h => h⟩
      | error x =>
        obtain ⟨_, rfl⟩ := World.add_error hadd
        exact ⟨rfl, fun _ _ h => h⟩
    | outsideWrite path bytes => cases hok
    | outsideDelete path =>
      cases hw
      refine ⟨rfl, fun q n hq => ?_⟩
      dsimp only at hq
      rw [FileSystem.names_unlink] at hq
      split at hq
      · cases hq
      · exact hq
  | call c =>
    obtain rfl := Pool.step_call h
    exact ⟨rfl, fun _ _ h => h⟩
  | run j f =>
    obtain ⟨t, w₁, t', ht, hstep, rfl⟩ := Pool.step_run h
    cases t with
    | put messages pc =>
      rw [WritesNothing, ht] at hok
      cases hok
    | get request pc =>
      obtain ⟨rfl, _⟩ := handlerStep_get hstep
      exact ⟨rfl, fun _ _ h => h⟩
    | remove s ids pc => exact shrink_deleteStepped (handlerStep_remove hstep).2
    | dispose s pc =>
      obtain ⟨_, ⟨_, hdel⟩ | ⟨_, _, rfl⟩⟩ := handlerStep_dispose hstep
      · exact shrink_deleteStepped hdel
      · exact ⟨rfl, fun _ _ h => h⟩

theorem delivering_step (hchunk : 1 ≤ cfg.streamChunkSize) {σ σ' : System} {l : SystemMove}
    (hok : WritesNothing σ l ∧ OpensFile i σ l) (h : systemStep cfg l σ = some σ')
    (hd : ∃ pc, σ.threads[i]? = some (.get request pc) ∧ Delivering cfg σ.shared pc) :
    ∃ pc, σ'.threads[i]? = some (.get request pc) ∧ Delivering cfg σ'.shared pc := by
  obtain ⟨pc, hi, hpc⟩ := hd
  obtain ⟨hdata, hnames⟩ := writesNothing_step hok.1 h
  rcases Pool.step_at h hi with ⟨_, hstays⟩ | ⟨f, t', rfl, hown, hmoved⟩
  · exact ⟨pc, hstays, hpc.shrink hdata hnames⟩
  · obtain ⟨hsame, pc', rfl, hget⟩ := handlerStep_get hown
    have hopens : pc.Opens f σ.shared := by
      refine hok.2 rfl (request, pc) ?_
      rw [hi]
      rfl
    rw [hsame]
    exact ⟨pc', hmoved, delivering_getStepped hchunk hget hopens hpc⟩

/-- In every run in which uploads stand still and the file is found and opened when it
is to be read: a `Get` that returns OK has sent as many bytes as it has announced. -/
theorem download_complete (hchunk : 1 ≤ cfg.streamChunkSize) {σ σ' : System}
    {ls : List SystemMove} (hi : σ.threads[i]? = some (.get request .called))
    (hrun : Run (systemStep cfg) (fun σ l => WritesNothing σ l ∧ OpensFile i σ l) σ ls σ')
    (hend : σ'.threads[i]? = some (.get request (.finished o written))) (hok : o.IsOk) :
    ∃ (n : ℕ) (chunks : List Bytes), written = .metadata (some n) :: chunks.map .chunk ∧
      (chunks.map List.length).sum = n := by
  obtain ⟨pc, hpc, hd⟩ := hrun.invariant
    (fun σ => ∃ pc, σ.threads[i]? = some (.get request pc) ∧ Delivering cfg σ.shared pc)
    (fun _ _ _ hd hok hst => delivering_step hchunk hok hst hd) ⟨.called, hi, trivial⟩
  cases hpc.symm.trans hend
  obtain ⟨bytes, chunks, hwritten, hpieces⟩ := hd hok
  refine ⟨bytes.length, chunks, hwritten, ?_⟩
  rw [← List.length_flatten, hpieces.whole]

/-- A download that has not opened its file; what it has sent is all it will send. -/
def CutShort (written : List GetStreamingResponse) : GetPc → Prop
  | .reading ins sent => ins.ino = none ∧ sent = written
  | .finished o sent => o.IsOk → sent = written
  | _ => False

theorem cutShort_getStepped (h : GetStepped cfg f request w pc pc') (hc : CutShort written pc) :
    CutShort written pc' := by
  cases h with
  | raised => exact fun hok => absurd hok (getCatch_not_ok _)
  | denied hcode => exact fun hok => absurd hok hcode
  | @sent ins sent hne =>
    refine absurd ?_ hne
    simp only [InStream.read, hc.1]
  | ended => exact fun _ => hc.2
  | _ => cases hc

/-- And only in those runs: when the file is not found or not opened to be read, a `Get`
that returns OK has announced at least one byte and sent none. -/
theorem download_cut_short {σ σ₁ σ' : System} {ls : List SystemMove} {n : ℕ}
    (hi : σ.threads[i]? = some (.get request (.opening path [.metadata (some n)])))
    (hstep : systemStep cfg (.run i f) σ = some σ₁)
    (hbad : ¬ GetPc.Opens f σ.shared (.opening path [.metadata (some n)]))
    (hrun : Run (systemStep cfg) (fun _ _ => True) σ₁ ls σ')
    (hend : σ'.threads[i]? = some (.get request (.finished o written))) (hok : o.IsOk) :
    written = [.metadata (some n)] ∧ 0 < n := by
  have hn : 0 < n := by
    rcases Nat.eq_zero_or_pos n with rfl | hn
    · exact absurd (Or.inr rfl) hbad
    · exact hn
  have hstart : ∃ pc, σ₁.threads[i]? = some (.get request pc) ∧
      CutShort [.metadata (some n)] pc := by
    rcases Pool.step_at hstep hi with ⟨hother, _⟩ | ⟨g, t', heq, hown, hmoved⟩
    · simp [Move.runs] at hother
    · cases heq
      obtain ⟨_, pc, rfl, hget⟩ := handlerStep_get hown
      refine ⟨pc, hmoved, ?_⟩
      cases hget with
      | raised => exact fun hok => absurd hok (getCatch_not_ok _)
      | denied hcode => exact fun hok => absurd hok hcode
      | opened =>
        have hclosed : openRead σ.shared.files (f ≠ .openFails) path = ⟨none, 0, false⟩ := by
          refine openRead_closed ?_
          by_cases hf : f = .openFails
          · exact Or.inl (decide_eq_false (not_not.mpr hf))
          · exact Or.inr (not_not.mp fun hne => hbad (Or.inl ⟨hf, hne⟩))
        rw [hclosed]
        exact ⟨rfl, rfl⟩
  obtain ⟨pc, hpc, hcut⟩ := hrun.invariant
    (fun σ => ∃ pc, σ.threads[i]? = some (.get request pc) ∧ CutShort [.metadata (some n)] pc)
    (fun σ l σ' hc _ hst => by
      obtain ⟨pc, hi, hpc⟩ := hc
      rcases Pool.step_at hst hi with ⟨_, hstays⟩ | ⟨f, t', rfl, hown, hmoved⟩
      · exact ⟨pc, hstays, hpc⟩
      · obtain ⟨_, pc', rfl, hget⟩ := handlerStep_get hown
        exact ⟨pc', hmoved, cutShort_getStepped hget hpc⟩) hstart
  cases hpc.symm.trans hend
  exact ⟨hcut hok, hn⟩

/-- An upload of four bytes, and a download of it that has just been called. -/
def untilCalled : List SystemMove :=
  [.env (.createSession none), .call (.put twoChunks)] ++ List.replicate 8 (.run 0 .none) ++
    [.call (.get downloadRequest)]

/-- The download takes some steps, the blob is removed, and the download goes on. -/
def removedAfter (steps rest : ℕ) : List SystemMove :=
  List.replicate steps (.run 1 .none) ++
    [.call (.remove 1 [1]), .run 2 .none, .run 2 .none] ++ List.replicate rest (.run 1 .none)

theorem download_cut_short_by_remove : ¬ ∀ (cfg : Config) (σ σ' : System) (ls : List SystemMove)
    (i : ℕ) (request : GetStreamingRequest) (o : GetOutcome)
    (written : List GetStreamingResponse), 1 ≤ cfg.streamChunkSize → Reachable cfg σ →
    σ.threads[i]? = some (.get request .called) → Run (systemStep cfg) WritesNothing σ ls σ' →
    σ'.threads[i]? = some (.get request (.finished o written)) → o.IsOk →
    ∃ (n : ℕ) (chunks : List Bytes), written = .metadata (some n) :: chunks.map .chunk ∧
      (chunks.map List.length).sum = n := by
  intro h
  obtain ⟨σ, hσ, hend⟩ := (Option.any_eq_true
    (fun σ : System => decide (Headroom σ.shared) &&
      σ.threads[1]?.bind Handler.download == some (downloadRequest, .called) &&
      (exec (systemStep smallConfig) (fun σ l => decide (WritesNothing σ l)) (removedAfter 7 2)
        σ).any fun σ' => σ'.threads[1]?.bind Handler.download ==
          some (downloadRequest, .finished (.returned GetStatus.ok) [.metadata (some 4)])) _).mp
    (by decide : (runs smallConfig untilCalled smallStart).any _ = true)
  simp only [Bool.and_eq_true, decide_eq_true_eq, beq_iff_eq] at hend
  obtain ⟨⟨hroom, hcalled⟩, hrest⟩ := hend
  obtain ⟨σ', hσ', hlast⟩ := (Option.any_eq_true _ _).mp hrest
  obtain ⟨n, chunks, hwritten, hsum⟩ := h smallConfig σ σ' (removedAfter 7 2) 1 downloadRequest
    _ _ (by decide) (.of_runs smallStart_initial hσ hroom) (eq_get_of_download hcalled)
    (.of_exec hσ' fun _ _ _ hc => of_decide_eq_true hc)
    (eq_get_of_download (beq_iff_eq.mp hlast)) rfl
  have hnil : chunks = [] := List.map_eq_nil_iff.mp (List.cons.inj hwritten).2.symm
  rw [hnil] at hwritten hsum
  cases hsum
  cases hwritten

theorem download_complete_removed : ∃ (σ σ' : System) (n : ℕ) (chunks : List Bytes),
    runs smallConfig untilCalled smallStart = some σ ∧
    σ.threads[1]? = some (.get downloadRequest .called) ∧
    exec (systemStep smallConfig) (fun σ l => decide (WritesNothing σ l ∧ OpensFile 1 σ l))
      (removedAfter 8 3) σ = some σ' ∧
    σ'.threads[1]? = some (.get downloadRequest (.finished (.returned GetStatus.ok)
      (.metadata (some n) :: chunks.map .chunk))) ∧ (chunks.map List.length).sum = n ∧
    σ'.shared.files.contents ["store", "upload_1"] = none := by
  obtain ⟨σ, hσ, hend⟩ := (Option.any_eq_true
    (fun σ : System => σ.threads[1]?.bind Handler.download == some (downloadRequest, .called) &&
      (exec (systemStep smallConfig)
        (fun σ l => decide (WritesNothing σ l ∧ OpensFile 1 σ l)) (removedAfter 8 3)
        σ).any fun σ' => σ'.threads[1]?.bind Handler.download ==
          some (downloadRequest, .finished (.returned GetStatus.ok)
            [.metadata (some 4), .chunk [1, 2], .chunk [3, 4]]) &&
          σ'.shared.files.contents ["store", "upload_1"] == none) _).mp
    (by decide : (runs smallConfig untilCalled smallStart).any _ = true)
  simp only [Bool.and_eq_true, beq_iff_eq] at hend
  obtain ⟨σ', hσ', hlast⟩ := (Option.any_eq_true _ _).mp hend.2
  simp only [Bool.and_eq_true, beq_iff_eq] at hlast
  have hget := eq_get_of_download hlast.1
  obtain ⟨n, chunks, hwritten, hsum⟩ := download_complete
    (by decide : 1 ≤ smallConfig.streamChunkSize) (eq_get_of_download hend.1)
    (.of_exec hσ' fun _ _ _ hc => of_decide_eq_true hc) hget rfl
  exact ⟨σ, σ', n, chunks, hσ, eq_get_of_download hend.1, hσ', hwritten ▸ hget, hsum, hlast.2⟩

end BlobRelay
