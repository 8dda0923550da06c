import BlobRelay.Invariant

/-! # What one step of a handler does

One inversion per handler: every step of `putStep`, `getPcStep`, `removeStep` and
`disposeStep` is one of the constructors, with the guard it was taken under. -/

namespace BlobRelay
open Foundation Foundation.FileStore

def PutStreamingRequest.isChunk : PutStreamingRequest → Bool
  | .chunk _ => true
  | _ => false

/-- The steps of `Put` from `w`, by the program point they leave. -/
inductive PutStepped (cfg : Config) (f : Fault) (messages : List PutStreamingRequest) (w : World) :
    PutPc → World → PutPc → Prop
  | rejected {status : Status} : status.code ≠ .ok →
      (∀ m rest, messages = .metadata m :: rest → checkApiVersion m.apiVersion = true →
        ¬ w.manager.Live m.sessionId) →
      PutStepped cfg f messages w .called w (.finished none (.returned status none))
  | located {m : PutMetadata} {rest : List PutStreamingRequest} : messages = .metadata m :: rest →
      checkApiVersion m.apiVersion = true → w.manager.Live m.sessionId →
      PutStepped cfg f messages w .called w (.located m.sessionId m.blobSize rest)
  | created {s b : ℕ} {blobSizeOpt : Option ℕ} {rest : List PutStreamingRequest} {w' : World} :
      World.Registers cfg s b (uploadPath cfg b) w w' →
      PutStepped cfg f messages w (.located s blobSizeOpt rest) w'
        (.created ⟨s, b, uploadPath cfg b, blobSizeOpt⟩ rest)
  | cannotOpen {u : Upload} {rest : List PutStreamingRequest} :
      openBlobFile (f ≠ .openFails) u.path w.files = none →
      PutStepped cfg f messages w (.created u rest) w
        (.finished (some u) (.returned PutStatus.cannotOpen none))
  | opened {u : Upload} {rest : List PutStreamingRequest} {i : ℕ} {fs : Files} :
      w.files.openWrite u.path = some (i, fs) →
      PutStepped cfg f messages w (.created u rest) {w with files := fs}
        (.receiving u ⟨i, true⟩ 0 rest)
  | closed {u : Upload} {out : OutStream} {n : ℕ} :
      PutStepped cfg f messages w (.receiving u out n [])
        {w with files := out.close f.writes w.files} (.received u n)
  | charged {u : Upload} {out : OutStream} {n : ℕ} {bytes : Bytes}
      {rest : List PutStreamingRequest} {e : Path × ℕ} {w' : World} :
      World.Charges cfg u.session u.blobId bytes.length e w w' →
      PutStepped cfg f messages w (.receiving u out n (.chunk bytes :: rest))
        {w' with files := (out.write f.writes bytes w'.files).2}
        (.receiving u (out.write f.writes bytes w'.files).1 (add64 n bytes.length) rest)
  | refused {u : Upload} {out : OutStream} {n : ℕ} {bytes : Bytes}
      {rest : List PutStreamingRequest} : w.manager.Live u.session →
      (reserve cfg.quota bytes.length w.manager.currentSize).1 = false →
      PutStepped cfg f messages w (.receiving u out n (.chunk bytes :: rest))
        {w with files := out.close f.writes w.files} (.exhausted u)
  /-- The entry is gone, and `blobs_.at` throws after the reservation. -/
  | lost {u : Upload} {out : OutStream} {n : ℕ} {bytes : Bytes}
      {rest : List PutStreamingRequest} : w.manager.Live u.session →
      (∀ e, ¬ w.manager.Entry u.session u.blobId e) →
      (reserve cfg.quota bytes.length w.manager.currentSize).1 = true →
      PutStepped cfg f messages w (.receiving u out n (.chunk bytes :: rest))
        {manager := {w.manager with
          currentSize := (reserve cfg.quota bytes.length w.manager.currentSize).2}
         files := out.close f.writes w.files}
        (.finished (some u) (putCatch .mapAt))
  | notChunk {u : Upload} {out : OutStream} {n : ℕ} {m : PutStreamingRequest}
      {rest : List PutStreamingRequest} : m.isChunk = false →
      PutStepped cfg f messages w (.receiving u out n (m :: rest))
        {w with files := out.close f.writes w.files}
        (.finished (some u) (.returned PutStatus.notChunk none))
  | deletedNothing {u : Upload} : w.manager.Live u.session →
      (∀ e, ¬ w.manager.Entry u.session u.blobId e) →
      PutStepped cfg f messages w (.exhausted u) w
        (.finished (some u) (.returned PutStatus.exhausted none))
  | deleted {u : Upload} {e : Path × ℕ} {w' : World} :
      World.Erases cfg u.session u.blobId e w w' →
      PutStepped cfg f messages w (.exhausted u) w'
        (.finished (some u) (.returned PutStatus.exhausted none))
  | deleteFails {u : Upload} {e : Path × ℕ} {x : Exn} : f.deletes ≠ .succeeds →
      w.manager.Entry u.session u.blobId e →
      PutStepped cfg f messages w (.exhausted u)
        {w with manager := {w.manager with
          currentSize := release cfg.quota e.2 w.manager.currentSize}}
        (.finished (some u) (putCatch x))
  | mismatchFails {u : Upload} {n : ℕ} : f = .removeThrows →
      sizeMismatches u.blobSizeOpt n = true →
      PutStepped cfg f messages w (.received u n) w
        (.finished (some u) (.thrown (.filesystemError "remove")))
  | mismatch {u : Upload} {n : ℕ} : sizeMismatches u.blobSizeOpt n = true →
      PutStepped cfg f messages w (.received u n) {w with files := w.files.unlink u.path}
        (.finished (some u) (.returned PutStatus.sizeMismatch none))
  | accepted {u : Upload} {n : ℕ} : sizeMismatches u.blobSizeOpt n = false →
      PutStepped cfg f messages w (.received u n) w (.tagging u)
  | answered {u : Upload} : w.manager.Live u.session →
      PutStepped cfg f messages w (.tagging u) w
        (.finished (some u) (putResponse cfg u.session u.blobId))

variable {cfg : Config} {f : Fault} {messages : List PutStreamingRequest} {w w' : World}

theorem openBlobFile_some {opens : Bool} {p : Path} {fs fs' : Files} {out : OutStream}
    (h : openBlobFile opens p fs = some (out, fs')) :
    opens = true ∧ ∃ i, fs.openWrite p = some (i, fs') ∧ out = ⟨i, true⟩ := by
  unfold openBlobFile at h
  split at h
  · rename_i ho
    obtain ⟨⟨i, g⟩, hi, he⟩ := Option.map_eq_some_iff.mp h
    cases he
    exact ⟨ho, i, hi, rfl⟩
  · cases h

theorem putStep_called {pc' : PutPc} (h : putStep cfg f messages w .called = some (w', pc')) :
    PutStepped cfg f messages w .called w' pc' := by
  dsimp only [putStep] at h
  split at h
  · cases h
    exact .rejected (by decide) (by simp)
  · rename_i m rest
    split at h
    · rename_i hv
      split at h
      · rename_i e he
        obtain ⟨rfl, hl⟩ := BlobSessionManager.getSessionImpl_error he
        cases h
        refine .rejected (by decide) fun m' rest' hm _ => ?_
        cases hm
        exact hl
      · rename_i impl hi
        cases h
        exact .located rfl hv ⟨impl, BlobSessionManager.getSessionImpl_ok hi⟩
    · rename_i hv
      cases h
      refine .rejected (by simp [PutStatus.apiVersion]) fun m' rest' hm hv' => ?_
      cases hm
      exact absurd hv' hv
  · cases h
    exact .rejected (by decide) (by simp)
  · cases h
    exact .rejected (by decide) (by simp)

theorem putStep_chunk {u : Upload} {out : OutStream} {n : ℕ} {bytes : Bytes}
    {rest : List PutStreamingRequest} {pc' : PutPc}
    (h : putStep cfg f messages w (.receiving u out n (.chunk bytes :: rest)) = some (w', pc')) :
    PutStepped cfg f messages w (.receiving u out n (.chunk bytes :: rest)) w' pc' := by
  dsimp only [putStep] at h
  split at h
  · cases h
  · rename_i x w₁ hr
    cases h
    rcases World.reserveSessionStore_cases hr with
      ⟨hbad, _⟩ | ⟨e, hbad, _⟩ | ⟨hx, hl, he, hres, rfl⟩
    · cases hbad
    · cases hbad
    · cases hx
      exact .lost hl he hres
  · rename_i w₁ hr
    cases h
    rcases World.reserveSessionStore_cases hr with
      ⟨_, rfl, hl, hres⟩ | ⟨e, hbad, _⟩ | ⟨hbad, _⟩
    · exact .refused hl hres
    · cases hbad
    · cases hbad
  · rename_i w₁ hr
    cases h
    rcases World.reserveSessionStore_cases hr with
      ⟨hbad, _⟩ | ⟨e, _, hch⟩ | ⟨hbad, _⟩
    · cases hbad
    · exact .charged hch
    · cases hbad

theorem putStep_exhausted {u : Upload} {pc' : PutPc}
    (h : putStep cfg f messages w (.exhausted u) = some (w', pc')) :
    PutStepped cfg f messages w (.exhausted u) w' pc' := by
  dsimp only [putStep] at h
  split at h
  · cases h
  · rename_i x w₁ hd
    cases h
    rcases World.deleteBlobFile_cases hd with
      ⟨_, hbad, _⟩ | ⟨e, hbad, _⟩ | ⟨e, y, hx, hf, he, rfl⟩
    · cases hbad
    · cases hbad
    · exact .deleteFails hf he
  · rename_i w₁ hd
    cases h
    rcases World.deleteBlobFile_cases hd with
      ⟨rfl, _, hl, he⟩ | ⟨e, _, her⟩ | ⟨e, y, hbad, _⟩
    · exact .deletedNothing hl he
    · exact .deleted her
    · cases hbad

theorem putStep_received {u : Upload} {n : ℕ} {pc' : PutPc}
    (h : putStep cfg f messages w (.received u n) = some (w', pc')) :
    PutStepped cfg f messages w (.received u n) w' pc' := by
  dsimp only [putStep] at h
  split at h
  · rename_i hm
    split at h
    · rename_i hf
      cases h
      exact .mismatchFails hf hm
    · cases h
      exact .mismatch hm
  · rename_i hm
    cases h
    exact .accepted (by simpa using hm)

theorem putStep_cases {pc pc' : PutPc} (h : putStep cfg f messages w pc = some (w', pc')) :
    PutStepped cfg f messages w pc w' pc' := by
  cases pc with
  | called => exact putStep_called h
  | located s blobSizeOpt rest =>
    dsimp only [putStep] at h
    split at h
    · cases h
    · rename_i b path w₁ hc
      obtain ⟨rfl, hreg⟩ := World.createBlobFile_spec hc
      cases h
      exact .created hreg
  | created u rest =>
    dsimp only [putStep] at h
    split at h
    · rename_i ho
      cases h
      exact .cannotOpen ho
    · rename_i out fs ho
      obtain ⟨_, i, hi, rfl⟩ := openBlobFile_some ho
      cases h
      exact .opened hi
  | receiving u out n ms =>
    cases ms with
    | nil =>
      cases h
      exact .closed
    | cons m rest =>
      cases m with
      | metadata m =>
        cases h
        exact .notChunk rfl
      | unset =>
        cases h
        exact .notChunk rfl
      | chunk bytes => exact putStep_chunk h
  | exhausted u => exact putStep_exhausted h
  | received u n => exact putStep_received h
  | tagging u =>
    obtain ⟨impl, hs, he⟩ := Option.map_eq_some_iff.mp h
    cases he
    exact .answered ⟨impl, hs⟩
  | finished u o => cases h

/-! ### Get -/

/-- The steps of `Get` in `w`, which they do not change, by the program point they
leave. What any of its calls throws ends it, as does a status of its own. -/
inductive GetStepped (cfg : Config) (f : Fault) (request : GetStreamingRequest) (w : World) :
    GetPc → GetPc → Prop
  | raised {pc : GetPc} {e : Exn} {written : List GetStreamingResponse} :
      GetStepped cfg f request w pc (.finished (getCatch e) written)
  | denied {pc : GetPc} {status : Status} : status.code ≠ .ok →
      status ≠ GetStatus.otherTransaction → status ≠ GetStatus.withoutTransaction →
      GetStepped cfg f request w pc (.finished (.returned status) [])
  | contextRead {ctx : GetContext} : readContext w.manager request.contextId = .ok ctx →
      GetStepped cfg f request w .called (GetPc.afterContext ctx)
  | ownerFound {ctx : GetContext} {t : TransactionId} : w.manager.Live ctx.sessionId →
      GetStepped cfg f request w (.ownerLookup ctx t) (.ownerHeld ctx t)
  | ownerChecked {ctx : GetContext} {t : TransactionId} {impl : BlobSessionImpl} :
      w.manager.blobSessions[ctx.sessionId]? = some impl →
      GetStepped cfg f request w (.ownerHeld ctx t)
        (.ofExcept (fun _ => .resolving ctx) (ownerCheck impl.transactionIdOpt t))
  | sessionFound {ctx : GetContext} : request.blob.storageId = sessionStorageId →
      ctx.rawTransaction = false → w.manager.Live ctx.sessionId →
      GetStepped cfg f request w (.resolving ctx) (.findHeld ctx)
  | datastorePath {ctx : GetContext} {path : Path} :
      request.blob.storageId = limestoneBlobStore →
      limestonePath cfg w.files request.blob.objectId = .ok path →
      GetStepped cfg f request w (.resolving ctx) (.tagging ctx path)
  | blobFound {ctx : GetContext} {path : Path} {n : ℕ} :
      w.manager.Entry ctx.sessionId request.blob.objectId (path, n) →
      GetStepped cfg f request w (.findHeld ctx) (.tagging ctx path)
  | tagSession {ctx : GetContext} {path : Path} : ctx.transactionId = none →
      w.manager.Live ctx.sessionId →
      GetStepped cfg f request w (.tagging ctx path) (.tagHeld ctx path)
  | tagged {ctx : GetContext} {path : Path} {t : TransactionId} {expected : BlobTag} :
      ctx.transactionId = some t → cfg.api.getTag request.blob.objectId t = .ok expected →
      checkTag cfg expected request.blob.tag = .ok () →
      GetStepped cfg f request w (.tagging ctx path) (.authorised path)
  | sessionTagged {ctx : GetContext} {path : Path} {impl : BlobSessionImpl}
      {expected : BlobTag} : w.manager.blobSessions[ctx.sessionId]? = some impl →
      impl.getTag cfg ctx.sessionId request.blob.objectId = .ok expected →
      checkTag cfg expected request.blob.tag = .ok () →
      GetStepped cfg f request w (.tagHeld ctx path) (.authorised path)
  | present {path : Path} : w.files.present path = true →
      GetStepped cfg f request w (.authorised path) (.sizing path)
  | sized {path : Path} {n : ℕ} : w.files.fileSize path = some n →
      GetStepped cfg f request w (.sizing path) (.opening path [.metadata (some n)])
  | opened {path : Path} {written : List GetStreamingResponse} : f ≠ .allocFails →
      GetStepped cfg f request w (.opening path written)
        (.reading (openRead w.files (f ≠ .openFails) path) written)
  | sent {ins : InStream} {written : List GetStreamingResponse} :
      (ins.read cfg.streamChunkSize w.files).1 ≠ [] →
      GetStepped cfg f request w (.reading ins written)
        (.reading (ins.read cfg.streamChunkSize w.files).2
          (written ++ [.chunk (ins.read cfg.streamChunkSize w.files).1]))
  | ended {ins : InStream} {written : List GetStreamingResponse} :
      (ins.read cfg.streamChunkSize w.files).1 = [] →
      GetStepped cfg f request w (.reading ins written)
        (.finished (.returned GetStatus.ok) written)

section Get
variable {request : GetStreamingRequest} {pc pc' : GetPc}

theorem getStepped_ofExcept {α : Type} {next : α → GetPc} {x : Except GetExit α}
    (hok : ∀ a, x = .ok a → GetStepped cfg f request w pc (next a))
    (herror : ∀ e, x = .error e → GetStepped cfg f request w pc (.finished (getExit e) [])) :
    GetStepped cfg f request w pc (.ofExcept next x) := by
  cases x with
  | ok a => exact hok a rfl
  | error e => exact herror e rfl

theorem getStepped_raising {α : Type} {x : Except Exn α} {e : GetExit}
    (h : raising x = .error e) : GetStepped cfg f request w pc (.finished (getExit e) []) := by
  cases x with
  | ok a => cases h
  | error e' =>
    cases h
    exact .raised

theorem getStepped_limestone {b : ℕ} {e : GetExit} (h : limestonePath cfg w.files b = .error e) :
    GetStepped cfg f request w pc (.finished (getExit e) []) := by
  unfold limestonePath at h
  cases hp : cfg.api.getPath b with
  | ok p =>
    simp only [hp, raising] at h
    change (if w.files.present p then Except.ok p else _) = _ at h
    split at h
    · cases h
    · cases h
      exact .denied (by decide) (by decide) (by decide)
  | error x =>
    rw [hp] at h
    cases h
    exact .raised

theorem getStepped_checkTag {expected : BlobTag} {e : GetExit}
    (h : checkTag cfg expected request.blob.tag = .error e) :
    GetStepped cfg f request w pc (.finished (getExit e) []) := by
  unfold checkTag at h
  split at h
  · split at h
    · cases h
      exact .denied (by decide) (by decide) (by decide)
    · cases h
  · cases h

theorem getStepped_afterTag {path : Path} {x : Except Exn BlobTag}
    (h : ∀ expected, x = .ok expected → checkTag cfg expected request.blob.tag = .ok () →
      GetStepped cfg f request w pc (.authorised path)) :
    GetStepped cfg f request w pc (.afterTag cfg request path (raising x)) := by
  cases x with
  | ok expected => exact getStepped_ofExcept (fun _ => h expected rfl) fun _ => getStepped_checkTag
  | error e => exact .raised

theorem live_of_getSessionImpl {s : ℕ} {impl : BlobSessionImpl}
    (h : raising (w.manager.getSessionImpl s) = .ok impl) : w.manager.Live s := by
  cases hg : w.manager.getSessionImpl s with
  | ok i => exact ⟨i, BlobSessionManager.getSessionImpl_ok hg⟩
  | error x =>
    rw [hg] at h
    cases h

theorem getStepped_called (h : getPcStep cfg f request w .called = some pc') :
    GetStepped cfg f request w .called pc' := by
  dsimp only [getPcStep] at h
  split at h
  · cases h
    refine getStepped_ofExcept (fun _ => .contextRead) fun e he => ?_
    unfold readContext at he
    split at he
    · cases he
    · split at he
      · cases he
      · cases he
      · cases he
        exact .raised
    · cases he
      exact .denied (by decide) (by decide) (by decide)
  · cases h
    exact .denied (fun hst => by cases hst) (fun hst => by cases hst) fun hst => by cases hst

theorem getStepped_find {ctx : GetContext}
    (h : getPcStep cfg f request w (.findHeld ctx) = some pc') :
    GetStepped cfg f request w (.findHeld ctx) pc' := by
  obtain ⟨impl, hs, rfl⟩ := Option.map_eq_some_iff.mp h
  unfold BlobSessionImpl.find
  cases hb : impl.blobs[request.blob.objectId]? with
  | some e => exact .blobFound ⟨impl, hs, hb⟩
  | none => exact .denied (by decide) (by decide) (by decide)

theorem getPcStep_cases (h : getPcStep cfg f request w pc = some pc') :
    GetStepped cfg f request w pc pc' := by
  cases pc with
  | called => exact getStepped_called h
  | ownerLookup ctx t =>
    cases h
    exact getStepped_ofExcept (fun _ ha => .ownerFound (live_of_getSessionImpl ha))
      fun _ => getStepped_raising
  | ownerHeld ctx t =>
    obtain ⟨impl, hs, rfl⟩ := Option.map_eq_some_iff.mp h
    exact .ownerChecked hs
  | resolving ctx =>
    dsimp only [getPcStep] at h
    split at h
    · rename_i hstorage
      split at h
      · cases h
        exact .denied (by decide) (by decide) (by decide)
      · rename_i hraw
        cases h
        exact getStepped_ofExcept (fun _ ha => .sessionFound hstorage (Bool.eq_false_iff.mpr hraw)
          (live_of_getSessionImpl ha)) fun _ => getStepped_raising
    · split at h
      · rename_i hstorage
        cases h
        exact getStepped_ofExcept (fun _ => .datastorePath hstorage) fun _ => getStepped_limestone
      · cases h
        exact .denied (by decide) (by decide) (by decide)
  | findHeld ctx => exact getStepped_find h
  | tagging ctx path =>
    dsimp only [getPcStep] at h
    split at h
    · rename_i t ht
      cases h
      exact getStepped_afterTag fun _ => .tagged ht
    · rename_i hnone
      cases h
      exact getStepped_ofExcept (fun _ ha => .tagSession hnone (live_of_getSessionImpl ha))
        fun _ => getStepped_raising
  | tagHeld ctx path =>
    obtain ⟨impl, hs, rfl⟩ := Option.map_eq_some_iff.mp h
    exact getStepped_afterTag fun _ => .sessionTagged hs
  | authorised path =>
    dsimp only [getPcStep] at h
    split at h
    · cases h
      exact .raised
    · split at h
      · cases h
        exact .present ‹_›
      · cases h
        exact .denied (by decide) (by decide) (by decide)
  | sizing path =>
    dsimp only [getPcStep] at h
    split at h
    · cases h
      exact .raised
    · rename_i n hsize
      cases h
      split at hsize
      · cases hsize
      · exact .sized hsize
  | opening path written =>
    dsimp only [getPcStep] at h
    split at h
    · cases h
      exact .raised
    · cases h
      exact .opened ‹_›
  | reading ins written =>
    dsimp only [getPcStep] at h
    split at h
    · cases h
      exact .ended ‹_›
    · cases h
      exact .sent ‹_›
  | finished o written => cases h

end Get

/-! ### Deletions -/

/-- The id that the next step of `remove` or `dispose` calls `delete_blob_file` on. -/
def RemovePc.deletes : RemovePc → Option ℕ
  | .removing (b :: _) => some b
  | _ => none

def DisposePc.deletes : DisposePc → Option ℕ
  | .deleting (b :: _) => some b
  | _ => none

/-- The steps of `remove` and of `dispose` up to its erasure: nothing happens, or
the id at hand is deleted. -/
inductive DeleteStepped (cfg : Config) (f : Fault) (w : World) (s : ℕ) : Option ℕ → World → Prop
  | same {b : Option ℕ} : DeleteStepped cfg f w s b w
  | deleted {b : ℕ} {e : Path × ℕ} {w' : World} : World.Erases cfg s b e w w' →
      DeleteStepped cfg f w s (some b) w'
  | deleteFails {b : ℕ} {e : Path × ℕ} : f.deletes ≠ .succeeds → w.manager.Entry s b e →
      DeleteStepped cfg f w s (some b) {w with manager := {w.manager with
        currentSize := release cfg.quota e.2 w.manager.currentSize}}

theorem deleteBlobFile_stepped {s b : ℕ} {r : Except Exn Unit}
    (h : w.deleteBlobFile cfg s b f.deletes = some (r, w')) :
    DeleteStepped cfg f w s (some b) w' := by
  rcases World.deleteBlobFile_cases h with ⟨rfl, _⟩ | ⟨e, _, her⟩ | ⟨e, x, _, hf, he, rfl⟩
  · exact .same
  · exact .deleted her
  · exact .deleteFails hf he

/-- A step that calls `delete_blob_file` and goes on as it ends. -/
theorem deleteBlobFile_called {α : Type} {s b : ℕ} {d : DeleteResult} {failed : Exn → α} {next : α}
    {x : World × α} (h : (match w.deleteBlobFile cfg s b d with
      | none => none
      | some (.error e, w) => some (w, failed e)
      | some (.ok (), w) => some (w, next)) = some x) :
    ∃ r, w.deleteBlobFile cfg s b d = some (r, x.1) := by
  split at h
  · cases h
  · rename_i hd
    cases h
    exact ⟨_, hd⟩
  · rename_i hd
    cases h
    exact ⟨_, hd⟩

theorem removeStep_cases {s : ℕ} {ids : List ℕ} {pc pc' : RemovePc}
    (h : removeStep cfg f s ids w pc = some (w', pc')) :
    DeleteStepped cfg f w s pc.deletes w' := by
  cases pc with
  | called =>
    dsimp only [removeStep] at h
    split at h <;> cases h <;> exact .same
  | removing rest =>
    cases rest with
    | nil =>
      cases h
      exact .same
    | cons b rest =>
      obtain ⟨r, hd⟩ := deleteBlobFile_called h
      exact deleteBlobFile_stepped hd
  | finished r => cases h

theorem disposeStep_cases {s : ℕ} {pc pc' : DisposePc}
    (h : disposeStep cfg f s w pc = some (w', pc')) :
    (pc ≠ .deleting [] ∧ DeleteStepped cfg f w s pc.deletes w') ∨
      (pc = .deleting [] ∧ w.manager.Live s ∧ w' = {w with manager := w.manager.dispose s}) := by
  cases pc with
  | called =>
    left
    dsimp only [disposeStep] at h
    split at h <;> cases h <;> exact ⟨nofun, .same⟩
  | listing =>
    left
    obtain ⟨impl, hs, he⟩ := Option.map_eq_some_iff.mp h
    cases he
    exact ⟨nofun, .same⟩
  | deleting rest =>
    cases rest with
    | nil =>
      right
      obtain ⟨impl, hs, he⟩ := Option.map_eq_some_iff.mp h
      cases he
      exact ⟨rfl, ⟨impl, hs⟩, rfl⟩
    | cons b rest =>
      obtain ⟨r, hd⟩ := deleteBlobFile_called h
      exact Or.inl ⟨nofun, deleteBlobFile_stepped hd⟩
  | finished r => cases h

/-! ### All handlers -/

/-- The session and id that the handler's next step calls `delete_blob_file` on. -/
def Handler.deletes : Handler → Option (ℕ × ℕ)
  | .put _ (.exhausted u) => some (u.session, u.blobId)
  | .remove s _ pc => pc.deletes.map fun b => (s, b)
  | .dispose s pc => pc.deletes.map fun b => (s, b)
  | _ => none

/-- The session that the handler's next step erases from the manager. -/
def Handler.erases : Handler → Option ℕ
  | .dispose s (.deleting []) => some s
  | _ => none

theorem handlerStep_put {pc : PutPc} {h' : Handler}
    (h : handlerStep cfg f w (.put messages pc) = some (w', h')) :
    ∃ pc', h' = .put messages pc' ∧ PutStepped cfg f messages w pc w' pc' := by
  obtain ⟨r, hr, he⟩ := Option.map_eq_some_iff.mp h
  cases he
  exact ⟨r.2, rfl, putStep_cases hr⟩

theorem handlerStep_get {request : GetStreamingRequest} {pc : GetPc} {h' : Handler}
    (h : handlerStep cfg f w (.get request pc) = some (w', h')) :
    w' = w ∧ ∃ pc', h' = .get request pc' ∧ GetStepped cfg f request w pc pc' := by
  obtain ⟨r, hr, he⟩ := Option.map_eq_some_iff.mp h
  cases he
  exact ⟨rfl, r, rfl, getPcStep_cases hr⟩

theorem handlerStep_remove {s : ℕ} {ids : List ℕ} {pc : RemovePc} {h' : Handler}
    (h : handlerStep cfg f w (.remove s ids pc) = some (w', h')) :
    (∃ pc', h' = .remove s ids pc') ∧ DeleteStepped cfg f w s pc.deletes w' := by
  obtain ⟨r, hr, he⟩ := Option.map_eq_some_iff.mp h
  cases he
  exact ⟨⟨r.2, rfl⟩, removeStep_cases hr⟩

theorem handlerStep_dispose {s : ℕ} {pc : DisposePc} {h' : Handler}
    (h : handlerStep cfg f w (.dispose s pc) = some (w', h')) :
    (∃ pc', h' = .dispose s pc') ∧ ((pc ≠ .deleting [] ∧ DeleteStepped cfg f w s pc.deletes w') ∨
      (pc = .deleting [] ∧ w.manager.Live s ∧ w' = {w with manager := w.manager.dispose s})) := by
  obtain ⟨r, hr, he⟩ := Option.map_eq_some_iff.mp h
  cases he
  exact ⟨⟨r.2, rfl⟩, disposeStep_cases hr⟩

end BlobRelay
