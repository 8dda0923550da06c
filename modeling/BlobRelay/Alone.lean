import BlobRelay.GetDecision
import BlobRelay.Session

/-! # A handler alone is the handler whole

`put`, `get`, `removeList` and `dispose` say what a call does when nothing runs
beside it; `handlerStep` cuts the same calls into atomic steps. The first are runs
of the second with no step of anyone else between. -/

namespace BlobRelay
open Foundation Foundation.FileStore

/-- Steps of one handler, nobody else moving. -/
def Reaches (cfg : Config) (w : World) (t : Handler) (w' : World) (t' : Handler) : Prop :=
  ∃ fs : List Fault, Run (fun f (x : World × Handler) => handlerStep cfg f x.1 x.2)
    (fun _ _ => True) (w, t) fs (w', t')

def Fault.ofWrite : WriteResult → Fault
  | Option.none => .none
  | some kept => .writeFails kept

def Fault.ofDelete : DeleteResult → Fault
  | .succeeds => .none
  | .existsThrows => .existsThrows
  | .removeThrows => .removeThrows

def Fault.ofOpen (opens : Bool) : Fault := if opens then .none else .openFails

@[simp] theorem opens_ofOpen (opens : Bool) : decide (Fault.ofOpen opens ≠ .openFails) = opens := by
  cases opens <;> rfl

def Fault.ofSize (returns : Bool) : Fault := if returns then .none else .sizeThrows

theorem size_ofSize {α : Type} (returns : Bool) (a b : α) :
    (if Fault.ofSize returns = .sizeThrows then a else b) = if returns then b else a := by
  cases returns <;> rfl

@[simp] theorem writes_ofWrite (r : WriteResult) : (Fault.ofWrite r).writes = r := by
  cases r <;> rfl

@[simp] theorem deletes_ofDelete (r : DeleteResult) : (Fault.ofDelete r).deletes = r := by
  cases r <;> rfl

variable {cfg : Config} {env : PutEnv} {w w₁ w' : World} {t t₁ t' : Handler}

namespace Reaches

theorem refl (cfg : Config) (w : World) (t : Handler) : Reaches cfg w t w t := ⟨[], .nil _⟩

theorem step (f : Fault) (h : handlerStep cfg f w t = some (w₁, t₁))
    (hrest : Reaches cfg w₁ t₁ w' t') : Reaches cfg w t w' t' := by
  obtain ⟨fs, hrun⟩ := hrest
  exact ⟨f :: fs, .cons trivial h hrun⟩

theorem trans {w₂ : World} {t₂ : Handler} (h : Reaches cfg w t w₁ t₁)
    (h' : Reaches cfg w₁ t₁ w₂ t₂) : Reaches cfg w t w₂ t₂ := by
  obtain ⟨fs, hrun⟩ := h
  obtain ⟨gs, hrun'⟩ := h'
  exact ⟨fs ++ gs, hrun.append hrun'⟩

/-- Alone in the pool, or among others that do not move. -/
theorem system (h : Reaches cfg w t w' t') {threads : List Handler} {i : ℕ}
    (hi : threads[i]? = some t) :
    ∃ ls, Run (systemStep cfg) (fun _ _ => True) ⟨w, threads⟩ ls ⟨w', threads.set i t'⟩ := by
  obtain ⟨fs, hrun⟩ := h
  have hlt : i < threads.length := (List.getElem?_eq_some_iff.mp hi).1
  have hstart : threads.set i t = threads := by
    rw [← (List.getElem?_eq_some_iff.mp hi).2, List.set_getElem_self]
  have hsim : Run (systemStep cfg) (fun _ _ => True) (⟨w, threads.set i t⟩ : System)
      (fs.map (Move.run i)) ⟨w', threads.set i t'⟩ := by
    refine hrun.simulate (fun x => (⟨x.1, threads.set i x.2⟩ : System)) (Move.run i) ?_
    intro x f y _ hstep
    have hx : (threads.set i x.2)[i]? = some x.2 := List.getElem?_set_self hlt
    refine ⟨trivial, ?_⟩
    simp only [systemStep, Pool.step, hx, Option.bind_some, hstep, Option.map_some, List.set_set]
  exact ⟨_, hstart ▸ hsim⟩

end Reaches

/-! ### Put -/

theorem put_step {messages : List PutStreamingRequest} {pc pc₁ : PutPc} {f : Fault}
    (h : putStep cfg f messages w pc = some (w₁, pc₁))
    (hrest : Reaches cfg w₁ (.put messages pc₁) w' t') :
    Reaches cfg w (.put messages pc) w' t' :=
  hrest.step f (by simp only [handlerStep, h, Option.map_some])

theorem put_last {messages : List PutStreamingRequest} {pc pc' : PutPc} {f : Fault}
    (h : putStep cfg f messages w pc = some (w', pc')) :
    Reaches cfg w (.put messages pc) w' (.put messages pc') :=
  put_step h (.refl cfg w' _)

theorem finishPut_reaches {messages : List PutStreamingRequest} {u : Upload} {n : ℕ}
    {o : PutOutcome} (hl : w.manager.Live u.session)
    (h : finishPut cfg env u.session u.blobId u.path u.blobSizeOpt n w = (o, w')) :
    Reaches cfg w (.put messages (.received u n)) w' (.put messages (.finished (some u) o)) := by
  unfold finishPut at h
  split at h
  · rename_i hm
    split at h
    · cases h
      have hstep : putStep cfg .none messages w (.received u n) =
          some ({w with files := w.files.unlink u.path},
            .finished (some u) (.returned PutStatus.sizeMismatch none)) := by
        simp only [putStep, hm, if_true]
        rfl
      exact put_last hstep
    · cases h
      have hstep : putStep cfg .removeThrows messages w (.received u n) =
          some (w, .finished (some u) (.thrown (.filesystemError "remove"))) := by
        simp only [putStep, hm, if_true]
      exact put_last hstep
  · rename_i hm
    cases h
    obtain ⟨impl, hs⟩ := hl
    have hstep : putStep cfg .none messages w (.received u n) = some (w, .tagging u) := by
      simp only [putStep, if_neg hm]
    have htag : putStep cfg .none messages w (.tagging u) =
        some (w, .finished (some u) (putResponse cfg u.session u.blobId)) := by
      simp only [putStep, hs, Option.map_some]
    exact put_step hstep (put_last htag)

theorem exhausted_reaches {messages : List PutStreamingRequest} {u : Upload} {d : DeleteResult}
    {r : Except Exn Unit} (h : w.deleteBlobFile cfg u.session u.blobId d = some (r, w')) :
    Reaches cfg w (.put messages (.exhausted u)) w' (.put messages (.finished (some u)
      (match r with
        | .ok () => .returned PutStatus.exhausted none
        | .error e => putCatch e))) := by
  cases r with
  | ok =>
    have hstep : putStep cfg (.ofDelete d) messages w (.exhausted u) =
        some (w', .finished (some u) (.returned PutStatus.exhausted none)) := by
      simp only [putStep, deletes_ofDelete, h]
    exact put_last hstep
  | error e =>
    have hstep : putStep cfg (.ofDelete d) messages w (.exhausted u) =
        some (w', .finished (some u) (putCatch e)) := by
      simp only [putStep, deletes_ofDelete, h]
    exact put_last hstep

theorem notChunk_reaches {messages rest : List PutStreamingRequest} {u : Upload} {n : ℕ}
    {out : OutStream} {m : PutStreamingRequest} (hm : m.isChunk = false) :
    Reaches cfg w (.put messages (.receiving u out n (m :: rest)))
      {w with files := out.close env.closes w.files}
      (.put messages (.finished (some u) (.returned PutStatus.notChunk none))) := by
  have hstep : putStep cfg (.ofWrite env.closes) messages w (.receiving u out n (m :: rest)) =
      some ({w with files := out.close env.closes w.files},
        .finished (some u) (.returned PutStatus.notChunk none)) := by
    cases m with
    | chunk bytes => cases hm
    | _ => simp only [putStep, writes_ofWrite]
  exact put_last hstep

theorem receive_reaches {messages rest : List PutStreamingRequest} {u : Upload} {k n : ℕ}
    {out : OutStream} {o : PutOutcome} (hl : w.manager.Live u.session)
    (h : receive cfg env u.session u.blobId u.path u.blobSizeOpt k out n rest w = some (o, w')) :
    Reaches cfg w (.put messages (.receiving u out n rest)) w'
      (.put messages (.finished (some u) o)) := by
  induction rest generalizing k n out w with
  | nil =>
    have hstep : putStep cfg (.ofWrite env.closes) messages w (.receiving u out n []) =
        some ({w with files := out.close env.closes w.files}, .received u n) := by
      simp only [putStep, writes_ofWrite]
    have hl' : World.manager {w with files := out.close env.closes w.files} = w.manager := rfl
    exact put_step hstep (finishPut_reaches (hl' ▸ hl) (Option.some.inj h))
  | cons m rest ih =>
    cases m with
    | metadata m =>
      cases h
      exact notChunk_reaches rfl
    | unset =>
      cases h
      exact notChunk_reaches rfl
    | chunk bytes =>
      simp only [receive] at h
      split at h
      · cases h
      · rename_i e w₁ hr
        cases h
        have hstep : putStep cfg (.ofWrite env.closes) messages w
            (.receiving u out n (.chunk bytes :: rest)) =
            some ({w₁ with files := out.close env.closes w₁.files},
              .finished (some u) (putCatch e)) := by
          simp only [putStep, hr, writes_ofWrite]
        exact put_last hstep
      · rename_i w₁ hr
        have hstep : putStep cfg (.ofWrite env.closes) messages w
            (.receiving u out n (.chunk bytes :: rest)) =
            some ({w₁ with files := out.close env.closes w₁.files}, .exhausted u) := by
          simp only [putStep, hr, writes_ofWrite]
        refine put_step hstep ?_
        split at h
        · cases h
        · rename_i e w₂ hd
          cases h
          exact exhausted_reaches hd
        · rename_i w₂ hd
          cases h
          exact exhausted_reaches hd
      · rename_i w₁ hr
        have hl₁ : w₁.manager.Live u.session := by
          rcases World.reserveSessionStore_cases hr with ⟨hbad, _⟩ | ⟨e, _, hch⟩ | ⟨hbad, _⟩
          · cases hbad
          · exact (hch.sessions.live _).mpr hl
          · cases hbad
        have hstep : putStep cfg (.ofWrite (env.writes k)) messages w
            (.receiving u out n (.chunk bytes :: rest)) =
            some ({w₁ with files := (out.write (env.writes k) bytes w₁.files).2},
              .receiving u (out.write (env.writes k) bytes w₁.files).1 (add64 n bytes.length)
                rest) := by
          simp only [putStep, hr, writes_ofWrite]
        exact put_step hstep (ih hl₁ h)

theorem putInto_reaches (messages : List PutStreamingRequest)
    {rest : List PutStreamingRequest} {s : ℕ} {blobSizeOpt : Option ℕ}
    {o : PutOutcome} (hl : w.manager.Live s)
    (h : putInto cfg env s blobSizeOpt rest w = some (o, w')) :
    ∃ u, Reaches cfg w (.put messages (.located s blobSizeOpt rest)) w'
      (.put messages (.finished (some u) o)) := by
  unfold putInto at h
  split at h
  · cases h
  · rename_i b path w₁ hc
    have hl₁ : w₁.manager.Live s := ((World.createBlobFile_spec hc).2.sessions.live s).mpr hl
    have hcreate : putStep cfg .none messages w (.located s blobSizeOpt rest) =
        some (w₁, .created ⟨s, b, path, blobSizeOpt⟩ rest) := by
      simp only [putStep, hc]
    refine ⟨⟨s, b, path, blobSizeOpt⟩, put_step hcreate ?_⟩
    split at h
    · rename_i ho
      cases h
      have hopen : putStep cfg (.ofOpen env.opens) messages w'
          (.created ⟨s, b, path, blobSizeOpt⟩ rest) =
          some (w', .finished (some ⟨s, b, path, blobSizeOpt⟩)
            (.returned PutStatus.cannotOpen none)) := by
        simp only [putStep, opens_ofOpen, ho]
      exact put_last hopen
    · rename_i out files ho
      have hopen : putStep cfg (.ofOpen env.opens) messages w₁
          (.created ⟨s, b, path, blobSizeOpt⟩ rest) =
          some ({w₁ with files := files}, .receiving ⟨s, b, path, blobSizeOpt⟩ out 0 rest) := by
        simp only [putStep, opens_ofOpen, ho]
      exact put_step hopen (receive_reaches (u := ⟨s, b, path, blobSizeOpt⟩) hl₁ h)

/-- `Put` running alone is a run of its steps. -/
theorem put_reaches {messages : List PutStreamingRequest} {o : PutOutcome}
    (h : put cfg env messages w = some (o, w')) :
    ∃ u, Reaches cfg w (.put messages .called) w' (.put messages (.finished u o)) := by
  unfold put at h
  split at h
  · cases h
    exact ⟨none, put_last (f := .none) rfl⟩
  · rename_i m rest
    split at h
    · rename_i hv
      split at h
      · rename_i e hs
        cases h
        have hstep : putStep cfg .none (.metadata m :: rest) w .called =
            some (w, .finished none (putCatch e)) := by
          simp only [putStep, hv, if_true, hs]
        exact ⟨none, put_last hstep⟩
      · rename_i impl hs
        have hl : w.manager.Live m.sessionId := ⟨impl, BlobSessionManager.getSessionImpl_ok hs⟩
        have hstep : putStep cfg .none (.metadata m :: rest) w .called =
            some (w, .located m.sessionId m.blobSize rest) := by
          simp only [putStep, hv, if_true, hs]
        obtain ⟨u, hrest⟩ := putInto_reaches (.metadata m :: rest) hl h
        exact ⟨some u, put_step hstep hrest⟩
    · rename_i hv
      cases h
      have hstep : putStep cfg .none (.metadata m :: rest) w .called =
          some (w, .finished none (.returned (PutStatus.apiVersion m.apiVersion) none)) := by
        simp only [putStep, if_neg hv]
      exact ⟨none, put_last hstep⟩
  · cases h
    exact ⟨none, put_last (f := .none) rfl⟩
  · cases h
    exact ⟨none, put_last (f := .none) rfl⟩

/-- What a `Put` alone does, the system can do with every other handler standing still. -/
theorem put_in_system {messages : List PutStreamingRequest} {o : PutOutcome}
    (h : put cfg env messages w = some (o, w')) {threads : List Handler} {i : ℕ}
    (hi : threads[i]? = some (.put messages .called)) :
    ∃ u ls, Run (systemStep cfg) (fun _ _ => True) ⟨w, threads⟩ ls
      ⟨w', threads.set i (.put messages (.finished u o))⟩ := by
  obtain ⟨u, hreach⟩ := put_reaches h
  exact ⟨u, hreach.system hi⟩

/-! ### Get -/

variable {request : GetStreamingRequest} {f : Fault} {path : Path}

theorem get_step {pc pc₁ : GetPc} (h : getPcStep cfg f request w pc = some pc₁)
    (hrest : Reaches cfg w (.get request pc₁) w' t') : Reaches cfg w (.get request pc) w' t' :=
  hrest.step f (by simp only [handlerStep, h, Option.map_some])

theorem get_last {pc pc' : GetPc} (h : getPcStep cfg f request w pc = some pc') :
    Reaches cfg w (.get request pc) w (.get request pc') :=
  get_step h (.refl cfg w _)

/-- From here the checks before the file is touched end as `r`. -/
def Decides (cfg : Config) (w : World) (request : GetStreamingRequest) (pc : GetPc)
    (r : Except GetExit Path) : Prop :=
  Reaches cfg w (.get request pc) w (.get request (.ofExcept .authorised r))

/-- A stage that yields a value leaves the decision to the rest. -/
theorem decides_bind {α : Type} {pc : GetPc} {next : α → GetPc} {x : Except GetExit α}
    {rest : α → Except GetExit Path}
    (hstep : getPcStep cfg f request w pc = some (.ofExcept next x))
    (hrest : ∀ a, x = .ok a → Decides cfg w request (next a) (rest a)) :
    Decides cfg w request pc (x >>= rest) := by
  cases x with
  | ok a => exact get_step hstep (hrest a rfl)
  | error e => exact get_last hstep

theorem afterTag_eq (x : Except GetExit BlobTag) :
    GetPc.afterTag cfg request path x = .ofExcept .authorised (do
      let expected ← x
      checkTag cfg expected request.blob.tag
      pure path) := by
  cases x with
  | error e => rfl
  | ok tag =>
    unfold GetPc.afterTag
    show GetPc.ofExcept _ (checkTag cfg tag request.blob.tag) =
      GetPc.ofExcept _ (checkTag cfg tag request.blob.tag >>= fun _ => pure path)
    cases checkTag cfg tag request.blob.tag <;> rfl

theorem tagging_decides (ctx : GetContext) :
    Decides cfg w request (.tagging ctx path) (do
      let expected ← expectedTag cfg w.manager ctx request.blob.objectId
      checkTag cfg expected request.blob.tag
      pure path) := by
  unfold expectedTag
  cases ht : ctx.transactionId with
  | some t =>
    have hstep : getPcStep cfg .none request w (.tagging ctx path) =
        some (.afterTag cfg request path (raising (cfg.api.getTag request.blob.objectId t))) := by
      simp only [getPcStep, ht]
    rw [afterTag_eq] at hstep
    exact get_last hstep
  | none =>
    have hstep : getPcStep cfg .none request w (.tagging ctx path) =
        some (.ofExcept (fun _ => .tagHeld ctx path)
          (raising (w.manager.getSessionImpl ctx.sessionId))) := by
      simp only [getPcStep, ht]
    rw [bind_assoc]
    refine decides_bind hstep fun impl hi => ?_
    have hs := BlobSessionManager.getSessionImpl_ok (raising_ok_iff.mp hi)
    have hheld : getPcStep cfg .none request w (.tagHeld ctx path) =
        some (.afterTag cfg request path
          (raising (impl.getTag cfg ctx.sessionId request.blob.objectId))) := by
      simp only [getPcStep, hs, Option.map_some]
    rw [afterTag_eq] at hheld
    exact get_last hheld

theorem resolving_decides {ctx : GetContext} {rest : Path → Except GetExit Path}
    (hrest : ∀ path, Decides cfg w request (.tagging ctx path) (rest path)) :
    Decides cfg w request (.resolving ctx) (resolvePath cfg w ctx request.blob >>= rest) := by
  unfold resolvePath
  by_cases h0 : request.blob.storageId = sessionStorageId
  · rw [if_pos h0]
    by_cases hraw : ctx.rawTransaction = true
    · have hstep : getPcStep cfg .none request w (.resolving ctx) =
          some (.finished (.returned GetStatus.noBlob) []) := by
        simp only [getPcStep, if_pos h0, if_pos hraw]
      rw [if_pos hraw]
      exact get_last hstep
    · have hstep : getPcStep cfg .none request w (.resolving ctx) =
          some (.ofExcept (fun _ => .findHeld ctx)
            (raising (w.manager.getSessionImpl ctx.sessionId))) := by
        simp only [getPcStep, if_pos h0, if_neg hraw]
      rw [if_neg hraw, bind_assoc]
      refine decides_bind hstep fun impl hi => ?_
      have hs := BlobSessionManager.getSessionImpl_ok (raising_ok_iff.mp hi)
      have hfind : getPcStep cfg .none request w (.findHeld ctx) =
          some (.ofExcept (.tagging ctx) (foundPath (impl.find request.blob.objectId))) := by
        simp only [getPcStep, hs, Option.map_some]
      exact decides_bind hfind fun path _ => hrest path
  · rw [if_neg h0]
    by_cases h1 : request.blob.storageId = limestoneBlobStore
    · have hstep : getPcStep cfg .none request w (.resolving ctx) =
          some (.ofExcept (.tagging ctx) (limestonePath cfg w.files request.blob.objectId)) := by
        simp only [getPcStep, if_neg h0, if_pos h1]
      rw [if_pos h1]
      exact decides_bind hstep fun path _ => hrest path
    · have hstep : getPcStep cfg .none request w (.resolving ctx) =
          some (.finished (.returned GetStatus.noStorage) []) := by
        simp only [getPcStep, if_neg h0, if_neg h1]
      rw [if_neg h1]
      exact get_last hstep

theorem afterContext_decides {ctx : GetContext} {rest : Except GetExit Path}
    (hrest : Decides cfg w request (.resolving ctx) rest) :
    Decides cfg w request (GetPc.afterContext ctx) (checkOwner w.manager ctx >>= fun _ => rest) := by
  cases ht : ctx.transactionId with
  | none =>
    simp only [GetPc.afterContext, checkOwner, ht]
    exact hrest
  | some t =>
    cases hr : ctx.rawTransaction with
    | true =>
      simp only [GetPc.afterContext, checkOwner, ht, hr]
      exact hrest
    | false =>
      have hstep : getPcStep cfg .none request w (.ownerLookup ctx t) =
          some (.ofExcept (fun _ => .ownerHeld ctx t)
            (raising (w.manager.getSessionImpl ctx.sessionId))) := rfl
      simp only [GetPc.afterContext, checkOwner, ht, hr]
      rw [bind_assoc]
      refine decides_bind hstep fun impl hi => ?_
      have hs := BlobSessionManager.getSessionImpl_ok (raising_ok_iff.mp hi)
      have hheld : getPcStep cfg .none request w (.ownerHeld ctx t) =
          some (.ofExcept (fun _ => .resolving ctx) (ownerCheck impl.transactionIdOpt t)) := by
        simp only [getPcStep, hs, Option.map_some]
      exact decides_bind hheld fun _ _ => hrest

theorem authorise_decides (cfg : Config) (w : World) (hv : checkApiVersion request.apiVersion = true) :
    Decides cfg w request .called (authorise cfg w request) := by
  have hstep : getPcStep cfg .none request w .called =
      some (.ofExcept GetPc.afterContext (readContext w.manager request.contextId)) := by
    simp only [getPcStep, hv, if_true]
  refine decides_bind hstep fun ctx _ => afterContext_decides ?_
  exact resolving_decides fun path => tagging_decides ctx

theorem drain_reaches {fuel : ℕ} {ins : InStream} {chunks : List Bytes}
    (h : drain cfg.streamChunkSize w.files fuel ins = some chunks)
    (written : List GetStreamingResponse) :
    Reaches cfg w (.get request (.reading ins written)) w
      (.get request (.finished (.returned GetStatus.ok) (written ++ chunks.map .chunk))) := by
  induction fuel generalizing ins written chunks with
  | zero => cases h
  | succ fuel ih =>
    simp only [drain] at h
    split at h
    · rename_i hend
      cases h
      have hstep : getPcStep cfg .none request w (.reading ins written) =
          some (.finished (.returned GetStatus.ok) written) := by
        simp only [getPcStep, if_pos hend]
      rw [List.map_nil, List.append_nil]
      exact get_last hstep
    · rename_i hmore
      obtain ⟨rest, hrest, rfl⟩ := Option.map_eq_some_iff.mp h
      have hstep : getPcStep cfg .none request w (.reading ins written) =
          some (.reading (ins.read cfg.streamChunkSize w.files).2
            (written ++ [.chunk (ins.read cfg.streamChunkSize w.files).1])) := by
        simp only [getPcStep, if_neg hmore]
      have hnext := ih hrest (written ++ [.chunk (ins.read cfg.streamChunkSize w.files).1])
      rw [List.append_assoc] at hnext
      exact get_step hstep hnext

theorem sendBlob_reaches {genv : GetEnv} {o : GetOutcome} {written : List GetStreamingResponse}
    (h : sendBlob cfg genv w.files path = some (o, written)) :
    Reaches cfg w (.get request (.authorised path)) w (.get request (.finished o written)) := by
  unfold sendBlob at h
  split at h
  · split at h
    · rename_i hpresent
      have hexists : getPcStep cfg .none request w (.authorised path) = some (.sizing path) := by
        simp only [getPcStep, if_neg Fault.none_sparesGet.looks, if_pos hpresent]
      refine get_step hexists ?_
      split at h
      · rename_i hsize
        cases h
        have hstep : getPcStep cfg (.ofSize genv.sizeReturns) request w (.sizing path) =
            some (.finished (getCatch (.filesystemError "file_size")) []) := by
          simp only [getPcStep, size_ofSize, hsize]
        exact get_last hstep
      · rename_i n hsize
        have hstep : getPcStep cfg (.ofSize genv.sizeReturns) request w (.sizing path) =
            some (.opening path [.metadata (some n)]) := by
          simp only [getPcStep, size_ofSize, hsize]
        refine get_step hstep ?_
        split at h
        · obtain ⟨chunks, hdrain, heq⟩ := Option.map_eq_some_iff.mp h
          cases heq
          have hopen : getPcStep cfg (.ofOpen genv.opens) request w
              (.opening path [.metadata (some n)]) =
              some (.reading (openRead w.files genv.opens path) [.metadata (some n)]) := by
            have hne : Fault.ofOpen genv.opens ≠ .allocFails := by
              cases genv.opens <;> decide
            simp only [getPcStep, if_neg hne, opens_ofOpen]
          exact get_step hopen (drain_reaches hdrain [.metadata (some n)])
        · cases h
          have hopen : getPcStep cfg .allocFails request w (.opening path [.metadata (some n)]) =
              some (.finished (getCatch (.stdException "std::bad_alloc")) [.metadata (some n)]) := by
            simp only [getPcStep, if_true]
          exact get_last hopen
    · rename_i habsent
      cases h
      have hexists : getPcStep cfg .none request w (.authorised path) =
          some (.finished (.returned GetStatus.noFile) []) := by
        simp only [getPcStep, if_neg Fault.none_sparesGet.looks, if_neg habsent]
      exact get_last hexists
  · cases h
    have hthrows : getPcStep cfg .existsThrows request w (.authorised path) =
        some (.finished (getCatch (.filesystemError "status")) []) := by
      simp only [getPcStep, if_true]
    exact get_last hthrows

theorem get_reaches {genv : GetEnv} {o : GetOutcome} {written : List GetStreamingResponse}
    (h : get cfg genv request w = some (o, written)) :
    Reaches cfg w (.get request .called) w (.get request (.finished o written)) := by
  unfold get at h
  split at h
  · rename_i hv
    have hdecides := authorise_decides cfg w hv
    split at h
    · rename_i path hauth
      rw [hauth] at hdecides
      exact hdecides.trans (sendBlob_reaches h)
    · rename_i e hauth
      cases h
      rw [hauth] at hdecides
      exact hdecides
  · rename_i hv
    cases h
    have hstep : getPcStep cfg .none request w .called =
        some (.finished (.returned (GetStatus.apiVersion request.apiVersion)) []) := by
      simp only [getPcStep, if_neg hv]
    exact get_last hstep

theorem get_in_system {genv : GetEnv} {o : GetOutcome} {written : List GetStreamingResponse}
    (h : get cfg genv request w = some (o, written)) {threads : List Handler} {i : ℕ}
    (hi : threads[i]? = some (.get request .called)) :
    ∃ ls, Run (systemStep cfg) (fun _ _ => True) ⟨w, threads⟩ ls
      ⟨w, threads.set i (.get request (.finished o written))⟩ :=
  (get_reaches h).system hi

/-! ### remove and dispose -/

variable {s : ℕ} {deletes : ℕ → DeleteResult} {r : Except Exn Unit}

theorem remove_step {ids : List ℕ} {pc pc₁ : RemovePc}
    (h : removeStep cfg f s ids w pc = some (w₁, pc₁))
    (hrest : Reaches cfg w₁ (.remove s ids pc₁) w' t') :
    Reaches cfg w (.remove s ids pc) w' t' :=
  hrest.step f (by simp only [handlerStep, h, Option.map_some])

theorem dispose_step {pc pc₁ : DisposePc} (h : disposeStep cfg f s w pc = some (w₁, pc₁))
    (hrest : Reaches cfg w₁ (.dispose s pc₁) w' t') : Reaches cfg w (.dispose s pc) w' t' :=
  hrest.step f (by simp only [handlerStep, h, Option.map_some])

theorem removing_reaches {ids rest : List ℕ} {k : ℕ}
    (h : deleteEach cfg s deletes k rest w = some (r, w')) :
    Reaches cfg w (.remove s ids (.removing rest)) w' (.remove s ids (.finished r)) := by
  induction rest generalizing k w with
  | nil =>
    cases h
    have hstep : removeStep cfg .none s ids w' (.removing []) =
        some (w', .finished (.ok ())) := rfl
    exact remove_step hstep (.refl _ _ _)
  | cons b rest ih =>
    simp only [deleteEach] at h
    split at h
    · cases h
    · rename_i e w₁ hd
      cases h
      have hstep : removeStep cfg (.ofDelete (deletes k)) s ids w (.removing (b :: rest)) =
          some (w', .finished (.error e)) := by
        simp only [removeStep, deletes_ofDelete, hd]
      exact remove_step hstep (.refl _ _ _)
    · rename_i w₁ hd
      have hstep : removeStep cfg (.ofDelete (deletes k)) s ids w (.removing (b :: rest)) =
          some (w₁, .removing rest) := by
        simp only [removeStep, deletes_ofDelete, hd]
      exact remove_step hstep (ih h)

theorem deleteBlobFile_live {b : ℕ} {d : DeleteResult} (hl : w.manager.Live s)
    (h : w.deleteBlobFile cfg s b d = some (r, w')) : w'.manager.Live s := by
  rcases World.deleteBlobFile_cases h with ⟨rfl, _⟩ | ⟨e, _, her⟩ | ⟨e, x, _, _, _, rfl⟩
  · exact hl
  · exact (her.sessions.live s).mpr hl
  · exact hl

theorem deleting_reaches {rest : List ℕ} {k : ℕ} (hl : w.manager.Live s)
    (h : deleteEach cfg s deletes k rest w = some (r, w')) :
    (∀ e, r = .error e → Reaches cfg w (.dispose s (.deleting rest)) w'
      (.dispose s (.finished (.error e)))) ∧
    (r = .ok () → Reaches cfg w (.dispose s (.deleting rest)) w' (.dispose s (.deleting [])) ∧
      w'.manager.Live s) := by
  induction rest generalizing k w with
  | nil =>
    cases h
    refine ⟨fun e he => ?_, fun _ => ⟨.refl _ _ _, hl⟩⟩
    cases he
  | cons b rest ih =>
    simp only [deleteEach] at h
    split at h
    · cases h
    · rename_i e w₁ hd
      cases h
      have hstep : disposeStep cfg (.ofDelete (deletes k)) s w (.deleting (b :: rest)) =
          some (w', .finished (.error e)) := by
        simp only [disposeStep, deletes_ofDelete, hd]
      refine ⟨fun e' he => ?_, fun hr => by cases hr⟩
      cases he
      exact dispose_step hstep (.refl _ _ _)
    · rename_i w₁ hd
      have hstep : disposeStep cfg (.ofDelete (deletes k)) s w (.deleting (b :: rest)) =
          some (w₁, .deleting rest) := by
        simp only [disposeStep, deletes_ofDelete, hd]
      obtain ⟨hfail, hok⟩ := ih (deleteBlobFile_live hl hd) h
      exact ⟨fun e he => dispose_step hstep (hfail e he),
        fun hr => ⟨dispose_step hstep (hok hr).1, (hok hr).2⟩⟩

theorem remove_reaches {ids : List ℕ}
    (h : BlobSession.removeList cfg s deletes ids w = some (r, w')) :
    Reaches cfg w (.remove s ids .called) w' (.remove s ids (.finished r)) := by
  unfold BlobSession.removeList at h
  split at h
  · rename_i e hs
    cases h
    have hstep : removeStep cfg .none s ids w .called = some (w, .finished (.error e)) := by
      simp only [removeStep, hs]
    exact remove_step hstep (.refl _ _ _)
  · rename_i impl hs
    have hstep : removeStep cfg .none s ids w .called = some (w, .removing ids) := by
      simp only [removeStep, hs]
    exact remove_step hstep (removing_reaches h)

theorem dispose_reaches (h : BlobSession.dispose cfg s deletes w = some (r, w')) :
    Reaches cfg w (.dispose s .called) w' (.dispose s (.finished r)) := by
  unfold BlobSession.dispose at h
  split at h
  · rename_i e hs
    cases h
    have hstep : disposeStep cfg .none s w .called = some (w, .finished (.error e)) := by
      simp only [disposeStep, hs]
    exact dispose_step hstep (.refl _ _ _)
  · rename_i impl hs
    have hi := BlobSessionManager.getSessionImpl_ok hs
    have hcalled : disposeStep cfg .none s w .called = some (w, .listing) := by
      simp only [disposeStep, hs]
    have hlisting : disposeStep cfg .none s w .listing = some (w, .deleting impl.entries) := by
      simp only [disposeStep, hi, Option.map_some]
    refine dispose_step hcalled (dispose_step hlisting ?_)
    split at h
    · cases h
    · rename_i e w₁ hd
      cases h
      exact (deleting_reaches ⟨impl, hi⟩ hd).1 e rfl
    · rename_i w₁ hd
      cases h
      obtain ⟨hreach, impl₁, hi₁⟩ := (deleting_reaches ⟨impl, hi⟩ hd).2 rfl
      have herase : disposeStep cfg .none s w₁ (.deleting []) =
          some ({w₁ with manager := w₁.manager.dispose s}, .finished (.ok ())) := by
        simp only [disposeStep, hi₁, Option.map_some]
      exact hreach.trans (dispose_step herase (.refl _ _ _))

end BlobRelay
