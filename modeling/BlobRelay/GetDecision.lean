import BlobRelay.Reachability

/-! # To whom `Get` sends what

The access rule of the service, stated on the state and the request alone, and
that `authorise` computes it: the context, the place of the blob, the key of the
expected tag. -/

namespace BlobRelay
open Foundation Foundation.FileStore

/-- The session a context stands for. -/
def contextSession (m : BlobSessionManager) : Option ContextId → Option ℕ
  | some (.sessionId s) => some s
  | some (.transactionId t) => m.blobSessionIds[t]?
  | none => none

/-- A live session, or any transaction; one without a session reaches only the
datastore. -/
def ContextResolves (m : BlobSessionManager) (storageId : ℕ) : Option ContextId → Prop
  | some (.sessionId s) => m.Live s
  | some (.transactionId t) => m.blobSessionIds[t]? ≠ none ∨ storageId = limestoneBlobStore
  | none => False

/-- Where the blob is: the path recorded in the context's session, or the
datastore's own. -/
def BlobPath (cfg : Config) (m : BlobSessionManager) (request : GetStreamingRequest)
    (path : Path) : Prop :=
  (request.blob.storageId = sessionStorageId ∧
    ∃ s n, contextSession m request.contextId = some s ∧
      m.Entry s request.blob.objectId (path, n)) ∨
  (request.blob.storageId = limestoneBlobStore ∧
    cfg.api.getPath request.blob.objectId = .ok path)

/-- The transaction that the expected tag is computed for. -/
def TagKey (m : BlobSessionManager) : Option ContextId → TransactionId → Prop
  | some (.sessionId s), k => ∃ t, m.Owner s t ∧ k = t.getD s
  | some (.transactionId t), k => k = t
  | none, _ => False

/-- The datastore has a tag for the blob, and the given one is that tag or a mock
tag that the configuration lets pass. -/
def TagAccepted (cfg : Config) (m : BlobSessionManager) (request : GetStreamingRequest) : Prop :=
  ∃ k tag, TagKey m request.contextId k ∧ cfg.api.getTag request.blob.objectId k = .ok tag ∧
    (request.blob.tag = tag ∨ (cfg.devAcceptMockTag = true ∧ request.blob.tag = mockTag))

/-- Everything that has to hold for the file at `path` to be sent. -/
structure Granted (cfg : Config) (w : World) (request : GetStreamingRequest) (path : Path) :
    Prop where
  context : ContextResolves w.manager request.blob.storageId request.contextId
  blob : BlobPath cfg w.manager request path
  tag : TagAccepted cfg w.manager request

variable {cfg : Config} {w : World} {request : GetStreamingRequest} {ctx : GetContext} {path : Path}

/-! ### The stages of `authorise` -/

theorem bind_ok_iff {ε α β : Type} {x : Except ε α} {f : α → Except ε β} {b : β} :
    (x >>= f) = .ok b ↔ ∃ a, x = .ok a ∧ f a = .ok b := by
  cases x with
  | ok a =>
    constructor
    · exact fun h => ⟨a, rfl, h⟩
    · rintro ⟨_, ha, h⟩
      cases ha
      exact h
  | error e =>
    constructor
    · intro h
      cases h
    · rintro ⟨_, ha, _⟩
      cases ha

theorem ok_bind {ε α β : Type} (a : α) (f : α → Except ε β) : (Except.ok a >>= f) = f a := rfl

theorem raising_ok_iff {α : Type} {x : Except Exn α} {a : α} : raising x = .ok a ↔ x = .ok a := by
  cases x with
  | ok b => simp only [raising, Except.ok.injEq]
  | error e => simp only [raising, reduceCtorEq]

theorem readContext_transaction {m : BlobSessionManager} {t : TransactionId} :
    readContext m (some (.transactionId t)) =
      .ok ⟨(m.blobSessionIds[t]?).getD 0, some t, (m.blobSessionIds[t]?).isNone⟩ := by
  unfold readContext BlobSessionManager.getSessionId
  cases h : m.blobSessionIds[t]? with
  | none => simp [h, noTransaction]
  | some s => simp [h]

theorem checkOwner_indexed {m : BlobSessionManager} (hm : m.IndexSound) {t : TransactionId} {s : ℕ}
    (hs : m.blobSessionIds[t]? = some s) : checkOwner m ⟨s, some t, false⟩ = .ok () := by
  obtain ⟨impl, hi, ht⟩ := hm t s hs
  refine bind_ok_iff.mpr ⟨impl, raising_ok_iff.mpr (BlobSessionManager.getSessionImpl_of_some hi), ?_⟩
  simp [ownerCheck, ht]

theorem limestonePath_ok_iff {files : Files} {b : ℕ} :
    limestonePath cfg files b = .ok path ↔
      cfg.api.getPath b = .ok path ∧ files.present path = true := by
  unfold limestonePath
  rw [bind_ok_iff]
  constructor
  · rintro ⟨p, hp, h⟩
    split at h
    · rename_i hpres
      cases h
      exact ⟨raising_ok_iff.mp hp, hpres⟩
    · cases h
  · rintro ⟨hp, hpres⟩
    exact ⟨path, raising_ok_iff.mpr hp, if_pos hpres⟩

theorem foundPath_ok_iff {m : BlobSessionManager} {s b : ℕ} :
    (∃ impl, raising (m.getSessionImpl s) = .ok impl ∧ foundPath (impl.find b) = .ok path) ↔
      ∃ n, m.Entry s b (path, n) := by
  constructor
  · rintro ⟨impl, hi, hp⟩
    have hs := BlobSessionManager.getSessionImpl_ok (raising_ok_iff.mp hi)
    unfold BlobSessionImpl.find at hp
    cases hb : impl.blobs[b]? with
    | none =>
      rw [hb] at hp
      cases hp
    | some e =>
      rw [hb] at hp
      cases hp
      exact ⟨e.2, impl, hs, hb⟩
  · rintro ⟨n, impl, hs, hb⟩
    refine ⟨impl, raising_ok_iff.mpr (BlobSessionManager.getSessionImpl_of_some hs), ?_⟩
    simp only [BlobSessionImpl.find, hb, Option.map_some, foundPath]

theorem resolvePath_session {blob : BlobReference} (h : blob.storageId = sessionStorageId) :
    resolvePath cfg w ctx blob = .ok path ↔
      ctx.rawTransaction = false ∧ ∃ n, w.manager.Entry ctx.sessionId blob.objectId (path, n) := by
  unfold resolvePath
  rw [if_pos h]
  cases hraw : ctx.rawTransaction with
  | true => simp
  | false =>
    simp only [Bool.false_eq_true, if_false, true_and]
    rw [bind_ok_iff, foundPath_ok_iff]

theorem resolvePath_limestone {blob : BlobReference} (h : blob.storageId = limestoneBlobStore) :
    resolvePath cfg w ctx blob = .ok path ↔
      cfg.api.getPath blob.objectId = .ok path ∧ w.files.present path = true := by
  have hne : blob.storageId ≠ sessionStorageId := by
    rw [h]
    decide
  unfold resolvePath
  rw [if_neg hne, if_pos h, limestonePath_ok_iff]

theorem resolvePath_ok_iff {blob : BlobReference} :
    resolvePath cfg w ctx blob = .ok path ↔
      (blob.storageId = sessionStorageId ∧ ctx.rawTransaction = false ∧
        ∃ n, w.manager.Entry ctx.sessionId blob.objectId (path, n)) ∨
      (blob.storageId = limestoneBlobStore ∧ cfg.api.getPath blob.objectId = .ok path ∧
        w.files.present path = true) := by
  by_cases h0 : blob.storageId = sessionStorageId
  · have h1 : ¬ blob.storageId = limestoneBlobStore := by
      rw [h0]
      decide
    rw [resolvePath_session h0]
    exact ⟨fun h => Or.inl ⟨h0, h⟩, fun h => h.elim (·.2) fun h => absurd h.1 h1⟩
  · by_cases h1 : blob.storageId = limestoneBlobStore
    · rw [resolvePath_limestone h1]
      exact ⟨fun h => Or.inr ⟨h1, h⟩, fun h => h.elim (fun h => absurd h.1 h0) (·.2)⟩
    · unfold resolvePath
      rw [if_neg h0, if_neg h1]
      constructor
      · intro h
        cases h
      · rintro (⟨h, _⟩ | ⟨h, _⟩)
        · exact absurd h h0
        · exact absurd h h1

theorem getTag_eq {impl : BlobSessionImpl} {s b : ℕ} :
    impl.getTag cfg s b = cfg.api.getTag b (impl.transactionIdOpt.getD s) := by
  unfold BlobSessionImpl.getTag
  cases impl.transactionIdOpt <;> rfl

theorem expectedTag_ok_iff {m : BlobSessionManager} {b : ℕ} {tag : BlobTag} :
    expectedTag cfg m ctx b = .ok tag ↔
      match ctx.transactionId with
      | some t => cfg.api.getTag b t = .ok tag
      | none => ∃ t, m.Owner ctx.sessionId t ∧ cfg.api.getTag b (t.getD ctx.sessionId) = .ok tag := by
  unfold expectedTag
  cases ctx.transactionId with
  | some t => exact raising_ok_iff
  | none =>
    dsimp only
    rw [bind_ok_iff]
    constructor
    · rintro ⟨impl, hi, htag⟩
      have hs := BlobSessionManager.getSessionImpl_ok (raising_ok_iff.mp hi)
      rw [raising_ok_iff, getTag_eq] at htag
      exact ⟨_, ⟨impl, hs, rfl⟩, htag⟩
    · rintro ⟨t, ⟨impl, hs, rfl⟩, htag⟩
      refine ⟨impl, raising_ok_iff.mpr (BlobSessionManager.getSessionImpl_of_some hs), ?_⟩
      rw [raising_ok_iff, getTag_eq]
      exact htag

theorem checkTag_ok_iff {expected tag : BlobTag} :
    checkTag cfg expected tag = .ok () ↔
      tag = expected ∨ (cfg.devAcceptMockTag = true ∧ tag = mockTag) := by
  unfold checkTag
  by_cases h : expected = tag
  · simp [h]
  · rw [if_pos h]
    have hne : tag ≠ expected := Ne.symm h
    by_cases hmock : cfg.devAcceptMockTag = true ∧ tag = mockTag
    · rw [if_neg (by simp [hmock])]
      simp only [hmock, true_and, or_true]
    · rw [if_pos (by simpa [Classical.or_iff_not_imp_left] using hmock)]
      simp only [hne, hmock, or_false, reduceCtorEq]

theorem authorise_of_context (hctx : readContext w.manager request.contextId = .ok ctx)
    (howner : checkOwner w.manager ctx = .ok ()) :
    authorise cfg w request = .ok path ↔ resolvePath cfg w ctx request.blob = .ok path ∧
      ∃ tag, expectedTag cfg w.manager ctx request.blob.objectId = .ok tag ∧
        (request.blob.tag = tag ∨ (cfg.devAcceptMockTag = true ∧ request.blob.tag = mockTag)) := by
  unfold authorise
  simp only [bind_ok_iff, hctx, Except.ok.injEq, exists_eq_left']
  constructor
  · rintro ⟨_, _, p, hp, tag, htag, _, hcheck, hpure⟩
    cases hpure
    exact ⟨hp, tag, htag, checkTag_ok_iff.mp hcheck⟩
  · rintro ⟨hp, tag, htag, hcheck⟩
    exact ⟨(), howner, path, hp, tag, htag, (), checkTag_ok_iff.mpr hcheck, rfl⟩

theorem resolvePath_iff_blobPath (request : GetStreamingRequest) (ctx : GetContext)
    (hraw : ctx.rawTransaction = false)
    (hsession : contextSession w.manager request.contextId = some ctx.sessionId) :
    resolvePath cfg w ctx request.blob = .ok path ↔ BlobPath cfg w.manager request path ∧
      (request.blob.storageId = limestoneBlobStore → w.files.present path = true) := by
  have hstores : sessionStorageId ≠ limestoneBlobStore := by decide
  rw [resolvePath_ok_iff]
  constructor
  · rintro (⟨h0, _, n, he⟩ | ⟨h1, hp, hpres⟩)
    · exact ⟨Or.inl ⟨h0, _, n, hsession, he⟩, fun h1 => absurd (h0.symm.trans h1) hstores⟩
    · exact ⟨Or.inr ⟨h1, hp⟩, fun _ => hpres⟩
  · rintro ⟨⟨h0, s, n, hs, he⟩ | ⟨h1, hp⟩, hpres⟩
    · obtain rfl := Option.some.inj (hsession.symm.trans hs)
      exact Or.inl ⟨h0, hraw, n, he⟩
    · exact Or.inr ⟨h1, hp, hpres h1⟩

theorem authorise_ok_iff (hw : WorldInv cfg w) :
    authorise cfg w request = .ok path ↔ Granted cfg w request path ∧
      (request.blob.storageId = limestoneBlobStore → w.files.present path = true) := by
  obtain ⟨apiVersion, contextId, blob⟩ := request
  cases contextId with
  | none =>
    refine ⟨fun h => ?_, fun h => absurd h.1.context id⟩
    obtain ⟨ctx, hctx, _⟩ := bind_ok_iff.mp h
    cases hctx
  | some c =>
    cases c with
    | sessionId s =>
      have hctx : readContext w.manager (some (.sessionId s)) = .ok ⟨s, none, false⟩ := rfl
      rw [authorise_of_context hctx rfl,
        resolvePath_iff_blobPath ⟨apiVersion, some (.sessionId s), blob⟩ ⟨s, none, false⟩ rfl rfl]
      simp only [expectedTag_ok_iff]
      constructor
      · rintro ⟨⟨hblob, hpres⟩, tag, ⟨t, ht, htag⟩, hcheck⟩
        exact ⟨⟨ht.live, hblob, _, tag, ⟨t, ht, rfl⟩, htag, hcheck⟩, hpres⟩
      · rintro ⟨⟨_, hblob, k, tag, ⟨t, ht, rfl⟩, htag, hcheck⟩, hpres⟩
        exact ⟨⟨hblob, hpres⟩, tag, ⟨t, ht, htag⟩, hcheck⟩
    | transactionId t =>
      cases hs : w.manager.blobSessionIds[t]? with
      | some s =>
        have hctx : readContext w.manager (some (.transactionId t)) = .ok ⟨s, some t, false⟩ := by
          rw [readContext_transaction, hs]
          rfl
        rw [authorise_of_context hctx (checkOwner_indexed hw.index hs),
          resolvePath_iff_blobPath ⟨apiVersion, some (.transactionId t), blob⟩ ⟨s, some t, false⟩ rfl hs]
        simp only [expectedTag_ok_iff]
        constructor
        · rintro ⟨⟨hblob, hpres⟩, tag, htag, hcheck⟩
          exact ⟨⟨Or.inl (by simp [hs]), hblob, t, tag, rfl, htag, hcheck⟩, hpres⟩
        · rintro ⟨⟨_, hblob, k, tag, rfl, htag, hcheck⟩, hpres⟩
          exact ⟨⟨hblob, hpres⟩, tag, htag, hcheck⟩
      | none =>
        -- a transaction without a session reaches the datastore only
        have hctx : readContext w.manager (some (.transactionId t)) = .ok ⟨0, some t, true⟩ := by
          rw [readContext_transaction, hs]
          rfl
        rw [authorise_of_context hctx rfl, resolvePath_ok_iff]
        simp only [expectedTag_ok_iff]
        constructor
        · rintro ⟨⟨_, hraw, _⟩ | ⟨h1, hp, hpres⟩, tag, htag, hcheck⟩
          · cases hraw
          · exact ⟨⟨Or.inr h1, Or.inr ⟨h1, hp⟩, t, tag, rfl, htag, hcheck⟩, fun _ => hpres⟩
        · rintro ⟨⟨_, hblob, k, tag, rfl, htag, hcheck⟩, hpres⟩
          refine ⟨?_, tag, htag, hcheck⟩
          rcases hblob with ⟨_, r, _, hr, _⟩ | ⟨h1, hp⟩
          · rw [contextSession, hs] at hr
            cases hr
          · exact Or.inr ⟨h1, hp, hpres h1⟩

/-! ### The whole call -/

theorem getCatch_not_ok (e : Exn) : ¬ (getCatch e).IsOk := by
  cases e <;> simp [getCatch, GetOutcome.IsOk]

/-- The early returns of `Get` that `GetExit.status` stands for. -/
def GetExit.Error : GetExit → Prop
  | .status st => st.code ≠ .ok
  | .raised _ => True

theorem getExit_not_ok {e : GetExit} (h : e.Error) : ¬ (getExit e).IsOk := by
  cases e with
  | status st => exact h
  | raised x => exact getCatch_not_ok x

/-- A stage that fails, fails with an error. -/
def Fails {α : Type} (x : Except GetExit α) : Prop := ∀ e, x = .error e → e.Error

theorem Fails.bind {α β : Type} {x : Except GetExit α} {f : α → Except GetExit β} (hx : Fails x)
    (hf : ∀ a, Fails (f a)) : Fails (x >>= f) := by
  intro e h
  cases x with
  | ok a => exact hf a e h
  | error y =>
    cases h
    exact hx e rfl

theorem fails_raising {α : Type} (x : Except Exn α) : Fails (raising x) := by
  intro e h
  cases x with
  | ok a => cases h
  | error x =>
    cases h
    trivial

theorem fails_status {α : Type} {st : Status} (h : st.code ≠ .ok) :
    Fails (.error (.status st) : Except GetExit α) := by
  intro e he
  cases he
  exact h

theorem fails_ok {α : Type} (a : α) : Fails (.ok a : Except GetExit α) := nofun

theorem fails_readContext (m : BlobSessionManager) (c : Option ContextId) :
    Fails (readContext m c) := by
  rcases c with _ | (s | t)
  · exact fails_status (by decide)
  · exact fails_ok _
  · rw [readContext_transaction]
    exact fails_ok _

theorem fails_checkOwner (m : BlobSessionManager) (ctx : GetContext) :
    Fails (checkOwner m ctx) := by
  unfold checkOwner
  split
  · refine (fails_raising _).bind fun impl => ?_
    unfold ownerCheck
    split
    · split
      · exact fails_status (by decide)
      · exact fails_ok _
    · exact fails_status (by decide)
  · exact fails_ok _

theorem fails_resolvePath (ctx : GetContext) (blob : BlobReference) :
    Fails (resolvePath cfg w ctx blob) := by
  unfold resolvePath
  split
  · split
    · exact fails_status (by decide)
    · refine (fails_raising _).bind fun impl => ?_
      unfold foundPath
      split
      · exact fails_ok _
      · exact fails_status (by decide)
  · split
    · refine (fails_raising _).bind fun p => ?_
      split
      · exact fails_ok _
      · exact fails_status (by decide)
    · exact fails_status (by decide)

theorem fails_expectedTag (m : BlobSessionManager) (ctx : GetContext) (b : ℕ) :
    Fails (expectedTag cfg m ctx b) := by
  unfold expectedTag
  split
  · exact fails_raising _
  · exact (fails_raising _).bind fun impl => fails_raising _

theorem fails_checkTag (expected tag : BlobTag) : Fails (checkTag cfg expected tag) := by
  unfold checkTag
  split
  · split
    · exact fails_status (by decide)
    · exact fails_ok _
  · exact fails_ok _

theorem fails_ownerCheck (owner : Option TransactionId) (t : TransactionId) :
    Fails (ownerCheck owner t) := by
  unfold ownerCheck
  split
  · split
    · exact fails_status (by decide)
    · exact fails_ok _
  · exact fails_status (by decide)

theorem fails_foundPath (path : Option Path) : Fails (foundPath path) := by
  cases path with
  | none => exact fails_status (by decide)
  | some p => exact fails_ok p

theorem fails_limestonePath (files : Files) (b : ℕ) : Fails (limestonePath cfg files b) := by
  refine (fails_raising _).bind fun p => ?_
  split
  · exact fails_ok _
  · exact fails_status (by decide)

theorem fails_authorise : Fails (authorise cfg w request) :=
  (fails_readContext _ _).bind fun ctx => (fails_checkOwner _ ctx).bind fun _ =>
    (fails_resolvePath ctx _).bind fun path => (fails_expectedTag _ ctx _).bind fun tag =>
      (fails_checkTag tag _).bind fun _ => fails_ok path

/-- What is sent of a file: its size, then its bytes. -/
def Sends (cfg : Config) (env : GetEnv) (bytes : Bytes) (written : List GetStreamingResponse) :
    Prop :=
  ∃ chunks : List Bytes, written = .metadata (some bytes.length) :: chunks.map .chunk ∧
    chunks.flatten <+: bytes ∧
    (env.opens = true → 1 ≤ cfg.streamChunkSize → chunks.flatten = bytes)

variable {env : GetEnv}

theorem sendBlob_some (cfg : Config) {fs : Files} {bytes : Bytes} (hasked : env.Answered)
    (halloc : env.allocates = true) (h : fs.contents path = some bytes) :
    ∃ written, sendBlob cfg env fs path = some (.returned GetStatus.ok, written) ∧
      Sends cfg env bytes written := by
  obtain ⟨chunks, hdrain, hprefix, hall⟩ := drain_openRead h env.opens cfg.streamChunkSize
  have hsize : fs.fileSize path = some bytes.length := by rw [FileSystem.fileSize, h]; rfl
  refine ⟨.metadata (some bytes.length) :: chunks.map .chunk, ?_, chunks, rfl, hprefix, hall⟩
  simp only [sendBlob, hasked.1, hasked.2, FileSystem.present_of_contents h, if_true, hsize, halloc,
    sendFuel, hdrain, Option.map_some]

/-- No file, or a question about it that throws: nothing is sent. -/
theorem sendBlob_nothing (cfg : Config) {fs : Files}
    (h : ¬ (env.Answered ∧ ∃ bytes, fs.contents path = some bytes)) :
    ∃ o, sendBlob cfg env fs path = some (o, []) ∧ ¬ o.IsOk := by
  unfold sendBlob
  by_cases hexists : env.existsReturns = true
  · rw [if_pos hexists]
    split
    · have hsize : (if env.sizeReturns then fs.fileSize path else none) = none := by
        split
        · rename_i hsize
          rw [FileSystem.fileSize, Option.map_eq_none_iff, Option.eq_none_iff_forall_ne_some]
          exact fun bytes hbytes => h ⟨⟨hexists, hsize⟩, bytes, hbytes⟩
        · rfl
      rw [hsize]
      exact ⟨_, rfl, getCatch_not_ok _⟩
    · exact ⟨_, rfl, by simp [GetOutcome.IsOk, GetStatus.noFile]⟩
  · rw [if_neg hexists]
    exact ⟨_, rfl, getCatch_not_ok _⟩

theorem sendBlob_none (cfg : Config) (env : GetEnv) {fs : Files} (h : fs.contents path = none) :
    ∃ o, sendBlob cfg env fs path = some (o, []) ∧ ¬ o.IsOk := by
  apply sendBlob_nothing
  rintro ⟨_, bytes, hbytes⟩
  rw [h] at hbytes
  cases hbytes

/-- `Get` alone, in any reachable state and for a supported version, sends the
file it was asked for to exactly those the access rule admits, as long as neither
question about the file throws, and sends nothing with any other status. -/
theorem get_decision (env : GetEnv) (request : GetStreamingRequest) {σ : System}
    (hσ : Reachable cfg σ) (hv : checkApiVersion request.apiVersion = true)
    (halloc : env.allocates = true) :
    ∃ outcome written, get cfg env request σ.shared = some (outcome, written) ∧
      (written ≠ [] ↔ env.Answered ∧ ∃ path bytes, Granted cfg σ.shared request path ∧
        σ.shared.files.contents path = some bytes) ∧
      (∀ path bytes, env.Answered → Granted cfg σ.shared request path →
        σ.shared.files.contents path = some bytes →
          outcome.IsOk ∧ Sends cfg env bytes written) ∧
      (¬ outcome.IsOk → written = []) := by
  have hiff : ∀ p, authorise cfg σ.shared request = .ok p ↔ Granted cfg σ.shared request p ∧
      (request.blob.storageId = limestoneBlobStore → σ.shared.files.present p = true) :=
    fun p => authorise_ok_iff hσ.world
  -- whatever is granted and has a file is what `authorise` returns
  have hgranted : ∀ p bytes, Granted cfg σ.shared request p →
      σ.shared.files.contents p = some bytes → authorise cfg σ.shared request = .ok p :=
    fun p bytes hg hc => (hiff p).mpr ⟨hg, fun _ => FileSystem.present_of_contents hc⟩
  have hnothing : ∀ outcome : GetOutcome, ¬ outcome.IsOk →
      (∀ p bytes, env.Answered → Granted cfg σ.shared request p →
        σ.shared.files.contents p ≠ some bytes) →
      (([] : List GetStreamingResponse) ≠ [] ↔ env.Answered ∧ ∃ p bytes,
        Granted cfg σ.shared request p ∧ σ.shared.files.contents p = some bytes) ∧
      (∀ p bytes, env.Answered → Granted cfg σ.shared request p →
        σ.shared.files.contents p = some bytes → outcome.IsOk ∧ Sends cfg env bytes []) ∧
      (¬ outcome.IsOk → ([] : List GetStreamingResponse) = []) :=
    fun _ _ hno =>
      ⟨⟨fun h => absurd rfl h, fun ⟨ha, p, bytes, hg, hc⟩ => absurd hc (hno p bytes ha hg)⟩,
      fun p bytes ha hg hc => absurd hc (hno p bytes ha hg), fun _ => rfl⟩
  unfold get
  rw [if_pos hv]
  cases hauth : authorise cfg σ.shared request with
  | error e =>
    have hbad := getExit_not_ok (fails_authorise e hauth)
    refine ⟨_, [], rfl, hnothing _ hbad fun p bytes _ hg hc => ?_⟩
    rw [hgranted p bytes hg hc] at hauth
    cases hauth
  | ok path =>
    have hsame : ∀ p bytes, Granted cfg σ.shared request p →
        σ.shared.files.contents p = some bytes → p = path := by
      intro p bytes hg hc
      rw [hgranted p bytes hg hc] at hauth
      exact Except.ok.inj hauth
    dsimp only
    by_cases hsent : env.Answered ∧ ∃ bytes, σ.shared.files.contents path = some bytes
    · obtain ⟨hasked, bytes, hfile⟩ := hsent
      obtain ⟨written, hsend, hsends⟩ := sendBlob_some cfg hasked halloc hfile
      have hne : written ≠ [] := by
        obtain ⟨chunks, rfl, _⟩ := hsends
        exact List.cons_ne_nil _ _
      refine ⟨_, written, hsend, ⟨fun _ => ⟨hasked, path, bytes, ((hiff path).mp hauth).1, hfile⟩,
        fun _ => hne⟩, fun p bytes' _ hg hc => ?_, fun hbad => absurd rfl hbad⟩
      rw [hsame p bytes' hg hc, hfile] at hc
      cases hc
      exact ⟨rfl, hsends⟩
    · obtain ⟨o, hsend, hbad⟩ := sendBlob_nothing cfg hsent
      refine ⟨o, [], hsend, hnothing o hbad fun p bytes hasked hg hc => ?_⟩
      rw [hsame p bytes hg hc] at hc
      exact hsent ⟨hasked, bytes, hc⟩

/-- The access rule with the mock tag accepted without asking the datastore. -/
def MockFirst (cfg : Config) (m : BlobSessionManager) (request : GetStreamingRequest) : Prop :=
  (∃ k, TagKey m request.contextId k ∧
    cfg.api.getTag request.blob.objectId k = .ok request.blob.tag) ∨
  (cfg.devAcceptMockTag = true ∧ request.blob.tag = mockTag)

/-- Mock tags are accepted; the datastore knows no transaction. -/
def mockConfig : Config :=
  {smallConfig with
    devAcceptMockTag := true
    api := {smallConfig.api with getTag := fun _ _ => .error (.outOfRange "no such transaction")}}

/-- A file of three bytes where the datastore keeps object 7. -/
def datastoreFile : List SystemMove := [.env (.outsideWrite ["datastore", "7"] [1, 2, 3])]

theorem get_mock_refused : ¬ ∀ (cfg : Config) (env : GetEnv) (σ : System)
    (request : GetStreamingRequest) (outcome : GetOutcome) (written : List GetStreamingResponse),
    Reachable cfg σ → checkApiVersion request.apiVersion = true → env.Answered →
    env.allocates = true → get cfg env request σ.shared = some (outcome, written) →
    (written ≠ [] ↔ ∃ path bytes,
      ContextResolves σ.shared.manager request.blob.storageId request.contextId ∧
      BlobPath cfg σ.shared.manager request path ∧ σ.shared.files.contents path = some bytes ∧
      MockFirst cfg σ.shared.manager request) := by
  intro h
  obtain ⟨σ, hσ, hend⟩ := (Option.any_eq_true
    (fun σ : System => decide (Headroom σ.shared) &&
      σ.shared.files.contents ["datastore", "7"] == some [1, 2, 3] &&
      get mockConfig .calm ⟨1, some (.transactionId 5), ⟨1, 7, mockTag⟩⟩ σ.shared ==
        some (.returned ⟨.internal, "no such transaction"⟩, [])) _).mp
    (by decide : (runs mockConfig datastoreFile smallStart).any _ = true)
  simp only [Bool.and_eq_true, decide_eq_true_eq, beq_iff_eq] at hend
  obtain ⟨⟨hroom, hfile⟩, hget⟩ := hend
  have hreach : Reachable mockConfig σ := .of_runs ⟨⟨rfl, emptyDisk, rfl⟩, rfl⟩ hσ hroom
  have hiff := h mockConfig .calm σ _ _ [] hreach rfl GetEnv.calm_answered rfl hget
  exact hiff.mpr ⟨["datastore", "7"], [1, 2, 3], Or.inr rfl, Or.inr ⟨rfl, rfl⟩, hfile,
    Or.inr ⟨rfl, rfl⟩⟩ rfl

theorem get_decision_datastore : ∃ σ outcome written, Reachable smallConfig σ ∧
    get smallConfig .calm ⟨1, some (.transactionId 5), ⟨1, 7, 12⟩⟩ σ.shared =
      some (outcome, written) ∧ outcome.IsOk ∧ written ≠ [] := by
  obtain ⟨σ, hσ, hend⟩ := (Option.any_eq_true
    (fun σ : System => decide (Headroom σ.shared) &&
      σ.shared.files.contents ["datastore", "7"] == some [1, 2, 3]) _).mp
    (by decide : (runs smallConfig datastoreFile smallStart).any _ = true)
  simp only [Bool.and_eq_true, decide_eq_true_eq, beq_iff_eq] at hend
  have hreach : Reachable smallConfig σ := .of_runs smallStart_initial hσ hend.1
  have hgranted : Granted smallConfig σ.shared ⟨1, some (.transactionId 5), ⟨1, 7, 12⟩⟩
      ["datastore", "7"] :=
    ⟨Or.inr rfl, Or.inr ⟨rfl, rfl⟩, 5, 12, rfl, rfl, Or.inl rfl⟩
  obtain ⟨outcome, written, hget, hiff, hsends, _⟩ :=
    get_decision .calm ⟨1, some (.transactionId 5), ⟨1, 7, 12⟩⟩ hreach rfl rfl
  exact ⟨σ, outcome, written, hreach, hget,
    (hsends _ _ GetEnv.calm_answered hgranted hend.2).1,
    hiff.mpr ⟨GetEnv.calm_answered, _, _, hgranted, hend.2⟩⟩

end BlobRelay
