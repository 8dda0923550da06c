import BlobRelay.SessionIndex
import BlobRelay.Tags

/-! # One blob, several requests

What `Get` answers to two requests that differ in the context or in the storage.
The tag check asks for the context's transaction and the number of the blob; it
does not ask for the storage, and a session without a transaction stands in it
under its own number. -/

namespace BlobRelay
open Foundation Foundation.FileStore

variable {cfg : Config} {w w' : World} {m : BlobSessionManager} {request : GetStreamingRequest}
  {path : Path}

/-! ### The tag check -/

/-- The tag check of `Get` accepts the request's tag. -/
def TagPasses (cfg : Config) (m : BlobSessionManager) (request : GetStreamingRequest) : Prop :=
  ∃ ctx expected, readContext m request.contextId = .ok ctx ∧
    expectedTag cfg m ctx request.blob.objectId = .ok expected ∧
    checkTag cfg expected request.blob.tag = .ok ()

theorem tagPasses_of_authorise (h : authorise cfg w request = .ok path) :
    TagPasses cfg w.manager request := by
  unfold authorise at h
  simp only [bind_ok_iff] at h
  obtain ⟨ctx, hctx, _, _, _, _, expected, hexpected, _, hcheck, _⟩ := h
  exact ⟨ctx, expected, hctx, hexpected, hcheck⟩

theorem expectedTag_iff_tagKey {c : Option ContextId} {ctx : GetContext} {b : ℕ} {tag : BlobTag}
    (hctx : readContext m c = .ok ctx) :
    expectedTag cfg m ctx b = .ok tag ↔ ∃ k, TagKey m c k ∧ cfg.api.getTag b k = .ok tag := by
  rw [expectedTag_ok_iff]
  cases c with
  | none => cases hctx
  | some c =>
    cases c with
    | sessionId s =>
      cases hctx
      constructor
      · rintro ⟨t, ht, htag⟩
        exact ⟨_, ⟨t, ht, rfl⟩, htag⟩
      · rintro ⟨_, ⟨t, ht, rfl⟩, htag⟩
        exact ⟨t, ht, htag⟩
    | transactionId t =>
      rw [readContext_transaction] at hctx
      cases hctx
      simp only [TagKey, exists_eq_left]

theorem readContext_some (m : BlobSessionManager) (c : ContextId) :
    ∃ ctx, readContext m (some c) = .ok ctx := by
  cases c with
  | sessionId s => exact ⟨_, rfl⟩
  | transactionId t => exact ⟨_, readContext_transaction⟩

theorem tagPasses_iff (hmock : cfg.devAcceptMockTag = false) :
    TagPasses cfg m request ↔ ∃ k, TagKey m request.contextId k ∧
      cfg.api.getTag request.blob.objectId k = .ok request.blob.tag := by
  constructor
  · rintro ⟨ctx, expected, hctx, hexpected, hcheck⟩
    rcases checkTag_ok_iff.mp hcheck with htag | ⟨hdev, _⟩
    · rw [htag]
      exact (expectedTag_iff_tagKey hctx).mp hexpected
    · rw [hmock] at hdev
      cases hdev
  · rintro ⟨k, hk, htag⟩
    cases hc : request.contextId with
    | none =>
      rw [hc] at hk
      exact hk.elim
    | some c =>
      obtain ⟨ctx, hctx⟩ := readContext_some m c
      rw [hc] at hk
      refine ⟨ctx, request.blob.tag, by rw [hc]; exact hctx, ?_, checkTag_ok_iff.mpr (Or.inl rfl)⟩
      exact (expectedTag_iff_tagKey hctx).mpr ⟨k, hk, htag⟩

/-! ### Whose tag it is -/

/-- The contexts in which the tags of transaction `t` are honoured: the transaction
itself, a session of it, and a session of none whose own id is `t`. -/
def Honours (m : BlobSessionManager) (t : TransactionId) (c : Option ContextId) : Prop :=
  c = some (.transactionId t) ∨
    ∃ s, c = some (.sessionId s) ∧ (m.Owner s (some t) ∨ (m.Owner s none ∧ s = t))

theorem tagKey_iff_honours {c : Option ContextId} {t : TransactionId} :
    TagKey m c t ↔ Honours m t c := by
  unfold Honours
  cases c with
  | none => simp [TagKey]
  | some c =>
    cases c with
    | transactionId u => simp [TagKey, eq_comm]
    | sessionId s =>
      simp only [TagKey, Option.some.injEq, reduceCtorEq, false_or, ContextId.sessionId.injEq,
        exists_eq_left']
      constructor
      · rintro ⟨_ | u, ho, rfl⟩
        · exact Or.inr ⟨ho, rfl⟩
        · exact Or.inl ho
      · rintro (ho | ⟨ho, rfl⟩)
        · exact ⟨_, ho, rfl⟩
        · exact ⟨_, ho, rfl⟩

/-- In every state, a transaction's tag passes exactly in the contexts that honour
it, so access by it is granted in no other. -/
theorem transaction_tag {t : TransactionId} (hmock : cfg.devAcceptMockTag = false)
    (hinj : ∀ u v x, cfg.api.getTag request.blob.objectId u = .ok x →
      cfg.api.getTag request.blob.objectId v = .ok x → u = v)
    (htag : cfg.api.getTag request.blob.objectId t = .ok request.blob.tag) :
    (TagPasses cfg w.manager request ↔ Honours w.manager t request.contextId) ∧
      ∀ path, authorise cfg w request = .ok path → Honours w.manager t request.contextId := by
  have hiff : TagPasses cfg w.manager request ↔ Honours w.manager t request.contextId := by
    rw [tagPasses_iff hmock, ← tagKey_iff_honours]
    constructor
    · rintro ⟨k, hk, hkt⟩
      rwa [hinj k t _ hkt htag] at hk
    · exact fun hk => ⟨t, hk, htag⟩
  exact ⟨hiff, fun _ h => hiff.mp (tagPasses_of_authorise h)⟩

/-- Tags that tell apart both the blob and the transaction. -/
def pairConfig : Config := {smallConfig with api := {smallConfig.api with
  getTag := fun b t => .ok (Nat.pair b t)}}

theorem transaction_tag_elsewhere : ¬ ∀ (cfg : Config) (σ : System) (t : TransactionId)
    (request : GetStreamingRequest), Reachable cfg σ → cfg.devAcceptMockTag = false →
    (∀ b u b' v x, cfg.api.getTag b u = .ok x → cfg.api.getTag b' v = .ok x → b = b' ∧ u = v) →
    cfg.api.getTag request.blob.objectId t = .ok request.blob.tag →
    TagPasses cfg σ.shared.manager request →
    request.contextId = some (.transactionId t) ∨
      ∃ s, request.contextId = some (.sessionId s) ∧ σ.shared.manager.Owner s (some t) := by
  intro h
  -- session 1 has no transaction and answers for transaction 1
  have hrun : runs pairConfig [.env (.createSession none)] smallStart =
      some (oneSession none) := rfl
  have hstart : Initial pairConfig smallStart := ⟨⟨rfl, emptyDisk, rfl⟩, rfl⟩
  have hreach : Reachable pairConfig (oneSession none) :=
    .of_runs hstart hrun (oneSession_reachable none).1
  have howner : (oneSession none).shared.manager.Owner 1 none :=
    BlobSessionManager.owner_of_map (by decide)
  have hinj : ∀ b u b' v x, pairConfig.api.getTag b u = .ok x → pairConfig.api.getTag b' v = .ok x →
      b = b' ∧ u = v := by
    intro b u b' v x hu hv
    exact Nat.pair_eq_pair.mp ((Except.ok.inj hu).trans (Except.ok.inj hv).symm)
  have hpass : TagPasses pairConfig (oneSession none).shared.manager
      ⟨1, some (.sessionId 1), ⟨0, 7, Nat.pair 7 1⟩⟩ :=
    (tagPasses_iff rfl).mpr ⟨1, ⟨none, howner, rfl⟩, rfl⟩
  rcases h pairConfig (oneSession none) 1 _ hreach rfl hinj rfl hpass with hc | ⟨s, hc, hs⟩
  · cases hc
  · cases hc
    cases howner.unique hs

theorem transaction_tag_five :
    TagPasses smallConfig (oneSession (some 5)).shared.manager
      ⟨1, some (.sessionId 1), ⟨0, 1, 6⟩⟩ := by
  have hinj : ∀ u v x, smallConfig.api.getTag 1 u = .ok x → smallConfig.api.getTag 1 v = .ok x →
      u = v := by
    intro u v x hu hv
    exact Nat.add_left_cancel ((Except.ok.inj hu).trans (Except.ok.inj hv).symm)
  have htag : smallConfig.api.getTag 1 5 = .ok 6 := rfl
  have howner : (oneSession (some 5)).shared.manager.Owner 1 (some 5) :=
    BlobSessionManager.owner_of_map (by decide)
  exact (transaction_tag rfl hinj htag).1.mpr (Or.inr ⟨1, rfl, Or.inl howner⟩)

/-! ### Two storages -/

theorem readContext_session {c : Option ContextId} {ctx : GetContext} {s : ℕ}
    (hctx : readContext m c = .ok ctx) (hs : contextSession m c = some s) :
    ctx.sessionId = s ∧ ctx.rawTransaction = false := by
  cases c with
  | none => cases hctx
  | some c =>
    cases c with
    | sessionId r =>
      cases hctx
      exact ⟨Option.some.inj hs, rfl⟩
    | transactionId t =>
      rw [readContext_transaction] at hctx
      cases hctx
      simp only [contextSession] at hs
      simp [hs]

theorem authorise_of_resolves {v : ℕ} {c : Option ContextId} {blob : BlobReference}
    (h : ∀ ctx, readContext w.manager c = .ok ctx → resolvePath cfg w ctx blob = .ok path) :
    authorise cfg w ⟨v, c, blob⟩ = .ok path ↔
      ∃ ctx, readContext w.manager c = .ok ctx ∧ checkOwner w.manager ctx = .ok () ∧
        ∃ expected, expectedTag cfg w.manager ctx blob.objectId = .ok expected ∧
          checkTag cfg expected blob.tag = .ok () := by
  unfold authorise
  simp only [bind_ok_iff]
  constructor
  · rintro ⟨ctx, hctx, _, howner, _, _, expected, hexpected, _, hcheck, _⟩
    exact ⟨ctx, hctx, howner, expected, hexpected, hcheck⟩
  · rintro ⟨ctx, hctx, howner, expected, hexpected, hcheck⟩
    exact ⟨ctx, hctx, (), howner, path, h ctx hctx, expected, hexpected, (), hcheck, rfl⟩

/-- In every state, where a blob of the context's session and a blob of the datastore
have one number, a tag gives access to the one exactly when it gives access to the
other, and it is the datastore's tag of that number for the context. -/
theorem storages_share_tags {v s b tag : ℕ} {c : Option ContextId} {e : Path × ℕ} {p : Path}
    (hc : contextSession w.manager c = some s) (he : w.manager.Entry s b e)
    (hp : cfg.api.getPath b = .ok p) (hpresent : w.files.present p = true)
    (hmock : cfg.devAcceptMockTag = false) :
    (authorise cfg w ⟨v, c, ⟨sessionStorageId, b, tag⟩⟩ = .ok e.1 ↔
        authorise cfg w ⟨v, c, ⟨limestoneBlobStore, b, tag⟩⟩ = .ok p) ∧
      (authorise cfg w ⟨v, c, ⟨sessionStorageId, b, tag⟩⟩ = .ok e.1 →
        ∃ k, TagKey w.manager c k ∧ cfg.api.getTag b k = .ok tag) := by
  refine ⟨?_, fun h => (tagPasses_iff hmock).mp (tagPasses_of_authorise h)⟩
  rw [authorise_of_resolves, authorise_of_resolves]
  · exact fun ctx _ => (resolvePath_limestone rfl).mpr ⟨hp, hpresent⟩
  · intro ctx hctx
    obtain ⟨hs, hraw⟩ := readContext_session hctx hc
    exact (resolvePath_session rfl).mpr ⟨hraw, e.2, hs ▸ he⟩

/-- The upload of three bytes, and a datastore file of the same number. -/
def bothStorages : List SystemMove := oneUpload ++ [.env (.outsideWrite ["datastore", "1"] [9])]

theorem bothStorages_reached : ∃ σ e, runs smallConfig bothStorages smallStart = some σ ∧
    Reachable smallConfig σ ∧ σ.shared.manager.Entry 1 1 e ∧
    σ.shared.manager.Owner 1 (some 5) ∧ σ.shared.manager.getSessionId 5 = .ok 1 ∧
    σ.shared.files.contents ["datastore", "1"] = some [9] ∧
    get smallConfig .calm ⟨1, some (.sessionId 1), ⟨0, 1, 6⟩⟩ σ.shared =
      some (.returned GetStatus.ok, [.metadata (some 3), .chunk [1, 2], .chunk [3]]) ∧
    get smallConfig .calm ⟨1, some (.transactionId 5), ⟨1, 1, 6⟩⟩ σ.shared =
      some (.returned GetStatus.ok, [.metadata (some 1), .chunk [9]]) := by
  obtain ⟨σ, hσ, hend⟩ := (Option.any_eq_true
    (fun σ : System => decide (Headroom σ.shared) &&
      (σ.shared.manager.blobSessions[1]?.bind (·.blobs[1]?)).isSome &&
      σ.shared.manager.blobSessions[1]?.map (·.transactionIdOpt) == some (some 5) &&
      decide (σ.shared.manager.blobSessionIds[5]? = some 1) &&
      σ.shared.files.contents ["datastore", "1"] == some [9] &&
      get smallConfig .calm ⟨1, some (.sessionId 1), ⟨0, 1, 6⟩⟩ σ.shared ==
        some (.returned GetStatus.ok, [.metadata (some 3), .chunk [1, 2], .chunk [3]]) &&
      get smallConfig .calm ⟨1, some (.transactionId 5), ⟨1, 1, 6⟩⟩ σ.shared ==
        some (.returned GetStatus.ok, [.metadata (some 1), .chunk [9]])) _).mp
    (by decide : (runs smallConfig bothStorages smallStart).any _ = true)
  simp only [Bool.and_eq_true, decide_eq_true_eq, beq_iff_eq] at hend
  obtain ⟨⟨⟨⟨⟨⟨hroom, hentry⟩, howner⟩, hindex⟩, hfile⟩, hsession⟩, hdatastore⟩ := hend
  obtain ⟨e, he⟩ := Option.isSome_iff_exists.mp hentry
  obtain ⟨impl, hs, hb⟩ := Option.bind_eq_some_iff.mp he
  exact ⟨σ, e, hσ, .of_runs smallStart_initial hσ hroom, ⟨impl, hs, hb⟩,
    BlobSessionManager.owner_of_map howner, BlobSessionManager.getSessionId_ok_iff.mpr hindex, hfile,
    hsession, hdatastore⟩

theorem tag_carries_over : ¬ ∀ (cfg : Config) (σ : System) (v s b tag : ℕ) (c : Option ContextId)
    (e : Path × ℕ) (p : Path), Reachable cfg σ → cfg.devAcceptMockTag = false →
    contextSession σ.shared.manager c = some s → σ.shared.manager.Entry s b e →
    cfg.api.getPath b = .ok p → σ.shared.files.present p = true →
    TagPasses cfg σ.shared.manager ⟨v, c, ⟨sessionStorageId, b, tag⟩⟩ →
    ∀ q, authorise cfg σ.shared ⟨v, c, ⟨limestoneBlobStore, b, tag⟩⟩ ≠ .ok q := by
  intro h
  obtain ⟨σ, e, _, hreach, he, howner, _, hfile, _⟩ := bothStorages_reached
  have hpresent := FileSystem.present_of_contents hfile
  have hpass : ∀ st, TagPasses smallConfig σ.shared.manager ⟨1, some (.sessionId 1), ⟨st, 1, 6⟩⟩ :=
    fun st => (tagPasses_iff rfl).mpr ⟨5, ⟨some 5, howner, rfl⟩, rfl⟩
  obtain ⟨ctx, expected, hctx, hexpected, hcheck⟩ := hpass limestoneBlobStore
  refine h smallConfig σ 1 1 1 6 (some (.sessionId 1)) e ["datastore", "1"] hreach rfl rfl he
    (by decide) hpresent (hpass _) ["datastore", "1"] ((authorise_of_resolves fun ctx _ =>
      (resolvePath_limestone rfl).mpr ⟨by decide, hpresent⟩).mpr
        ⟨ctx, hctx, ?_, expected, hexpected, hcheck⟩)
  cases hctx
  rfl

theorem storages_share_tags_six : ∃ σ e, Reachable smallConfig σ ∧
    σ.shared.manager.Entry 1 1 e ∧ σ.shared.files.contents ["datastore", "1"] = some [9] ∧
    authorise smallConfig σ.shared ⟨1, some (.sessionId 1), ⟨0, 1, 6⟩⟩ = .ok e.1 ∧
    authorise smallConfig σ.shared ⟨1, some (.sessionId 1), ⟨1, 1, 6⟩⟩ =
      .ok ["datastore", "1"] := by
  obtain ⟨σ, e, _, hreach, he, howner, _, hfile, _⟩ := bothStorages_reached
  have hpresent := FileSystem.present_of_contents hfile
  have hpass : TagPasses smallConfig σ.shared.manager ⟨1, some (.sessionId 1), ⟨0, 1, 6⟩⟩ :=
    (tagPasses_iff rfl).mpr ⟨5, ⟨some 5, howner, rfl⟩, rfl⟩
  have hsession : authorise smallConfig σ.shared ⟨1, some (.sessionId 1), ⟨0, 1, 6⟩⟩ = .ok e.1 := by
    obtain ⟨ctx, expected, hctx, hexpected, hcheck⟩ := hpass
    cases hctx
    exact (authorise_of_resolves fun ctx hctx => by
      cases hctx
      exact (resolvePath_session rfl).mpr ⟨rfl, e.2, he⟩).mpr
        ⟨_, rfl, rfl, expected, hexpected, hcheck⟩
  exact ⟨σ, e, hreach, he, hfile, hsession, (storages_share_tags (v := 1)
    (c := some (.sessionId 1)) rfl he (by decide) hpresent rfl).1.mp hsession⟩

/-! ### Two contexts -/

theorem readContext_indexed {t : TransactionId} {s : ℕ} (hs : m.getSessionId t = .ok s) :
    readContext m (some (.transactionId t)) = .ok ⟨s, some t, false⟩ := by
  simp only [readContext, hs]

theorem expectedTag_owner {t : TransactionId} {s : ℕ} (h : m.Owner s (some t)) (b : ℕ) :
    expectedTag cfg m ⟨s, none, false⟩ b = expectedTag cfg m ⟨s, some t, false⟩ b := by
  obtain ⟨impl, hs, ht⟩ := h
  have himpl := BlobSessionManager.getSessionImpl_of_some hs
  simp only [expectedTag, himpl, raising]
  show raising (impl.getTag cfg s b) = _
  rw [getTag_eq, ht]
  rfl

theorem authorise_interchangeable (hm : w.manager.IndexSound) {t : TransactionId} {s : ℕ}
    (hs : w.manager.getSessionId t = .ok s) (v : ℕ) (blob : BlobReference) :
    authorise cfg w ⟨v, some (.sessionId s), blob⟩ =
      authorise cfg w ⟨v, some (.transactionId t), blob⟩ := by
  have hindex := BlobSessionManager.getSessionId_ok_iff.mp hs
  have howner := checkOwner_indexed hm hindex
  have htag : expectedTag cfg w.manager ⟨s, none, false⟩ blob.objectId =
      expectedTag cfg w.manager ⟨s, some t, false⟩ blob.objectId :=
    expectedTag_owner (hm t s hindex) blob.objectId
  have hpath : resolvePath cfg w ⟨s, none, false⟩ blob =
      resolvePath cfg w ⟨s, some t, false⟩ blob := rfl
  have hleft : readContext w.manager (some (.sessionId s)) = .ok ⟨s, none, false⟩ := rfl
  have hfree : checkOwner w.manager ⟨s, none, false⟩ = .ok () := rfl
  simp only [authorise, hleft, readContext_indexed hs, ok_bind, howner, hfree, hpath, htag]

/-- By its transaction, a datastore blob is reached past any session. -/
theorem authorise_datastore (hm : w.manager.IndexSound) {v : ℕ} {t : TransactionId}
    {blob : BlobReference} (hblob : blob.storageId = limestoneBlobStore) :
    authorise cfg w ⟨v, some (.transactionId t), blob⟩ = (do
      let path ← limestonePath cfg w.files blob.objectId
      let expected ← raising (cfg.api.getTag blob.objectId t)
      checkTag cfg expected blob.tag
      pure path) := by
  have hne : blob.storageId ≠ sessionStorageId := by
    rw [hblob]
    decide
  have hpath : ∀ ctx, resolvePath cfg w ctx blob = limestonePath cfg w.files blob.objectId := by
    intro ctx
    rw [resolvePath, if_neg hne, if_pos hblob]
  have howner : checkOwner w.manager ⟨(w.manager.blobSessionIds[t]?).getD 0, some t,
      (w.manager.blobSessionIds[t]?).isNone⟩ = .ok () := by
    cases hs : w.manager.blobSessionIds[t]? with
    | none => rfl
    | some s => exact checkOwner_indexed hm hs
  simp only [authorise, readContext_transaction, ok_bind, howner, hpath, expectedTag]

theorem sendBlob_congr {env : GetEnv} {fs fs' : Files} (h : fs.Alike fs' path) :
    sendBlob cfg env fs path = sendBlob cfg env fs' path := by
  have hsize : fs.fileSize path = fs'.fileSize path := by simp only [FileSystem.fileSize, h.2]
  simp only [sendBlob, h.1, hsize, drain_openRead_congr h.2]

theorem limestonePath_congr {fs fs' : Files} {b : ℕ}
    (h : ∀ p, cfg.api.getPath b = .ok p → fs.Alike fs' p) :
    limestonePath cfg fs b = limestonePath cfg fs' b := by
  unfold limestonePath
  cases hp : cfg.api.getPath b with
  | error e => rfl
  | ok p =>
    show (if fs.present p then _ else _) = (if fs'.present p then _ else _)
    rw [(h p hp).1]

theorem get_datastore_congr {env : GetEnv} {v : ℕ} {t : TransactionId} {blob : BlobReference}
    (hm : w.manager.IndexSound) (hm' : w'.manager.IndexSound)
    (hblob : blob.storageId = limestoneBlobStore)
    (h : ∀ p, cfg.api.getPath blob.objectId = .ok p → w.files.Alike w'.files p) :
    get cfg env ⟨v, some (.transactionId t), blob⟩ w =
      get cfg env ⟨v, some (.transactionId t), blob⟩ w' := by
  have hauth : authorise cfg w ⟨v, some (.transactionId t), blob⟩ =
      authorise cfg w' ⟨v, some (.transactionId t), blob⟩ := by
    rw [authorise_datastore hm hblob, authorise_datastore hm' hblob, limestonePath_congr h]
  unfold get
  rw [hauth]
  split
  · split
    · rename_i path hpath
      rw [authorise_datastore hm' hblob] at hpath
      obtain ⟨p, hp, hrest⟩ := bind_ok_iff.mp hpath
      have hget := (limestonePath_ok_iff.mp hp).1
      obtain ⟨expected, _, htag⟩ := bind_ok_iff.mp hrest
      obtain ⟨_, _, hpure⟩ := bind_ok_iff.mp htag
      cases hpure
      exact sendBlob_congr (h _ hget)
    · rfl
  · rfl

/-- In every state reached with fewer than 2^64 creations, a session and the
transaction it is found by are answered alike; and a datastore blob is sent by its
transaction whatever sessions there are. -/
theorem contexts_interchangeable {σ₀ σ : System} {ls : List SystemMove} (h₀ : Initial cfg σ₀)
    (hrun : Run (systemStep cfg) (fun _ _ => True) σ₀ ls σ)
    (hcount : ls.countP createsSession < 2^64) :
    (∀ env v blob t s, σ.shared.manager.getSessionId t = .ok s →
      get cfg env ⟨v, some (.sessionId s), blob⟩ σ.shared =
        get cfg env ⟨v, some (.transactionId t), blob⟩ σ.shared) ∧
    ∀ (σ₀' σ' : System) (ls' : List SystemMove), Initial cfg σ₀' →
      Run (systemStep cfg) (fun _ _ => True) σ₀' ls' σ' → ls'.countP createsSession < 2^64 →
      ∀ env v blob t, blob.storageId = limestoneBlobStore →
        (∀ p, cfg.api.getPath blob.objectId = .ok p → σ.shared.files.Alike σ'.shared.files p) →
        get cfg env ⟨v, some (.transactionId t), blob⟩ σ.shared =
          get cfg env ⟨v, some (.transactionId t), blob⟩ σ'.shared := by
  have hm := (numbered_run h₀ hrun hcount).index
  constructor
  · intro env v blob t s hs
    have hauth : authorise cfg σ.shared ⟨v, some (.sessionId s), blob⟩ =
        authorise cfg σ.shared ⟨v, some (.transactionId t), blob⟩ :=
      authorise_interchangeable hm hs v blob
    simp only [get, hauth]
  · intro σ₀' σ' ls' h₀' hrun' hcount' env v blob t hblob hfiles
    exact get_datastore_congr hm (numbered_run h₀' hrun' hcount').index hblob hfiles

/-- What the service does of it. -/
def SessionOp.move : SessionOp → SystemMove
  | .createSession t => .env (.createSession t)
  | .dispose s => .call (.dispose s)

theorem contexts_differ : ¬ ∀ (cfg : Config) (σ₀ σ : System) (ls : List SystemMove),
    Initial cfg σ₀ → Run (systemStep cfg) (fun _ _ => True) σ₀ ls σ →
    ∀ env v blob t s, σ.shared.manager.getSessionId t = .ok s → ∀ st st' sent sent',
      get cfg env ⟨v, some (.sessionId s), blob⟩ σ.shared = some (.returned st, sent) →
      get cfg env ⟨v, some (.transactionId t), blob⟩ σ.shared = some (.returned st', sent') →
      st.code = st'.code ∧ sent = sent' := by
  intro h
  obtain ⟨ops, m, hcreates, hfound, impl, hs, hnone⟩ := createSession_wraps
  -- the creations as a run of the service
  have hstep : ∀ m op m', op.creates = true → sessionStep op m = some m' →
      True ∧ systemStep smallConfig op.move ⟨⟨m, smallStart.shared.files⟩, []⟩ =
        some ⟨⟨m', smallStart.shared.files⟩, []⟩ := by
    intro m op m' hc hst
    cases op with
    | createSession t =>
      cases hst
      exact ⟨trivial, rfl⟩
    | dispose s => cases hc
  have hrun : Run (systemStep smallConfig) (fun _ _ => True) smallStart (ops.map SessionOp.move)
      ⟨⟨m, smallStart.shared.files⟩, []⟩ :=
    hcreates.simulate (fun m => (⟨⟨m, smallStart.shared.files⟩, []⟩ : System)) _ hstep
  have himpl := BlobSessionManager.getSessionImpl_of_some hs
  have hdenied : get smallConfig .calm ⟨1, some (.transactionId 5), ⟨9, 0, 0⟩⟩
      ⟨m, smallStart.shared.files⟩ = some (.returned GetStatus.withoutTransaction, []) := by
    have howner : checkOwner m ⟨1, some 5, false⟩ =
        .error (.status GetStatus.withoutTransaction) := by
      simp only [checkOwner, himpl, raising, ok_bind, ownerCheck, hnone]
    have hauth : authorise smallConfig ⟨m, smallStart.shared.files⟩
        ⟨1, some (.transactionId 5), ⟨9, 0, 0⟩⟩ =
          .error (.status GetStatus.withoutTransaction) := by
      simp only [authorise, readContext_indexed hfound, ok_bind, howner]
      rfl
    simp only [get, hauth]
    rfl
  have hcodes := h smallConfig smallStart _ _ smallStart_initial hrun .calm 1 ⟨9, 0, 0⟩ 5 1 hfound
    GetStatus.noStorage GetStatus.withoutTransaction [] [] rfl hdenied
  cases hcodes.1

/-- The datastore's file alone. -/
def datastoreOnly : List SystemMove := [.env (.outsideWrite ["datastore", "1"] [9])]

theorem contexts_interchangeable_five : ∃ σ σ' : System,
    runs smallConfig bothStorages smallStart = some σ ∧
    runs smallConfig datastoreOnly smallStart = some σ' ∧
    get smallConfig .calm ⟨1, some (.transactionId 5), ⟨0, 1, 6⟩⟩ σ.shared =
      some (.returned GetStatus.ok, [.metadata (some 3), .chunk [1, 2], .chunk [3]]) ∧
    get smallConfig .calm ⟨1, some (.sessionId 1), ⟨1, 1, 6⟩⟩ σ.shared =
      some (.returned GetStatus.ok, [.metadata (some 1), .chunk [9]]) ∧
    get smallConfig .calm ⟨1, some (.transactionId 5), ⟨1, 1, 6⟩⟩ σ'.shared =
      some (.returned GetStatus.ok, [.metadata (some 1), .chunk [9]]) := by
  obtain ⟨σ, e, hσ, _, _, _, hindexed, hfile, hsession, hdatastore⟩ := bothStorages_reached
  obtain ⟨σ', hσ', hfile'⟩ := (Option.any_eq_true
    (fun σ : System => σ.shared.files.contents ["datastore", "1"] == some [9]) _).mp
    (by decide : (runs smallConfig datastoreOnly smallStart).any _ = true)
  have hrun : Run (systemStep smallConfig) (fun _ _ => True) smallStart bothStorages σ :=
    .of_exec hσ fun _ _ _ _ => trivial
  have hrun' : Run (systemStep smallConfig) (fun _ _ => True) smallStart datastoreOnly σ' :=
    .of_exec hσ' fun _ _ _ _ => trivial
  obtain ⟨hcontexts, hsessions⟩ := contexts_interchangeable smallStart_initial hrun (by decide)
  have halike : ∀ p, smallConfig.api.getPath 1 = .ok p →
      σ.shared.files.Alike σ'.shared.files p := by
    intro p hp
    obtain rfl : ["datastore", "1"] = p := Except.ok.inj hp
    have hsame := beq_iff_eq.mp hfile'
    exact ⟨(FileSystem.present_of_contents hfile).trans
      (FileSystem.present_of_contents hsame).symm, hfile.trans hsame.symm⟩
  refine ⟨σ, σ', hσ, hσ', ?_, ?_, ?_⟩
  · exact (hcontexts .calm 1 ⟨0, 1, 6⟩ 5 1 hindexed).symm.trans hsession
  · exact (hcontexts .calm 1 ⟨1, 1, 6⟩ 5 1 hindexed).trans hdatastore
  · exact (hsessions smallStart σ' datastoreOnly smallStart_initial hrun' (by decide) .calm 1
      ⟨1, 1, 6⟩ 5 rfl halike).symm.trans hdatastore

end BlobRelay
