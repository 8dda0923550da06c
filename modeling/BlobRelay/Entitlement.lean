import BlobRelay.Responses
import BlobRelay.SessionIndex

/-! # A download is decided at one moment

`Get` takes the manager's mutex for each of its lookups and gives it back in between:
sessions come and go and blobs are deleted while it finds its session, its blob and its
tag. What it sends it was entitled to all the same, at one moment of the call, and when it
sends nothing there was a moment at which access was not granted. -/

namespace BlobRelay
open Foundation Foundation.FileStore

/-- The context names a session, by its id or by the transaction it was created with. -/
def NamesSession (c : Option ContextId) (s : ℕ) (owner : Option TransactionId) : Prop :=
  c = some (.sessionId s) ∨ ∃ t, owner = some t ∧ c = some (.transactionId t)

/-- The session named by the context has the blob at `path`, or the datastore has it
there, and the tag is the blob's. -/
structure Entitled (cfg : Config) (w : World) (request : GetStreamingRequest) (path : Path) :
    Prop where
  blob : (request.blob.storageId = sessionStorageId ∧
      ∃ s owner n, w.manager.Owner s owner ∧ NamesSession request.contextId s owner ∧
        w.manager.Entry s request.blob.objectId (path, n)) ∨
    (request.blob.storageId = limestoneBlobStore ∧
      cfg.api.getPath request.blob.objectId = .ok path)
  tag : TagAccepted cfg w.manager request

/-- No file can be sent: whatever path access is granted to, there is no file. -/
def Withheld (cfg : Config) (request : GetStreamingRequest) (w : World) : Prop :=
  ∀ path, Granted cfg w request path → w.files.contents path = none

/-- Neither question about the file throws. -/
def Fault.Answers (f : Fault) : Prop := f ≠ .existsThrows ∧ f ≠ .sizeThrows

instance (f : Fault) : Decidable f.Answers := inferInstanceAs (Decidable (_ ∧ _))

/-- Nor in a step of thread `i`. -/
def AnswersTo (i : ℕ) : SystemMove → Prop
  | .run j f => j = i → f.Answers
  | _ => True

instance (i : ℕ) : DecidablePred (AnswersTo i)
  | .run j f => inferInstanceAs (Decidable (j = i → f.Answers))
  | .env _ => isTrue trivial
  | .call _ => isTrue trivial

/-- What held at a moment of the run so far. -/
def Was (cfg : Config) (σ₀ : System) (P : World → Prop) : List SystemMove → System → Prop :=
  Once (systemStep cfg) (fun σ _ => Headroom σ.shared) σ₀ fun _ τ => P τ.shared

/-- The size was sent first: of a file that the call had been entitled to before. -/
def Announced (cfg : Config) (request : GetStreamingRequest) (σ₀ : System) (ls : List SystemMove)
    (σ : System) (written : List GetStreamingResponse) : Prop :=
  ∃ (path : Path) (size : ℕ) (rest : List GetStreamingResponse),
    written = .metadata (some size) :: rest ∧
      Once (systemStep cfg) (fun σ _ => Headroom σ.shared) σ₀
        (fun ls τ => τ.shared.files.fileSize path = some size ∧
          Was cfg σ₀ (fun w => Entitled cfg w request path) ls τ) ls σ

variable {cfg : Config} {f : Fault} {request : GetStreamingRequest} {w w' : World}
  {m : BlobSessionManager} {c : Option ContextId} {ctx : GetContext} {path : Path}
  {pc pc' : GetPc} {written : List GetStreamingResponse} {σ₀ σ σ' : System}
  {l : SystemMove} {ls : List SystemMove}

/-- Where access is granted the call is entitled to the file. -/
theorem Granted.entitled (hm : w.manager.IndexSound) (h : Granted cfg w request path) :
    Entitled cfg w request path := by
  refine ⟨?_, h.tag⟩
  rcases h.blob with ⟨hstorage, s, n, hs, he⟩ | hstore
  · left
    obtain ⟨impl, himpl⟩ := he.live
    have howner : w.manager.Owner s impl.transactionIdOpt := ⟨impl, himpl, rfl⟩
    refine ⟨hstorage, s, impl.transactionIdOpt, n, howner, ?_, he⟩
    unfold contextSession at hs
    split at hs
    · cases hs
      exact Or.inl ‹_›
    · rename_i t hc
      exact Or.inr ⟨t, howner.unique (hm t s hs), hc⟩
    · cases hs
  · exact Or.inr hstore

/-- By session id there is nothing between the two. -/
theorem granted_iff_entitled {s : ℕ} (hc : request.contextId = some (.sessionId s)) :
    Granted cfg w request path ↔ Entitled cfg w request path := by
  obtain ⟨version, contextId, blob⟩ := request
  obtain rfl : contextId = some (.sessionId s) := hc
  constructor
  · intro h
    refine ⟨?_, h.tag⟩
    rcases h.blob with ⟨hstorage, r, n, hr, he⟩ | hstore
    · cases hr
      obtain ⟨impl, himpl⟩ := he.live
      exact Or.inl ⟨hstorage, s, _, n, ⟨impl, himpl, rfl⟩, Or.inl rfl, he⟩
    · exact Or.inr hstore
  · intro h
    obtain ⟨k, tag, ⟨t, howner, hk⟩, htag⟩ := h.tag
    refine ⟨howner.live, ?_, h.tag⟩
    rcases h.blob with ⟨hstorage, r, owner, n, _, hnames, he⟩ | hstore
    · rcases hnames with hr | ⟨t, _, hr⟩
      · cases hr
        exact Or.inl ⟨hstorage, s, n, rfl, he⟩
      · cases hr
    · exact Or.inr hstore

/-! ### What the decision rests on -/

/-- Session `s` is of `owner` for as long as it lives. -/
def Belongs (m : BlobSessionManager) (s : ℕ) (owner : Option TransactionId) : Prop :=
  s ≤ m.sessionId ∧ ∀ u, m.Owner s u → u = owner

theorem belongs_of_owner (hw : WorldInv cfg w) {s : ℕ} {owner : Option TransactionId}
    (h : w.manager.Owner s owner) : Belongs w.manager s owner :=
  ⟨(hw.sessionIds s h.live).2, fun _ hu => hu.unique h⟩

theorem belongs_keeps {m' : BlobSessionManager} {s : ℕ} {owner : Option TransactionId}
    (h : Belongs m s owner) (hk : KeepsSessions m m') : Belongs m' s owner := by
  refine ⟨?_, fun u hu => h.2 u ((hk.owner s u).mp hu)⟩
  rw [hk.sessionId]
  exact h.1

theorem belongs_step (hw : WorldInv cfg σ.shared) (hroom : Headroom σ.shared)
    (hst : systemStep cfg l σ = some σ') {s : ℕ} {owner : Option TransactionId}
    (h : Belongs σ.shared.manager s owner) : Belongs σ'.shared.manager s owner := by
  rcases systemStep_sessions hst with ⟨_, hkeep⟩ | ⟨op, _, hop⟩
  · exact belongs_keeps h hkeep
  · cases op with
    | createSession t =>
      have hm : (σ.shared.manager.createSession t).2 = σ'.shared.manager := Option.some.inj hop
      have hfresh : ¬ σ.shared.manager.Live (add64 σ.shared.manager.sessionId 1) := by
        intro hl
        have hle := (hw.sessionIds _ hl).2
        rw [add64_of_lt hroom.2] at hle
        omega
      rw [← hm]
      refine ⟨?_, fun u hu => ?_⟩
      · show s ≤ add64 σ.shared.manager.sessionId 1
        rw [add64_of_lt hroom.2]
        exact h.1.trans (Nat.le_succ _)
      · -- the session created is another one
        rcases (BlobSessionManager.owner_createSession hfresh).mp hu with hold | ⟨rfl, _⟩
        · exact h.2 u hold
        · have hle := h.1
          rw [add64_of_lt hroom.2] at hle
          omega
    | dispose r =>
      have hm : σ.shared.manager.dispose r = σ'.shared.manager := Option.some.inj hop
      rw [← hm]
      refine ⟨?_, fun u hu => h.2 u (BlobSessionManager.owner_dispose.mp hu).1⟩
      rw [BlobSessionManager.sessionId_dispose]
      exact h.1

/-- A transaction is found under the session it was found under before, or not at all. -/
theorem index_step (hst : systemStep cfg l σ = some σ') {t : TransactionId} {s : ℕ}
    (h : σ.shared.manager.blobSessionIds[t]? = some s) :
    σ'.shared.manager.blobSessionIds[t]? = some s ∨
      σ'.shared.manager.blobSessionIds[t]? = none := by
  rcases systemStep_sessions hst with ⟨_, hkeep⟩ | ⟨op, _, hop⟩
  · left
    rw [hkeep.index]
    exact h
  · cases op with
    | createSession u =>
      left
      have hm : (σ.shared.manager.createSession u).2 = σ'.shared.manager := Option.some.inj hop
      rw [← hm, BlobSessionManager.index_createSession, h]
      simp
    | dispose r =>
      have hm : σ.shared.manager.dispose r = σ'.shared.manager := Option.some.inj hop
      rw [← hm]
      rcases BlobSessionManager.index_dispose (m := σ.shared.manager) (s := r) t with
        ⟨hnone, _⟩ | ⟨hsame, _⟩
      · exact Or.inr hnone
      · exact Or.inl (hsame.trans h)

/-- An entry keeps its path until it goes, and does not come back. -/
theorem entry_step (hw : WorldInv cfg w) (hevolves : Evolves w w') {s b n : ℕ}
    (h : w.manager.Entry s b (path, n)) {e : Path × ℕ} (h' : w'.manager.Entry s b e) :
    e.1 = path := by
  rcases hevolves.entry s b e h' with ⟨d, hd, hpath⟩ | hnew
  · rw [hpath, hd.unique h]
  · have hle := (hw.blobIds s b _ h).2
    omega

/-! ### What is sent was earned -/

/-- A context as some state of the manager gave it. -/
def ReadFrom (c : Option ContextId) (ctx : GetContext) : Prop :=
  ∃ m, readContext m c = .ok ctx

theorem readFrom_cases (h : ReadFrom c ctx) :
    (c = some (.sessionId ctx.sessionId) ∧ ctx.transactionId = none ∧ ctx.rawTransaction = false) ∨
      ∃ t, c = some (.transactionId t) ∧ ctx.transactionId = some t := by
  obtain ⟨m, h⟩ := h
  cases c with
  | none => cases h
  | some c =>
    cases c with
    | sessionId s =>
      cases h
      exact Or.inl ⟨rfl, rfl, rfl⟩
    | transactionId t =>
      rw [readContext_transaction] at h
      cases h
      exact Or.inr ⟨t, rfl, rfl⟩

/-- The blob is the datastore's, or it was in the session that the context names. -/
def Located (cfg : Config) (request : GetStreamingRequest) (σ₀ : System) (ls : List SystemMove)
    (σ : System) (ctx : GetContext) (path : Path) : Prop :=
  (request.blob.storageId = limestoneBlobStore ∧ cfg.api.getPath request.blob.objectId = .ok path) ∨
  (request.blob.storageId = sessionStorageId ∧ ∃ owner,
    NamesSession request.contextId ctx.sessionId owner ∧
      Belongs σ.shared.manager ctx.sessionId owner ∧
      Was cfg σ₀ (fun w => w.manager.Owner ctx.sessionId owner ∧
        ∃ n, w.manager.Entry ctx.sessionId request.blob.objectId (path, n)) ls σ)

/-- What a `Get` has established by each program point. -/
def Earned (cfg : Config) (request : GetStreamingRequest) (σ₀ : System) (ls : List SystemMove)
    (σ : System) : GetPc → Prop
  | .called => True
  | .ownerLookup ctx t => ReadFrom request.contextId ctx ∧ ctx.transactionId = some t
  | .ownerHeld ctx t => ReadFrom request.contextId ctx ∧ ctx.transactionId = some t
  | .resolving ctx => ReadFrom request.contextId ctx ∧ ∀ t, ctx.transactionId = some t →
      ctx.rawTransaction = false → Belongs σ.shared.manager ctx.sessionId (some t)
  | .findHeld ctx => request.blob.storageId = sessionStorageId ∧ ReadFrom request.contextId ctx ∧
      ∀ t, ctx.transactionId = some t → Belongs σ.shared.manager ctx.sessionId (some t)
  | .tagging ctx path => ReadFrom request.contextId ctx ∧ Located cfg request σ₀ ls σ ctx path
  | .tagHeld ctx path => ReadFrom request.contextId ctx ∧ ctx.transactionId = none ∧
      Located cfg request σ₀ ls σ ctx path
  | .authorised path => Was cfg σ₀ (fun w => Entitled cfg w request path) ls σ
  | .sizing path => Was cfg σ₀ (fun w => Entitled cfg w request path) ls σ
  | .opening _ written => Announced cfg request σ₀ ls σ written
  | .reading _ written => Announced cfg request σ₀ ls σ written
  | .finished _ written => written ≠ [] → Announced cfg request σ₀ ls σ written

theorem announced_later (h : Announced cfg request σ₀ ls σ written) (hroom : Headroom σ.shared)
    (hst : systemStep cfg l σ = some σ') : Announced cfg request σ₀ (ls ++ [l]) σ' written := by
  obtain ⟨path, size, rest, hwritten, honce⟩ := h
  exact ⟨path, size, rest, hwritten, honce.later hroom hst⟩

theorem announced_more (h : Announced cfg request σ₀ ls σ written)
    (more : List GetStreamingResponse) :
    Announced cfg request σ₀ ls σ (written ++ more) := by
  obtain ⟨path, size, rest, rfl, honce⟩ := h
  exact ⟨path, size, rest ++ more, rfl, honce⟩

theorem located_later (hw : WorldInv cfg σ.shared) (hroom : Headroom σ.shared)
    (hst : systemStep cfg l σ = some σ') (h : Located cfg request σ₀ ls σ ctx path) :
    Located cfg request σ₀ (ls ++ [l]) σ' ctx path := by
  rcases h with hstore | ⟨hstorage, owner, hnames, hbelongs, hwas⟩
  · exact Or.inl hstore
  · exact Or.inr ⟨hstorage, owner, hnames, belongs_step hw hroom hst hbelongs,
      hwas.later hroom hst⟩

/-- While others move. -/
theorem earned_later (hw : WorldInv cfg σ.shared) (hroom : Headroom σ.shared)
    (hst : systemStep cfg l σ = some σ') (h : Earned cfg request σ₀ ls σ pc) :
    Earned cfg request σ₀ (ls ++ [l]) σ' pc := by
  cases pc with
  | called => trivial
  | ownerLookup ctx t => exact h
  | ownerHeld ctx t => exact h
  | resolving ctx =>
    exact ⟨h.1, fun t ht hraw => belongs_step hw hroom hst (h.2 t ht hraw)⟩
  | findHeld ctx =>
    exact ⟨h.1, h.2.1, fun t ht => belongs_step hw hroom hst (h.2.2 t ht)⟩
  | tagging ctx path => exact ⟨h.1, located_later hw hroom hst h.2⟩
  | tagHeld ctx path => exact ⟨h.1, h.2.1, located_later hw hroom hst h.2.2⟩
  | authorised path => exact Once.later h hroom hst
  | sizing path => exact Once.later h hroom hst
  | opening p written => exact announced_later h hroom hst
  | reading ins written => exact announced_later h hroom hst
  | finished o written => exact fun hne => announced_later (h hne) hroom hst

/-- What has been written at a program point. -/
def GetPc.responses : GetPc → List GetStreamingResponse
  | .opening _ written => written
  | .reading _ written => written
  | .finished _ written => written
  | _ => []

theorem responses_ofExcept {α : Type} {next : α → GetPc} {x : Except GetExit α}
    (hnext : ∀ a, (next a).responses = []) : (GetPc.ofExcept next x).responses = [] := by
  cases x with
  | ok a => exact hnext a
  | error e => rfl

/-- The end adds nothing to what has been written. -/
theorem responses_finished {o : GetOutcome}
    (h : getPcStep cfg f request w pc = some (.finished o written)) : written = pc.responses := by
  have hafter : ∀ {ctx : GetContext}, (GetPc.afterContext ctx).responses = [] := by
    intro ctx
    unfold GetPc.afterContext
    split <;> rfl
  have hnone : ∀ {pc' : GetPc}, pc'.responses = [] → pc' = .finished o written → written = [] := by
    intro pc' hpc' heq
    subst heq
    exact hpc'
  cases pc with
  | called =>
    dsimp only [getPcStep] at h
    split at h
    · exact hnone (responses_ofExcept fun _ => hafter) (Option.some.inj h)
    · exact hnone rfl (Option.some.inj h)
  | ownerLookup ctx t => exact hnone (responses_ofExcept fun _ => rfl) (Option.some.inj h)
  | ownerHeld ctx t =>
    obtain ⟨impl, _, heq⟩ := Option.map_eq_some_iff.mp h
    exact hnone (responses_ofExcept fun _ => rfl) heq
  | resolving ctx =>
    dsimp only [getPcStep] at h
    split at h
    · split at h
      · exact hnone rfl (Option.some.inj h)
      · exact hnone (responses_ofExcept fun _ => rfl) (Option.some.inj h)
    · split at h
      · exact hnone (responses_ofExcept fun _ => rfl) (Option.some.inj h)
      · exact hnone rfl (Option.some.inj h)
  | findHeld ctx =>
    obtain ⟨impl, _, heq⟩ := Option.map_eq_some_iff.mp h
    exact hnone (responses_ofExcept fun _ => rfl) heq
  | tagging ctx path =>
    dsimp only [getPcStep] at h
    split at h
    · exact hnone (responses_ofExcept fun _ => rfl) (Option.some.inj h)
    · exact hnone (responses_ofExcept fun _ => rfl) (Option.some.inj h)
  | tagHeld ctx path =>
    obtain ⟨impl, _, heq⟩ := Option.map_eq_some_iff.mp h
    exact hnone (responses_ofExcept fun _ => rfl) heq
  | authorised path =>
    dsimp only [getPcStep] at h
    split at h
    · cases h
      rfl
    · split at h <;> cases h
      rfl
  | sizing path =>
    dsimp only [getPcStep] at h
    split at h <;> cases h
    rfl
  | opening path written =>
    dsimp only [getPcStep] at h
    split at h <;> cases h
    rfl
  | reading ins written =>
    dsimp only [getPcStep] at h
    split at h <;> cases h
    rfl
  | finished o written => cases h

theorem earned_finished {o : GetOutcome}
    (h : getPcStep cfg f request σ.shared pc = some (.finished o written))
    (he : Earned cfg request σ₀ ls σ pc) :
    Earned cfg request σ₀ ls σ (.finished o written) := by
  obtain rfl := responses_finished h
  intro hne
  cases pc with
  | opening path written => exact he
  | reading ins written => exact he
  | finished o' written => exact he hne
  | _ => exact absurd rfl hne

/-- The tag of a session's transaction, and that of a transaction, at any moment. -/
theorem tagAccepted_transaction {t : TransactionId} {expected : BlobTag}
    (hc : request.contextId = some (.transactionId t))
    (htag : cfg.api.getTag request.blob.objectId t = .ok expected)
    (hcheck : checkTag cfg expected request.blob.tag = .ok ()) (m : BlobSessionManager) :
    TagAccepted cfg m request := by
  refine ⟨t, expected, ?_, htag, checkTag_ok_iff.mp hcheck⟩
  rw [hc]
  rfl

theorem tagAccepted_session {s : ℕ} {owner : Option TransactionId} {expected : BlobTag}
    (hc : request.contextId = some (.sessionId s)) (howner : m.Owner s owner)
    (htag : cfg.api.getTag request.blob.objectId (owner.getD s) = .ok expected)
    (hcheck : checkTag cfg expected request.blob.tag = .ok ()) : TagAccepted cfg m request := by
  refine ⟨_, expected, ?_, htag, checkTag_ok_iff.mp hcheck⟩
  rw [hc]
  exact ⟨owner, howner, rfl⟩

/-- The step of the tag check: by transaction the tag depends on no state, by session it is
that of the owner the session had when the blob was found. -/
theorem entitled_of_located (hrun : Run (systemStep cfg) (fun σ _ => Headroom σ.shared) σ₀ ls σ)
    (hl : Located cfg request σ₀ ls σ ctx path)
    (htag : ∀ w owner, (w = σ.shared ∨ (w.manager.Owner ctx.sessionId owner ∧
      Belongs σ.shared.manager ctx.sessionId owner)) → TagAccepted cfg w.manager request) :
    Was cfg σ₀ (fun w => Entitled cfg w request path) ls σ := by
  rcases hl with hstore | ⟨hstorage, owner, hnames, hbelongs, hwas⟩
  · exact Once.now hrun ⟨Or.inr hstore, htag _ none (Or.inl rfl)⟩
  · refine Once.mono hwas fun ls τ _ ⟨howner, n, he⟩ => ?_
    exact ⟨Or.inl ⟨hstorage, _, owner, n, howner, hnames, he⟩,
      htag τ.shared owner (Or.inr ⟨howner, hbelongs⟩)⟩

theorem earned_afterContext (h : readContext w.manager request.contextId = .ok ctx) :
    Earned cfg request σ₀ ls σ (GetPc.afterContext ctx) := by
  have hread : ReadFrom request.contextId ctx := ⟨_, h⟩
  unfold GetPc.afterContext
  split
  · rename_i t ht _
    exact ⟨hread, ht⟩
  · rename_i hother
    refine ⟨hread, fun t ht hraw => ?_⟩
    exact absurd hraw (hother t ht)

theorem earned_getStepped (hw : WorldInv cfg σ.shared)
    (hrun : Run (systemStep cfg) (fun σ _ => Headroom σ.shared) σ₀ ls σ)
    (h : getPcStep cfg f request σ.shared pc = some pc')
    (he : Earned cfg request σ₀ ls σ pc) : Earned cfg request σ₀ ls σ pc' := by
  cases getPcStep_cases h with
  | raised => exact earned_finished h he
  | denied => exact earned_finished h he
  | ended => exact earned_finished h he
  | contextRead hctx => exact earned_afterContext hctx
  | ownerFound => exact he
  | @ownerChecked ctx t impl hs =>
    obtain ⟨hread, ht⟩ := he
    cases hcheck : ownerCheck impl.transactionIdOpt t with
    | error e => exact fun hne => absurd rfl hne
    | ok =>
      refine ⟨hread, fun u hu _ => ?_⟩
      obtain rfl := Option.some.inj (ht.symm.trans hu)
      have howner : impl.transactionIdOpt = some t := by
        unfold ownerCheck at hcheck
        split at hcheck
        · rename_i v hv
          split at hcheck
          · cases hcheck
          · rename_i heq
            rw [hv, not_not.mp heq]
        · cases hcheck
      exact belongs_of_owner hw ⟨impl, hs, howner⟩
  | @sessionFound ctx hstorage hraw _ =>
    exact ⟨hstorage, he.1, fun t ht => he.2 t ht hraw⟩
  | @datastorePath ctx path hstorage hpath =>
    exact ⟨he.1, Or.inl ⟨hstorage, (limestonePath_ok_iff.mp hpath).1⟩⟩
  | @blobFound ctx path n hentry =>
    obtain ⟨hstorage, hread, hbelongs⟩ := he
    obtain ⟨impl, himpl⟩ := hentry.live
    have howner : σ.shared.manager.Owner ctx.sessionId impl.transactionIdOpt := ⟨impl, himpl, rfl⟩
    have hnames : NamesSession request.contextId ctx.sessionId impl.transactionIdOpt := by
      rcases readFrom_cases hread with ⟨hc, _⟩ | ⟨t, hc, ht⟩
      · exact Or.inl hc
      · exact Or.inr ⟨t, (hbelongs t ht).2 _ howner, hc⟩
    exact ⟨hread, Or.inr ⟨hstorage, _, hnames, belongs_of_owner hw howner,
      Once.now hrun ⟨howner, n, hentry⟩⟩⟩
  | tagSession hnone => exact ⟨he.1, hnone, he.2⟩
  | @tagged ctx path t expected ht htag hcheck =>
    refine entitled_of_located hrun he.2 fun w _ _ => ?_
    rcases readFrom_cases he.1 with ⟨_, hnone, _⟩ | ⟨u, hc, hu⟩
    · cases hnone.symm.trans ht
    · obtain rfl := Option.some.inj (hu.symm.trans ht)
      exact tagAccepted_transaction hc htag hcheck _
  | @sessionTagged ctx path impl expected hs htag hcheck =>
    obtain ⟨hread, hnone, hl⟩ := he
    rw [getTag_eq] at htag
    have hnow : σ.shared.manager.Owner ctx.sessionId impl.transactionIdOpt := ⟨impl, hs, rfl⟩
    have hc : request.contextId = some (.sessionId ctx.sessionId) := by
      rcases readFrom_cases hread with ⟨hc, _⟩ | ⟨u, _, hu⟩
      · exact hc
      · cases hnone.symm.trans hu
    refine entitled_of_located hrun hl fun w owner hmoment => ?_
    rcases hmoment with rfl | ⟨howner, hbelongs⟩
    · exact tagAccepted_session hc hnow htag hcheck
    · obtain rfl := hbelongs.2 _ hnow
      exact tagAccepted_session hc howner htag hcheck
  | present => exact he
  | @sized path n hsize => exact ⟨path, n, [], rfl, Once.now hrun ⟨hsize, he⟩⟩
  | opened => exact he
  | sent => exact announced_more he _

/-! ### What is refused was withheld -/

/-- Any request but one for a blob of the datastore by transaction: there `Get` looks for a
session that access does not rest on. -/
def NeedsContext (request : GetStreamingRequest) : Prop :=
  request.blob.storageId = limestoneBlobStore → ∀ t, request.contextId ≠ some (.transactionId t)

theorem withheld_of_blob
    (h : ∀ path, BlobPath cfg w.manager request path → w.files.contents path = none) :
    Withheld cfg request w :=
  fun path hg => h path hg.blob

theorem withheld_of_tag (h : ¬ TagAccepted cfg w.manager request) : Withheld cfg request w :=
  fun _ hg => absurd hg.tag h

theorem withheld_of_context
    (h : ¬ ContextResolves w.manager request.blob.storageId request.contextId) :
    Withheld cfg request w :=
  fun _ hg => absurd hg.context h

/-- Without a session for the context only the datastore's blobs are left. -/
theorem withheld_of_noSession (hneeds : NeedsContext request) {t : TransactionId}
    (hc : request.contextId = some (.transactionId t))
    (hnone : w.manager.blobSessionIds[t]? = none) : Withheld cfg request w := by
  refine withheld_of_blob fun path hblob => ?_
  rcases hblob with ⟨_, s, n, hs, _⟩ | ⟨hstore, _⟩
  · rw [hc, contextSession, hnone] at hs
    cases hs
  · exact absurd hc (hneeds hstore t)

theorem withheld_of_noEntry {s : ℕ} (hs : contextSession w.manager request.contextId = some s)
    (hstorage : request.blob.storageId = sessionStorageId)
    (hnone : ∀ e, ¬ w.manager.Entry s request.blob.objectId e) : Withheld cfg request w := by
  refine withheld_of_blob fun path hblob => ?_
  rcases hblob with ⟨_, r, n, hr, he⟩ | ⟨hstore, _⟩
  · cases hs.symm.trans hr
    exact absurd he (hnone _)
  · rw [hstorage] at hstore
    cases hstore

theorem blobPath_unique {path' : Path} (h : BlobPath cfg m request path)
    (h' : BlobPath cfg m request path') : path' = path := by
  rcases h with ⟨hstorage, s, n, hs, he⟩ | ⟨hstore, hpath⟩
  · rcases h' with ⟨_, r, n', hr, he'⟩ | ⟨hstore, _⟩
    · cases hs.symm.trans hr
      exact congrArg Prod.fst (he'.unique he)
    · rw [hstorage] at hstore
      cases hstore
  · rcases h' with ⟨hstorage, _⟩ | ⟨_, hpath'⟩
    · rw [hstore] at hstorage
      cases hstorage
    · exact Except.ok.inj (hpath'.symm.trans hpath)

theorem withheld_of_noFile (h : BlobPath cfg w.manager request path)
    (hnone : w.files.contents path = none) : Withheld cfg request w := by
  refine withheld_of_blob fun path' hblob => ?_
  rw [blobPath_unique h hblob]
  exact hnone

theorem contents_none_of_absent {fs : Files} (h : ¬ fs.present path = true) :
    fs.contents path = none := by
  cases hc : fs.contents path with
  | none => rfl
  | some bytes => exact absurd (FileSystem.present_of_contents hc) h

/-- The manager still gives the context that was read. -/
def Resolved (m : BlobSessionManager) (c : Option ContextId) (ctx : GetContext) : Prop :=
  readContext m c = .ok ctx ∧ ctx.rawTransaction = false

theorem resolved_cases (h : Resolved m c ctx) :
    contextSession m c = some ctx.sessionId ∧
      (c = some (.sessionId ctx.sessionId) ∧ ctx.transactionId = none ∨
        ∃ t, c = some (.transactionId t) ∧ ctx.transactionId = some t ∧
          m.blobSessionIds[t]? = some ctx.sessionId) := by
  obtain ⟨hctx, hraw⟩ := h
  cases c with
  | none => cases hctx
  | some c =>
    cases c with
    | sessionId s =>
      cases hctx
      exact ⟨rfl, Or.inl ⟨rfl, rfl⟩⟩
    | transactionId t =>
      rw [readContext_transaction] at hctx
      cases hctx
      cases hs : m.blobSessionIds[t]? with
      | none =>
        rw [hs] at hraw
        cases hraw
      | some s =>
        refine ⟨hs, Or.inr ⟨t, rfl, rfl, ?_⟩⟩
        rw [hs]
        rfl

theorem resolved_transaction {s : ℕ} {t : TransactionId} (hs : m.blobSessionIds[t]? = some s) :
    Resolved m (some (.transactionId t)) ⟨s, some t, false⟩ := by
  rw [Resolved, readContext_transaction, hs]
  exact ⟨rfl, rfl⟩

theorem resolved_step (hneeds : NeedsContext request) (hst : systemStep cfg l σ = some σ')
    (h : Resolved σ.shared.manager request.contextId ctx) :
    Resolved σ'.shared.manager request.contextId ctx ∨ Withheld cfg request σ'.shared := by
  obtain ⟨hctx, hraw⟩ := h
  rcases (resolved_cases ⟨hctx, hraw⟩).2 with ⟨hc, _⟩ | ⟨t, hc, ht, hs⟩
  · left
    rw [hc] at hctx ⊢
    exact ⟨hctx, hraw⟩
  · rcases index_step hst hs with hsame | hnone
    · left
      rw [hc]
      have hresolved := resolved_transaction hsame
      have heq : ctx = ⟨ctx.sessionId, some t, false⟩ := by
        rw [← ht, ← hraw]
      rw [heq]
      exact hresolved
    · exact Or.inr (withheld_of_noSession hneeds hc hnone)

/-- A place stays the blob's, or the blob cannot be reached. -/
theorem blobPath_step (hw : WorldInv cfg σ.shared) (hevolves : Evolves σ.shared σ'.shared)
    (hst : systemStep cfg l σ = some σ') (hneeds : NeedsContext request)
    (h : BlobPath cfg σ.shared.manager request path) :
    BlobPath cfg σ'.shared.manager request path ∨ Withheld cfg request σ'.shared := by
  rcases h with ⟨hstorage, s, n, hs, he⟩ | hstore
  · have hsession : contextSession σ'.shared.manager request.contextId = some s ∨
        Withheld cfg request σ'.shared := by
      unfold contextSession at hs
      split at hs
      · rename_i r hc
        left
        rw [hc]
        exact hs
      · rename_i t hc
        rcases index_step hst hs with hsame | hnone
        · left
          rw [hc]
          exact hsame
        · exact Or.inr (withheld_of_noSession hneeds hc hnone)
      · cases hs
    rcases hsession with hs' | hwithheld
    · by_cases hentry : ∃ e, σ'.shared.manager.Entry s request.blob.objectId e
      · left
        obtain ⟨e, he'⟩ := hentry
        have hpath := entry_step hw hevolves he he'
        refine Or.inl ⟨hstorage, s, e.2, hs', ?_⟩
        rw [← hpath]
        exact he'
      · exact Or.inr (withheld_of_noEntry hs' hstorage (not_exists.mp hentry))
    · exact Or.inr hwithheld
  · exact Or.inl (Or.inr hstore)

/-- Nothing has told against the call so far. -/
def Unrefused (cfg : Config) (request : GetStreamingRequest) (m : BlobSessionManager) :
    GetPc → Prop
  | .called => True
  | .ownerLookup ctx t => Resolved m request.contextId ctx ∧ ctx.transactionId = some t
  | .ownerHeld ctx t => Resolved m request.contextId ctx ∧ ctx.transactionId = some t
  | .resolving ctx => Resolved m request.contextId ctx
  | .findHeld ctx => request.blob.storageId = sessionStorageId ∧ Resolved m request.contextId ctx
  | .tagging ctx path => Resolved m request.contextId ctx ∧ BlobPath cfg m request path
  | .tagHeld ctx path => ctx.transactionId = none ∧ Resolved m request.contextId ctx ∧
      BlobPath cfg m request path
  | .authorised path => BlobPath cfg m request path
  | .sizing path => BlobPath cfg m request path
  | .opening _ written => written ≠ []
  | .reading _ written => written ≠ []
  | .finished _ written => written ≠ []

/-- While others move. -/
theorem unrefused_later (hw : WorldInv cfg σ.shared) (hevolves : Evolves σ.shared σ'.shared)
    (hst : systemStep cfg l σ = some σ') (hneeds : NeedsContext request)
    (h : Unrefused cfg request σ.shared.manager pc) :
    Unrefused cfg request σ'.shared.manager pc ∨ Withheld cfg request σ'.shared := by
  have hresolved : ∀ {ctx : GetContext}, Resolved σ.shared.manager request.contextId ctx →
      Resolved σ'.shared.manager request.contextId ctx ∨ Withheld cfg request σ'.shared :=
    fun hs => resolved_step hneeds hst hs
  have hblob : ∀ {path : Path}, BlobPath cfg σ.shared.manager request path →
      BlobPath cfg σ'.shared.manager request path ∨ Withheld cfg request σ'.shared :=
    fun hb => blobPath_step hw hevolves hst hneeds hb
  cases pc with
  | called => exact Or.inl trivial
  | ownerLookup ctx t => exact (hresolved h.1).imp_left fun hs => ⟨hs, h.2⟩
  | ownerHeld ctx t => exact (hresolved h.1).imp_left fun hs => ⟨hs, h.2⟩
  | resolving ctx => exact hresolved h
  | findHeld ctx => exact (hresolved h.2).imp_left fun hs => ⟨h.1, hs⟩
  | tagging ctx path =>
    rcases hresolved h.1 with hs | hwithheld
    · exact (hblob h.2).imp_left fun hb => ⟨hs, hb⟩
    · exact Or.inr hwithheld
  | tagHeld ctx path =>
    rcases hresolved h.2.1 with hs | hwithheld
    · exact (hblob h.2.2).imp_left fun hb => ⟨h.1, hs, hb⟩
    · exact Or.inr hwithheld
  | authorised path => exact hblob h
  | sizing path => exact hblob h
  | opening p written => exact Or.inl h
  | reading ins written => exact Or.inl h
  | finished o written => exact Or.inl h

theorem unrefused_ofExcept {α : Type} {next : α → GetPc} {x : Except GetExit α}
    (hok : ∀ a, x = .ok a → Unrefused cfg request w.manager (next a) ∨ Withheld cfg request w)
    (herror : ∀ e, x = .error e → Withheld cfg request w) :
    Unrefused cfg request w.manager (.ofExcept next x) ∨ Withheld cfg request w := by
  cases x with
  | ok a => exact hok a rfl
  | error e => exact Or.inr (herror e rfl)

theorem unrefused_afterTag {x : Except Exn BlobTag} (hblob : BlobPath cfg w.manager request path)
    (htag : TagAccepted cfg w.manager request →
      ∃ tag, x = .ok tag ∧ checkTag cfg tag request.blob.tag = .ok ()) :
    Unrefused cfg request w.manager (.afterTag cfg request path (raising x)) ∨
      Withheld cfg request w := by
  by_cases haccepted : TagAccepted cfg w.manager request
  · left
    obtain ⟨tag, rfl, hcheck⟩ := htag haccepted
    have hpassed : GetPc.afterTag cfg request path (raising (.ok tag)) = .authorised path := by
      show GetPc.ofExcept _ (checkTag cfg tag request.blob.tag) = _
      rw [hcheck]
      rfl
    rw [hpassed]
    exact hblob
  · exact Or.inr (withheld_of_tag haccepted)

theorem not_live_of_error {s : ℕ} {e : GetExit}
    (h : raising (m.getSessionImpl s) = .error e) : ¬ m.Live s := by
  rintro ⟨impl, hs⟩
  rw [BlobSessionManager.getSessionImpl_of_some hs] at h
  cases h

theorem resolved_owner (hm : m.IndexSound) {t : TransactionId} (h : Resolved m c ctx)
    (ht : ctx.transactionId = some t) : m.Owner ctx.sessionId (some t) := by
  rcases (resolved_cases h).2 with ⟨_, hnone⟩ | ⟨u, _, hu, hs⟩
  · cases hnone.symm.trans ht
  · obtain rfl := Option.some.inj (hu.symm.trans ht)
    exact hm u _ hs

theorem unrefused_called (hneeds : NeedsContext request)
    (hv : checkApiVersion request.apiVersion = true)
    (h : getPcStep cfg f request w .called = some pc') :
    Unrefused cfg request w.manager pc' ∨ Withheld cfg request w := by
  simp only [getPcStep, hv, if_true, Option.some.injEq] at h
  subst h
  refine unrefused_ofExcept (fun ctx hctx => ?_) fun e he => ?_
  · by_cases hraw : ctx.rawTransaction = false
    · left
      unfold GetPc.afterContext
      split
      · rename_i t ht _
        exact ⟨⟨hctx, hraw⟩, ht⟩
      · exact ⟨hctx, hraw⟩
    · right
      rcases hc : request.contextId with _ | s | t
      · rw [hc] at hctx
        cases hctx
      · rw [hc] at hctx
        cases hctx
        exact absurd rfl hraw
      · rw [hc, readContext_transaction] at hctx
        cases hctx
        refine withheld_of_noSession hneeds hc ?_
        cases hs : w.manager.blobSessionIds[t]? with
        | none => rfl
        | some s =>
          rw [hs] at hraw
          exact absurd rfl hraw
  · refine withheld_of_context ?_
    rcases hc : request.contextId with _ | s | t
    · exact id
    · rw [hc] at he
      cases he
    · rw [hc, readContext_transaction] at he
      cases he

theorem unrefused_resolving (h : getPcStep cfg f request w (.resolving ctx) = some pc')
    (hs : Resolved w.manager request.contextId ctx) :
    Unrefused cfg request w.manager pc' ∨ Withheld cfg request w := by
  dsimp only [getPcStep] at h
  split at h
  · rename_i hstorage
    rw [if_neg (by rw [hs.2]; exact Bool.false_ne_true)] at h
    cases h
    refine unrefused_ofExcept (fun impl _ => Or.inl ⟨hstorage, hs⟩) fun e he => ?_
    exact withheld_of_noEntry (resolved_cases hs).1 hstorage
      fun d hd => not_live_of_error he hd.live
  · rename_i hother
    split at h
    · rename_i hstore
      cases h
      refine unrefused_ofExcept (fun path hpath => Or.inl ?_) fun e he => ?_
      · exact ⟨hs, Or.inr ⟨hstore, (limestonePath_ok_iff.mp hpath).1⟩⟩
      · refine withheld_of_blob fun path hblob => ?_
        rcases hblob with ⟨hstorage, _⟩ | ⟨_, hpath⟩
        · exact absurd hstorage hother
        · refine contents_none_of_absent fun hpresent => ?_
          cases (limestonePath_ok_iff.mpr ⟨hpath, hpresent⟩).symm.trans he
    · rename_i hneither
      refine Or.inr (withheld_of_blob fun path hblob => ?_)
      rcases hblob with ⟨hstorage, _⟩ | ⟨hstore, _⟩
      · exact absurd hstorage hother
      · exact absurd hstore hneither

theorem unrefused_tagging {path : Path}
    (h : getPcStep cfg f request w (.tagging ctx path) = some pc')
    (hs : Resolved w.manager request.contextId ctx) (hblob : BlobPath cfg w.manager request path) :
    Unrefused cfg request w.manager pc' ∨ Withheld cfg request w := by
  dsimp only [getPcStep] at h
  split at h
  · rename_i t ht
    cases h
    refine unrefused_afterTag hblob ?_
    rintro ⟨k, tag, hkey, htag, hcheck⟩
    rcases (resolved_cases hs).2 with ⟨_, hnone⟩ | ⟨u, hc, hu, _⟩
    · cases hnone.symm.trans ht
    · obtain rfl := Option.some.inj (hu.symm.trans ht)
      rw [hc] at hkey
      obtain rfl : k = u := hkey
      exact ⟨tag, htag, checkTag_ok_iff.mpr hcheck⟩
  · rename_i hnone
    cases h
    refine unrefused_ofExcept (fun impl _ => Or.inl ⟨hnone, hs, hblob⟩) fun e he => ?_
    rcases (resolved_cases hs).2 with ⟨hc, _⟩ | ⟨u, _, hu, _⟩
    · refine withheld_of_context ?_
      rw [hc]
      exact not_live_of_error he
    · cases hnone.symm.trans hu

/-- One step of the call itself. -/
theorem unrefused_getPcStep (hw : WorldInv cfg w) (hneeds : NeedsContext request)
    (hv : checkApiVersion request.apiVersion = true) (hf : f.Answers)
    (h : getPcStep cfg f request w pc = some pc') (hu : Unrefused cfg request w.manager pc) :
    Unrefused cfg request w.manager pc' ∨ Withheld cfg request w := by
  cases pc with
  | called => exact unrefused_called hneeds hv h
  | ownerLookup ctx t =>
    cases h
    refine unrefused_ofExcept (fun _ _ => Or.inl hu) fun e he => ?_
    exact absurd (resolved_owner hw.index hu.1 hu.2).live (not_live_of_error he)
  | ownerHeld ctx t =>
    obtain ⟨impl, hi, rfl⟩ := Option.map_eq_some_iff.mp h
    have howner : some t = impl.transactionIdOpt :=
      (resolved_owner hw.index hu.1 hu.2).unique ⟨impl, hi, rfl⟩
    have hcheck : ownerCheck impl.transactionIdOpt t = .ok () := by
      simp [ownerCheck, ← howner]
    rw [hcheck]
    exact Or.inl hu.1
  | resolving ctx => exact unrefused_resolving h hu
  | findHeld ctx =>
    obtain ⟨impl, hi, rfl⟩ := Option.map_eq_some_iff.mp h
    obtain ⟨hstorage, hs⟩ := hu
    unfold BlobSessionImpl.find
    cases hb : impl.blobs[request.blob.objectId]? with
    | some e =>
      exact Or.inl ⟨hs, Or.inl ⟨hstorage, _, e.2, (resolved_cases hs).1, impl, hi, hb⟩⟩
    | none =>
      refine Or.inr (withheld_of_noEntry (resolved_cases hs).1 hstorage fun e he => ?_)
      obtain ⟨impl', hi', hb'⟩ := he
      cases hi.symm.trans hi'
      cases hb.symm.trans hb'
  | tagging ctx path => exact unrefused_tagging h hu.1 hu.2
  | tagHeld ctx path =>
    obtain ⟨impl, hi, rfl⟩ := Option.map_eq_some_iff.mp h
    obtain ⟨hnone, hs, hblob⟩ := hu
    refine unrefused_afterTag hblob ?_
    rintro ⟨k, tag, hkey, htag, hcheck⟩
    rcases (resolved_cases hs).2 with ⟨hc, _⟩ | ⟨u, _, hu, _⟩
    · rw [hc] at hkey
      obtain ⟨t, howner, rfl⟩ := hkey
      obtain rfl : t = impl.transactionIdOpt := howner.unique ⟨impl, hi, rfl⟩
      exact ⟨tag, getTag_eq.trans htag, checkTag_ok_iff.mpr hcheck⟩
    · cases hnone.symm.trans hu
  | authorised path =>
    simp only [getPcStep, if_neg hf.1] at h
    split at h
    · cases h
      exact Or.inl hu
    · rename_i habsent
      exact Or.inr (withheld_of_noFile hu (contents_none_of_absent habsent))
  | sizing path =>
    simp only [getPcStep, if_neg hf.2] at h
    split at h
    · rename_i hsize
      exact Or.inr (withheld_of_noFile hu (Option.map_eq_none_iff.mp hsize))
    · cases h
      exact Or.inl (List.cons_ne_nil _ _)
  | opening p written =>
    dsimp only [getPcStep] at h
    split at h <;> cases h <;> exact Or.inl hu
  | reading ins written =>
    dsimp only [getPcStep] at h
    split at h
    · cases h
      exact Or.inl hu
    · cases h
      exact Or.inl (List.append_ne_nil_of_left_ne_nil hu _)
  | finished o written => cases h

/-! ### The whole call -/

/-- What holds of the call at every moment of it. -/
structure Calling (cfg : Config) (request : GetStreamingRequest) (i : ℕ) (σ₀ : System)
    (ls : List SystemMove) (σ : System) (pc : GetPc) : Prop where
  thread : σ.threads[i]? = some (.get request pc)
  earned : Earned cfg request σ₀ ls σ pc
  refused : NeedsContext request → checkApiVersion request.apiVersion = true →
    (∀ l ∈ ls, AnswersTo i l) →
    Was cfg σ₀ (Withheld cfg request) ls σ ∨ Unrefused cfg request σ.shared.manager pc

theorem calling_step {i : ℕ} (hinv : Inv cfg σ) (hroom : Headroom σ.shared)
    (hrun : Run (systemStep cfg) (fun σ _ => Headroom σ.shared) σ₀ ls σ)
    (hst : systemStep cfg l σ = some σ') (h : Calling cfg request i σ₀ ls σ pc) :
    ∃ pc', Calling cfg request i σ₀ (ls ++ [l]) σ' pc' := by
  obtain ⟨hsafe, hinv'⟩ := inv_step (hroom.room σ'.shared) hinv hst
  have hrun' : Run (systemStep cfg) (fun σ _ => Headroom σ.shared) σ₀ (ls ++ [l]) σ' :=
    hrun.append (.cons hroom hst (.nil σ'))
  have hearned := earned_later hinv.shared hroom hst h.earned
  have hrefused : NeedsContext request → checkApiVersion request.apiVersion = true →
      (∀ l' ∈ ls ++ [l], AnswersTo i l') → Was cfg σ₀ (Withheld cfg request) (ls ++ [l]) σ' ∨
        Unrefused cfg request σ'.shared.manager pc := by
    intro hneeds hv hasked
    rcases h.refused hneeds hv fun l' hl' => hasked l' (List.mem_append_left _ hl') with hwas | hu
    · exact Or.inl (hwas.later hroom hst)
    · rcases unrefused_later hinv.shared hsafe.evolves hst hneeds hu with hu' | hwithheld
      · exact Or.inr hu'
      · exact Or.inl (Once.now hrun' hwithheld)
  rcases Pool.step_at hst h.thread with ⟨_, hstays⟩ | ⟨f, t', rfl, hown, hmoved⟩
  · exact ⟨pc, hstays, hearned, hrefused⟩
  · -- the call moves, and leaves the world as it was
    obtain ⟨pc', hget, heq⟩ := Option.map_eq_some_iff.mp hown
    have hsame : σ.shared = σ'.shared := congrArg Prod.fst heq
    have hnext : Handler.get request pc' = t' := congrArg Prod.snd heq
    subst hnext
    rw [hsame] at hget
    refine ⟨pc', hmoved, earned_getStepped hinv'.shared hrun' hget hearned,
      fun hneeds hv hasked => ?_⟩
    rcases hrefused hneeds hv hasked with hwas | hu
    · exact Or.inl hwas
    · have hf : f.Answers := hasked (.run i f) (List.mem_append_right _ (List.mem_singleton_self _)) rfl
      rcases unrefused_getPcStep hinv'.shared hneeds hv hf hget hu with hu' | hwithheld
      · exact Or.inr hu'
      · exact Or.inl (Once.now hrun' hwithheld)

theorem calling_run {i : ℕ} (hσ₀ : Reachable cfg σ₀)
    (hcalled : σ₀.threads[i]? = some (.get request .called))
    (hrun : Run (systemStep cfg) (fun σ _ => Headroom σ.shared) σ₀ ls σ) :
    ∃ pc, Calling cfg request i σ₀ ls σ pc := by
  have hall : Inv cfg σ ∧ ∃ pc, Calling cfg request i σ₀ ls σ pc := by
    refine Run.along (I := fun ls σ => Inv cfg σ ∧ ∃ pc, Calling cfg request i σ₀ ls σ pc)
      ?_ ?_ hrun
    · exact ⟨hσ₀.inv, .called, hcalled, trivial, fun _ _ _ => Or.inr trivial⟩
    · rintro ls τ l τ' hrun ⟨hinv, pc, hpc⟩ hroom hst
      exact ⟨(inv_step (hroom.room τ'.shared) hinv hst).2, calling_step hinv hroom hrun hst hpc⟩
  exact hall.2

/-- However other calls interleave with a `Get`: if it sent anything, it sent the size of a
file first, that the file had at one moment of the call, and at one moment before that the
call was entitled to that file. If it ended and sent nothing, and neither of its questions
about the file threw, there was a moment of the call at which there was nothing it could
have been sent. -/
theorem get_decided_once {i : ℕ} {o : GetOutcome} (hσ₀ : Reachable cfg σ₀)
    (hcalled : σ₀.threads[i]? = some (.get request .called))
    (hrun : Run (systemStep cfg) (fun σ _ => Headroom σ.shared) σ₀ ls σ)
    (hi : σ.threads[i]? = some (.get request (.finished o written))) :
    (written ≠ [] → Announced cfg request σ₀ ls σ written) ∧
      (written = [] → NeedsContext request → checkApiVersion request.apiVersion = true →
        (∀ l ∈ ls, AnswersTo i l) → Was cfg σ₀ (Withheld cfg request) ls σ) := by
  obtain ⟨pc, hpc⟩ := calling_run hσ₀ hcalled hrun
  cases hi.symm.trans hpc.thread
  refine ⟨hpc.earned, fun hempty hneeds hv hasked => ?_⟩
  rcases hpc.refused hneeds hv hasked with hwas | hwritten
  · exact hwas
  · exact absurd hempty hwritten

/-- The blob is removed while it is read, and it is removed before it is found. -/
theorem get_decided_once_removed : ∃ σ₀ σ σ' : System, Reachable smallConfig σ₀ ∧
    σ₀.threads[1]? = some (.get downloadRequest .called) ∧
    (∃ written : List GetStreamingResponse, written ≠ [] ∧
      σ.threads[1]? = some (.get downloadRequest (.finished (.returned GetStatus.ok) written)) ∧
      Announced smallConfig downloadRequest σ₀ (removedAfter 8 3) σ written) ∧
    σ'.threads[1]? = some (.get downloadRequest (.finished (.returned GetStatus.noBlob) [])) ∧
      Was smallConfig σ₀ (Withheld smallConfig downloadRequest) (removedAfter 2 1) σ' := by
  obtain ⟨σ₀, hσ₀, hend⟩ := (Option.any_eq_true
    (fun σ : System => decide (Headroom σ.shared) &&
      σ.threads[1]?.bind Handler.download == some (downloadRequest, .called) &&
      ((runs smallConfig (removedAfter 8 3) σ).any fun σ' =>
        σ'.threads[1]?.bind Handler.download ==
          some (downloadRequest, .finished (.returned GetStatus.ok)
            [.metadata (some 4), .chunk [1, 2], .chunk [3, 4]])) &&
      (runs smallConfig (removedAfter 2 1) σ).any fun σ' =>
        σ'.threads[1]?.bind Handler.download ==
          some (downloadRequest, .finished (.returned GetStatus.noBlob) [])) _).mp
    (by decide : (runs smallConfig untilCalled smallStart).any _ = true)
  simp only [Bool.and_eq_true, decide_eq_true_eq, beq_iff_eq] at hend
  obtain ⟨⟨⟨hroom, hcalled⟩, hserved⟩, hrefused⟩ := hend
  obtain ⟨σ, hσ, hlast⟩ := (Option.any_eq_true _ _).mp hserved
  obtain ⟨σ', hσ', hlast'⟩ := (Option.any_eq_true _ _).mp hrefused
  have hreach : Reachable smallConfig σ₀ := .of_runs smallStart_initial hσ₀ hroom
  have hcall := eq_get_of_download hcalled
  have hget := eq_get_of_download (beq_iff_eq.mp hlast)
  have hget' := eq_get_of_download (beq_iff_eq.mp hlast')
  have hrun : Run (systemStep smallConfig) (fun σ _ => Headroom σ.shared) σ₀ (removedAfter 8 3) σ :=
    .of_exec hσ fun _ _ _ hc => of_decide_eq_true hc
  have hrun' : Run (systemStep smallConfig) (fun σ _ => Headroom σ.shared) σ₀
      (removedAfter 2 1) σ' := .of_exec hσ' fun _ _ _ hc => of_decide_eq_true hc
  have hneeds : NeedsContext downloadRequest := by
    intro hstore
    cases hstore
  refine ⟨σ₀, σ, σ', hreach, hcall, ⟨_, List.cons_ne_nil _ _, hget, ?_⟩, hget', ?_⟩
  · exact (get_decided_once hreach hcall hrun hget).1 (List.cons_ne_nil _ _)
  · exact (get_decided_once hreach hcall hrun' hget').2 rfl hneeds rfl (by decide)

def datastoreByTransaction : GetStreamingRequest := ⟨1, some (.transactionId 5), ⟨1, 7, 12⟩⟩

def untilTransactionCall : List SystemMove :=
  [.env (.createSession (some 5)), .env (.outsideWrite ["datastore", "7"] [1, 2, 3]),
    .call (.get datastoreByTransaction)]

/-- The session of the transaction is disposed of between the two lookups. -/
def disposedBetween : List SystemMove :=
  [.run 0 .none, .call (.dispose 1), .run 1 .none, .run 1 .none, .run 1 .none, .run 0 .none]

/-- A blob of the datastore is refused by transaction though it was granted, and its file
was there, at every moment of the call. -/
theorem datastore_refused_though_granted : ¬ ∀ (cfg : Config) (request : GetStreamingRequest)
    (σ₀ σ : System) (ls : List SystemMove) (i : ℕ) (o : GetOutcome), Reachable cfg σ₀ →
    σ₀.threads[i]? = some (.get request .called) →
    Run (systemStep cfg) (fun σ _ => Headroom σ.shared) σ₀ ls σ →
    σ.threads[i]? = some (.get request (.finished o [])) →
    checkApiVersion request.apiVersion = true →
    (∀ l ∈ ls, AnswersTo i l) → Was cfg σ₀ (Withheld cfg request) ls σ := by
  intro h
  obtain ⟨σ₀, hσ₀, hend⟩ := (Option.any_eq_true
    (fun σ : System => decide (Headroom σ.shared) &&
      σ.threads[0]?.bind Handler.download == some (datastoreByTransaction, .called) &&
      ((runs smallConfig disposedBetween σ).any fun σ' =>
        σ'.threads[0]?.bind Handler.download ==
          some (datastoreByTransaction, .finished (getCatch noSession) [])) &&
      disposedBetween.inits.all fun ls => (runs smallConfig ls σ).any fun σ' =>
        σ'.shared.files.contents ["datastore", "7"] == some [1, 2, 3]) _).mp
    (by decide : (runs smallConfig untilTransactionCall smallStart).any _ = true)
  simp only [Bool.and_eq_true, decide_eq_true_eq, beq_iff_eq, List.all_eq_true] at hend
  obtain ⟨⟨⟨hroom, hcalled⟩, hlast⟩, hthere⟩ := hend
  obtain ⟨σ, hσ, hrefused⟩ := (Option.any_eq_true _ _).mp hlast
  have hrun : Run (systemStep smallConfig) (fun σ _ => Headroom σ.shared) σ₀ disposedBetween σ :=
    .of_exec hσ fun _ _ _ hc => of_decide_eq_true hc
  obtain ⟨ls₁, ls₂, τ, hls, hbefore, hwithheld, _⟩ := h smallConfig datastoreByTransaction σ₀ σ
    disposedBetween 0 _ (.of_runs smallStart_initial hσ₀ hroom) (eq_get_of_download hcalled) hrun
    (eq_get_of_download (beq_iff_eq.mp hrefused)) rfl (by decide)
  have hgranted : Granted smallConfig τ.shared datastoreByTransaction ["datastore", "7"] :=
    ⟨Or.inr rfl, Or.inr ⟨rfl, rfl⟩, 5, 12, rfl, rfl, Or.inl rfl⟩
  have hinits : ls₁ ∈ disposedBetween.inits := by
    rw [List.mem_inits, hls]
    exact List.prefix_append ls₁ ls₂
  obtain ⟨τ', hτ', hfile⟩ := (Option.any_eq_true _ _).mp (hthere ls₁ hinits)
  have hτ : runs smallConfig ls₁ σ₀ = some τ :=
    hbefore.to_exec fun _ _ hroom => decide_eq_true hroom
  obtain rfl := Option.some.inj (hτ.symm.trans hτ')
  rw [hwithheld _ hgranted] at hfile
  cases beq_iff_eq.mp hfile

end BlobRelay
