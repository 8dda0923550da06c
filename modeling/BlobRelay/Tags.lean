import BlobRelay.GetDecision
import BlobRelay.Reception

/-! # Issued tags and checked tags

`Put` hands out `compute_tag`, keyed by the generator; `Get` compares with
`api.get_tag`, keyed by the datastore. The two agree where the datastore returns
what the generator computed, and nowhere else. -/

namespace BlobRelay
open Foundation Foundation.FileStore

/-- A `Get` for blob `b` of the session store in this context passes the tag check. -/
def Admits (cfg : Config) (w : World) (c : ContextId) (b : ℕ) (tag : BlobTag) : Prop :=
  ∃ path, authorise cfg w ⟨blobRelayApiVersion, some c, ⟨sessionStorageId, b, tag⟩⟩ = .ok path

variable {cfg : Config} {w : World} {s b : ℕ} {impl : BlobSessionImpl} {path : Path} {c : ContextId}

theorem entry_of_find (hs : w.manager.blobSessions[s]? = some impl) (hb : impl.find b = some path) :
    ∃ n, w.manager.Entry s b (path, n) := by
  obtain ⟨e, he, rfl⟩ := Option.map_eq_some_iff.mp hb
  exact ⟨e.2, impl, hs, he⟩

theorem tagKey_iff (hw : WorldInv cfg w) (hs : w.manager.blobSessions[s]? = some impl)
    (hc : contextSession w.manager (some c) = some s) {k : TransactionId} :
    TagKey w.manager (some c) k ↔ k = impl.transactionIdOpt.getD s := by
  have howner : w.manager.Owner s impl.transactionIdOpt := ⟨impl, hs, rfl⟩
  cases c with
  | sessionId r =>
    cases hc
    constructor
    · rintro ⟨t, ht, rfl⟩
      rw [ht.unique howner]
    · rintro rfl
      exact ⟨_, howner, rfl⟩
  | transactionId t =>
    have ht : some t = impl.transactionIdOpt := (hw.index t s hc).unique howner
    simp only [TagKey, ← ht, Option.getD_some]

theorem admits_iff (hw : WorldInv cfg w) (hmock : cfg.devAcceptMockTag = false)
    (hs : w.manager.blobSessions[s]? = some impl) (hb : impl.find b = some path)
    (hc : contextSession w.manager (some c) = some s) (tag : BlobTag) :
    Admits cfg w c b tag ↔ impl.getTag cfg s b = .ok tag := by
  rw [getTag_eq]
  constructor
  · rintro ⟨p, hp⟩
    obtain ⟨_, _, k, expected, hk, htag, hcheck⟩ := ((authorise_ok_iff hw).mp hp).1
    rw [tagKey_iff hw hs hc] at hk
    subst hk
    rcases hcheck with rfl | ⟨hdev, _⟩
    · exact htag
    · rw [hmock] at hdev
      cases hdev
  · intro htag
    obtain ⟨n, he⟩ := entry_of_find hs hb
    refine ⟨path, (authorise_ok_iff hw).mpr ⟨⟨?_, Or.inl ⟨rfl, s, n, hc, he⟩, _, tag,
      (tagKey_iff hw hs hc).mpr rfl, htag, Or.inl rfl⟩, nofun⟩⟩
    cases c with
    | sessionId r =>
      cases hc
      exact ⟨impl, hs⟩
    | transactionId t =>
      refine Or.inl fun hnone => ?_
      rw [contextSession, hnone] at hc
      cases hc

theorem put_tag (hw : WorldInv cfg w) (hroom : Headroom w) {env : PutEnv}
    {messages : List PutStreamingRequest} {blob : BlobReference} {w' : World}
    (h : put cfg env messages w = some (.returned PutStatus.ok (some blob), w')) :
    ∃ m rest, messages = .metadata m :: rest ∧ blob.storageId = sessionStorageId ∧
      BlobSessionImpl.computeTag cfg m.sessionId blob.objectId = .ok blob.tag := by
  have hexit := put_exit hw hroom h
  generalize ho : PutOutcome.returned PutStatus.ok (some blob) = o at hexit
  cases hexit with
  | @answered m rest _ _ _ _ _ _ hup =>
    rcases putResponse_cases cfg m.sessionId (w.manager.blobId + 1) with ⟨tag, htag, hr⟩ | ⟨x, hr⟩
    · rw [hr] at ho
      cases ho
      exact ⟨m, rest, rfl, rfl, htag⟩
    · rw [hr] at ho
      cases ho
  | @refusedFails _ _ _ _ _ x => cases x <;> cases ho
  | _ => cases ho

/-- In every reachable state: `Put` issues `compute_tag`; the check accepts what
`get_tag` returns, in both contexts; so an issued tag is accepted exactly when
the datastore returns the same one. -/
theorem issued_tag_iff {σ : System} (hσ : Reachable cfg σ) (hmock : cfg.devAcceptMockTag = false)
    (hs : σ.shared.manager.blobSessions[s]? = some impl) (hb : impl.find b = some path)
    (hc : contextSession σ.shared.manager (some c) = some s) :
    (∀ tag, Admits cfg σ.shared c b tag ↔ impl.getTag cfg s b = .ok tag) ∧
      (∀ issued, BlobSessionImpl.computeTag cfg s b = .ok issued →
        (Admits cfg σ.shared c b issued ↔
          cfg.api.getTag b (impl.transactionIdOpt.getD s) = .ok issued)) ∧
      ∀ env messages blob w',
        put cfg env messages σ.shared = some (.returned PutStatus.ok (some blob), w') →
        ∃ m rest, messages = .metadata m :: rest ∧ blob.storageId = sessionStorageId ∧
          BlobSessionImpl.computeTag cfg m.sessionId blob.objectId = .ok blob.tag := by
  have hadmits := fun tag => admits_iff hσ.world hmock hs hb hc tag
  refine ⟨hadmits, fun issued _ => ?_, fun env messages blob w' h => put_tag hσ.world hσ.1 h⟩
  rw [hadmits, getTag_eq]

def oneUpload : List SystemMove :=
  [.env (.createSession (some 5)), .call (.put [.metadata ⟨1, 1, some 3⟩, .chunk [1, 2, 3]]),
    .run 0 .none, .run 0 .none, .run 0 .none, .run 0 .none, .run 0 .none, .run 0 .none, .run 0 .none]

theorem issued_tag_refused : ¬ ∀ (cfg : Config) (σ : System) (s b : ℕ) (impl : BlobSessionImpl)
    (path : Path) (c : ContextId) (issued : BlobTag), Reachable cfg σ →
    cfg.devAcceptMockTag = false → σ.shared.manager.blobSessions[s]? = some impl →
    impl.find b = some path → contextSession σ.shared.manager (some c) = some s →
    BlobSessionImpl.computeTag cfg s b = .ok issued → Admits cfg σ.shared c b issued := by
  intro h
  obtain ⟨σ, hσ, hend⟩ := (Option.any_eq_true
    (fun σ : System => decide (Headroom σ.shared) &&
      (σ.shared.manager.blobSessions[1]?.bind (·.find 1)).isSome &&
      !(authorise smallConfig σ.shared ⟨1, some (.sessionId 1), ⟨0, 1, 257⟩⟩).isOk) _).mp
    (by decide : (runs smallConfig oneUpload smallStart).any _ = true)
  simp only [Bool.and_eq_true, decide_eq_true_eq, Bool.not_eq_true'] at hend
  obtain ⟨⟨hroom, hfound⟩, hdenied⟩ := hend
  obtain ⟨path, hpath⟩ := Option.isSome_iff_exists.mp hfound
  obtain ⟨impl, hs, hb⟩ := Option.bind_eq_some_iff.mp hpath
  have hreach : Reachable smallConfig σ := .of_runs smallStart_initial hσ hroom
  obtain ⟨p, hp⟩ := h smallConfig σ 1 1 impl path (.sessionId 1) 257 hreach rfl hs hb rfl rfl
  change authorise smallConfig σ.shared ⟨1, some (.sessionId 1), ⟨0, 1, 257⟩⟩ = .ok p at hp
  rw [hp] at hdenied
  cases hdenied

theorem issued_tag_iff_oneUpload : ∃ σ, Reachable smallConfig σ ∧
    Admits smallConfig σ.shared (.sessionId 1) 1 6 ∧
    Admits smallConfig σ.shared (.transactionId 5) 1 6 := by
  obtain ⟨σ, hσ, hend⟩ := (Option.any_eq_true
    (fun σ : System => decide (Headroom σ.shared) &&
      σ.shared.manager.blobSessions[1]?.map (·.transactionIdOpt) == some (some 5) &&
      (σ.shared.manager.blobSessions[1]?.bind (·.find 1)).isSome &&
      σ.shared.manager.blobSessionIds[5]? == some 1) _).mp
    (by decide : (runs smallConfig oneUpload smallStart).any _ = true)
  simp only [Bool.and_eq_true, decide_eq_true_eq, beq_iff_eq] at hend
  obtain ⟨⟨⟨hroom, howner⟩, hfound⟩, hindex⟩ := hend
  obtain ⟨path, hpath⟩ := Option.isSome_iff_exists.mp hfound
  obtain ⟨impl, hs, hb⟩ := Option.bind_eq_some_iff.mp hpath
  have hreach : Reachable smallConfig σ := .of_runs smallStart_initial hσ hroom
  have htag : impl.getTag smallConfig 1 1 = .ok 6 := by
    rw [hs, Option.map_some, Option.some.injEq] at howner
    rw [getTag_eq, howner]
    rfl
  exact ⟨σ, hreach,
    ((issued_tag_iff (c := .sessionId 1) hreach rfl hs hb rfl).1 6).mpr htag,
    ((issued_tag_iff (c := .transactionId 5) hreach rfl hs hb hindex).1 6).mpr htag⟩

end BlobRelay
