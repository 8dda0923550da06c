import BlobRelay.PutOutcomes

/-! # What a reference tag is computed of

The 16 bytes that `generate_reference_tag` hashes are the blob id and the session id as
they lie in memory, eight bytes each: no two pairs share them. Every `Put` registers an id
of its own, so two answers with one tag are a collision of the truncated HMAC. -/

namespace BlobRelay
open Foundation Foundation.FileStore

@[simp] theorem length_memoryBytes (n k : ℕ) : (memoryBytes n k).length = k := by
  induction k generalizing n with
  | zero => rfl
  | succ k ih => rw [memoryBytes, List.length_cons, ih]

/-- A word is what its bytes in memory say. -/
theorem memoryWord_memoryBytes (n k : ℕ) : memoryWord (memoryBytes n k) = n % 256^k := by
  induction k generalizing n with
  | zero => rw [pow_zero, Nat.mod_one, memoryBytes, memoryWord]
  | succ k ih =>
    have hbyte : (UInt8.ofNat (n % 256)).toNat = n % 256 := by
      rw [UInt8.toNat_ofNat']
      omega
    rw [memoryBytes, memoryWord, hbyte, ih, pow_succ', Nat.mod_mul]

/-- Eight bytes are what the word they make lies in memory as. -/
theorem memoryBytes_memoryWord (bs : Bytes) : memoryBytes (memoryWord bs) bs.length = bs := by
  induction bs with
  | nil => rfl
  | cons b bs ih =>
    have hlow : (b.toNat + 256 * memoryWord bs) % 256 = b.toNat := by
      have hlt := b.toNat_lt
      omega
    have hhigh : (b.toNat + 256 * memoryWord bs) / 256 = memoryWord bs := by
      have hlt := b.toNat_lt
      omega
    rw [memoryWord, List.length_cons, memoryBytes, hlow, hhigh, ih, UInt8.ofNat_toNat]

/-- The `input_bytes` of a tag. -/
def tagInput (b s : ℕ) : Bytes := memoryBytes b 8 ++ memoryBytes s 8

theorem length_tagInput (b s : ℕ) : (tagInput b s).length = 16 := by
  rw [tagInput, List.length_append, length_memoryBytes, length_memoryBytes]

/-- No two pairs of 64-bit ids share their bytes. -/
theorem tagInput_eq_iff (b s b' s' : ℕ) :
    tagInput b s = tagInput b' s' ↔ b % 2^64 = b' % 2^64 ∧ s % 2^64 = s' % 2^64 := by
  have hbytes : ∀ n n' : ℕ, memoryBytes n 8 = memoryBytes n' 8 ↔ n % 2^64 = n' % 2^64 := by
    intro n n'
    constructor
    · intro h
      have hwords := congrArg memoryWord h
      rw [memoryWord_memoryBytes, memoryWord_memoryBytes] at hwords
      exact hwords
    · intro h
      have hwords : memoryWord (memoryBytes n 8) = memoryWord (memoryBytes n' 8) := by
        rw [memoryWord_memoryBytes, memoryWord_memoryBytes]
        exact h
      have hsame := congrArg (memoryBytes · 8) hwords
      have hback := memoryBytes_memoryWord (memoryBytes n 8)
      have hback' := memoryBytes_memoryWord (memoryBytes n' 8)
      rw [length_memoryBytes] at hback hback'
      exact hback.symm.trans (hsame.trans hback')
  have hlen : (memoryBytes b 8).length = (memoryBytes b' 8).length := by
    rw [length_memoryBytes, length_memoryBytes]
  rw [← hbytes, ← hbytes]
  constructor
  · exact fun h => List.append_inj h hlen
  · intro h
    rw [tagInput, tagInput, h.1, h.2]

variable {cfg : Config}

theorem computeTag_ok {b s : ℕ} {tag : BlobTag}
    (h : BlobSessionImpl.computeTag cfg s b = .ok tag) :
    ∃ md, cfg.tagGenerator.hmac cfg.tagGenerator.hmacSecretKey (tagInput b s) = .ok md ∧
      tag = memoryWord (md.take 8) := by
  unfold BlobSessionImpl.computeTag TagGenerator.generateReferenceTag at h
  split at h
  · cases h
  · rename_i md hmd
    cases h
    exact ⟨md, hmd, rfl⟩

/-- Two inputs of sixteen bytes whose digests agree in the eight bytes a tag keeps. -/
def TruncatedCollision (g : TagGenerator) (x x' : Bytes) : Prop :=
  x ≠ x' ∧ x.length = 16 ∧ x'.length = 16 ∧ ∃ md md', g.hmac g.hmacSecretKey x = .ok md ∧
    g.hmac g.hmacSecretKey x' = .ok md' ∧ md.take 8 = md'.take 8

/-- The digest of a tag's input is at least as long as a tag. -/
def TagGenerator.LongDigests (g : TagGenerator) : Prop :=
  ∀ x md, x.length = 16 → g.hmac g.hmacSecretKey x = .ok md → 8 ≤ md.length

theorem collision_of_equal_tags {b s b' s' : ℕ} {tag : BlobTag}
    (hlong : cfg.tagGenerator.LongDigests) (hne : tagInput b s ≠ tagInput b' s')
    (h : BlobSessionImpl.computeTag cfg s b = .ok tag)
    (h' : BlobSessionImpl.computeTag cfg s' b' = .ok tag) :
    TruncatedCollision cfg.tagGenerator (tagInput b s) (tagInput b' s') := by
  obtain ⟨md, hmd, htag⟩ := computeTag_ok h
  obtain ⟨md', hmd', htag'⟩ := computeTag_ok h'
  have height : ∀ {b s md}, cfg.tagGenerator.hmac cfg.tagGenerator.hmacSecretKey (tagInput b s) =
      .ok md → (md.take 8).length = 8 := fun hx => by
    rw [List.length_take, Nat.min_eq_left (hlong _ _ (length_tagInput _ _) hx)]
  refine ⟨hne, length_tagInput b s, length_tagInput b' s', md, md', hmd, hmd', ?_⟩
  rw [← memoryBytes_memoryWord (md.take 8), ← memoryBytes_memoryWord (md'.take 8), ← htag, ← htag',
    height hmd, height hmd']

/-- In every reachable state two uploads that returned OK have been given tags of different
inputs, made of their blob ids and of the sessions that they named, so tags that agree
exhibit a collision of the HMAC cut to eight bytes. -/
theorem equal_tags_collide {σ : System} {i j : ℕ} {messages messages' : List PutStreamingRequest}
    {u u' : Option Upload} {o o' : PutOutcome} (hσ : Reachable cfg σ)
    (hlong : cfg.tagGenerator.LongDigests) (hij : i ≠ j)
    (hi : σ.threads[i]? = some (.put messages (.finished u o))) (hok : o.IsOk)
    (hj : σ.threads[j]? = some (.put messages' (.finished u' o'))) (hok' : o'.IsOk) :
    ∃ (m m' : PutMetadata) (blob blob' : BlobReference), messages.head? = some (.metadata m) ∧
      messages'.head? = some (.metadata m') ∧ o = .returned PutStatus.ok (some blob) ∧
      o' = .returned PutStatus.ok (some blob') ∧
      tagInput blob.objectId m.sessionId ≠ tagInput blob'.objectId m'.sessionId ∧
      BlobSessionImpl.computeTag cfg m.sessionId blob.objectId = .ok blob.tag ∧
      BlobSessionImpl.computeTag cfg m'.sessionId blob'.objectId = .ok blob'.tag ∧
      (blob.tag = blob'.tag → TruncatedCollision cfg.tagGenerator
        (tagInput blob.objectId m.sessionId) (tagInput blob'.objectId m'.sessionId)) := by
  have hinv := hσ.inv
  obtain ⟨_, σ₀, ls, h₀, hrun⟩ := hσ
  obtain ⟨v, m, chunks, tag, rfl, _, hm, _, hs, htag, rfl⟩ := (tracks_run h₀.2 hrun hi).answer hok
  obtain ⟨v', m', chunks', tag', rfl, _, hm', _, hs', htag', rfl⟩ :=
    (tracks_run h₀.2 hrun hj).answer hok'
  have hdistinct : v.blobId ≠ v'.blobId := hinv.pair i j _ _ hij hi hj v v' rfl rfl
  have hlt : ∀ {k : ℕ} {ms o₁ w}, σ.threads[k]? = some (.put ms (.finished (some w) o₁)) →
      w.blobId < 2^64 := fun hk =>
    lt_of_le_of_lt ((hinv.thread _ _ hk).upload _ rfl).issued.2 hinv.shared.blobId_lt
  have hinput : tagInput v.blobId v.session ≠ tagInput v'.blobId v'.session := by
    intro heq
    have hids := ((tagInput_eq_iff _ _ _ _).mp heq).1
    rw [Nat.mod_eq_of_lt (hlt hi), Nat.mod_eq_of_lt (hlt hj)] at hids
    exact hdistinct hids
  rw [hs, hs'] at hinput
  rw [hs] at htag
  rw [hs'] at htag'
  refine ⟨m, m', _, _, by rw [hm, List.head?_cons], by rw [hm', List.head?_cons], rfl, rfl, hinput,
    htag, htag', fun heq => ?_⟩
  dsimp only at heq
  subst heq
  exact collision_of_equal_tags hlong hinput htag htag'

/-- Two empty uploads into one session, step by step in turn. -/
def emptyUploads : List SystemMove :=
  [.env (.createSession none), .call (.put [.metadata ⟨1, 1, none⟩]),
    .call (.put [.metadata ⟨1, 1, none⟩])] ++
    (List.replicate 6 [.run 0 .none, .run 1 .none]).flatten

theorem equal_tags_collide_emptyUploads :
    runs smallConfig emptyUploads smallStart ≠ none ∧ tagInput 1 1 ≠ tagInput 2 1 ∧
    BlobSessionImpl.computeTag smallConfig 1 1 = .ok 257 ∧
    BlobSessionImpl.computeTag smallConfig 1 2 = .ok 513 ∧
    ((257 : BlobTag) = 513 →
      TruncatedCollision smallConfig.tagGenerator (tagInput 1 1) (tagInput 2 1)) := by
  let u (b : ℕ) : Upload := ⟨1, b, uploadPath smallConfig b, none⟩
  obtain ⟨σ, hσ, hend⟩ := (Option.any_eq_true
    (fun σ : System => decide (Headroom σ.shared) &&
      σ.threads[0]?.bind Handler.uploading == some ([.metadata ⟨1, 1, none⟩],
        .finished (some (u 1)) (.returned PutStatus.ok (some ⟨0, 1, 257⟩))) &&
      σ.threads[1]?.bind Handler.uploading == some ([.metadata ⟨1, 1, none⟩],
        .finished (some (u 2)) (.returned PutStatus.ok (some ⟨0, 2, 513⟩)))) _).mp
    (by decide : (runs smallConfig emptyUploads smallStart).any _ = true)
  simp only [Bool.and_eq_true, decide_eq_true_eq, beq_iff_eq] at hend
  obtain ⟨⟨hroom, hfirst⟩, hsecond⟩ := hend
  have hlong : smallConfig.tagGenerator.LongDigests := by
    intro x md hx hmd
    cases hmd
    show 8 ≤ ([1] ++ x).length
    rw [List.length_append, hx]
    decide
  obtain ⟨m, m', blob, blob', hm, hm', hblob, hblob', hne, htag, htag', hcollide⟩ :=
    equal_tags_collide (.of_runs smallStart_initial hσ hroom) hlong (by decide : 0 ≠ 1)
      (eq_put_of_uploading hfirst) rfl (eq_put_of_uploading hsecond) rfl
  cases hm
  cases hm'
  cases hblob
  cases hblob'
  exact ⟨by rw [hσ]; exact nofun, hne, htag, htag', hcollide⟩

end BlobRelay
