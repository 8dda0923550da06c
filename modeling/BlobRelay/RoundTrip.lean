import BlobRelay.Foundation.Chunks
import BlobRelay.GetDecision
import BlobRelay.Persistence
import BlobRelay.Reception

/-! # What is uploaded can be downloaded

After a successful `Put` the entry and the file stay through every later step that
does not erase the session, delete an entry with that path, or delete the file
from outside; and `Get` then sends the uploaded bytes. -/

namespace BlobRelay
open Foundation Foundation.FileStore

/-- Moves that do not remove `b`, erase `s` or delete the file of `b`. -/
def Spares (cfg : Config) (s b : ℕ) (σ : System) (l : SystemMove) : Prop :=
  Headroom σ.shared ∧ l ≠ .env (.outsideDelete (uploadPath cfg b)) ∧
    match l with
    | .run i _ => ∀ t ∈ σ.threads[i]?, t.erases ≠ some s ∧
        ∀ d ∈ t.deletes, σ.shared.manager.pathOf d.1 d.2 ≠ some (uploadPath cfg b)
    | _ => True

instance (cfg : Config) (s b : ℕ) (σ : System) : ∀ l, Decidable (Spares cfg s b σ l)
  | .run i _ => inferInstanceAs (Decidable (_ ∧ _ ∧ ∀ t ∈ σ.threads[i]?, t.erases ≠ some s ∧
      ∀ d ∈ t.deletes, σ.shared.manager.pathOf d.1 d.2 ≠ some (uploadPath cfg b)))
  | .env _ => inferInstanceAs (Decidable (_ ∧ _ ∧ True))
  | .call _ => inferInstanceAs (Decidable (_ ∧ _ ∧ True))

/-- Blob `b` of session `s` is an upload whose file holds these bytes. -/
structure Stored (cfg : Config) (s b : ℕ) (bytes : Bytes) (w : World) : Prop where
  issued : b ≤ w.manager.blobId
  entry : ∃ n, w.manager.Entry s b (uploadPath cfg b, n)
  file : w.files.contents (uploadPath cfg b) = some bytes

/-- No upload in progress is that of `b`. -/
def NotUploading (b : ℕ) (t : Handler) : Prop := ∀ u, t.upload = some u → u.blobId ≠ b

structure StoredInv (cfg : Config) (s b : ℕ) (bytes : Bytes) (σ : System) : Prop where
  inv : Inv cfg σ
  stored : Stored cfg s b bytes σ.shared
  others : ∀ (i : ℕ) t, σ.threads[i]? = some t → NotUploading b t

variable {cfg : Config} {env : PutEnv} {s b : ℕ} {bytes : Bytes} {chunks : List Bytes} {w w' : World}

/-! ### The blob stays -/

theorem Stored.envStep {a : EnvAction} (h : Stored cfg s b bytes w) (hroom : Headroom w)
    (hdel : a ≠ .outsideDelete (uploadPath cfg b)) (hstep : envStep cfg a w = some w') :
    Stored cfg s b bytes w' := by
  obtain ⟨n, he⟩ := h.entry
  have hsame := sameAt_envStep hstep (uploadPath_inDirectory cfg b) hdel
  exact ⟨h.issued.trans (envStep_safe hstep (hroom.room w')).evolves.blobId, kept_envStep hstep he,
    hsame.2.trans h.file⟩

theorem Stored.handlerStep {f : Fault} {t t' : Handler} (h : Stored cfg s b bytes w)
    (hroom : Headroom w) (hw : WorldInv cfg w) (ht : ThreadInv cfg w t) (hother : NotUploading b t)
    (herases : t.erases ≠ some s)
    (hdel : ∀ d ∈ t.deletes, w.manager.pathOf d.1 d.2 ≠ some (uploadPath cfg b))
    (hstep : handlerStep cfg f w t = some (w', t')) : Stored cfg s b bytes w' := by
  obtain ⟨n, he⟩ := h.entry
  refine ⟨h.issued.trans (handlerStep_safe hstep (hroom.room w') hw ht).1.evolves.blobId,
    kept_handlerStep hstep herases (fun hd => hdel _ hd he.pathOf) he, ?_⟩
  have hsame : w.files.SameAt w'.files (uploadPath cfg b) := by
    refine sameAt_handlerStep hstep ht (fun u hu hp => ?_) fun r c d hd hrc hp => ?_
    · exact hother u hu (uploadPath_injective cfg ((ht.upload u hu).path.symm.trans hp))
    · exact hdel _ hd (hp ▸ hrc.pathOf)
  exact hsame.2.trans h.file

theorem storedInv_step {σ σ' : System} {l : SystemMove} (hσ : StoredInv cfg s b bytes σ)
    (hok : Spares cfg s b σ l) (h : systemStep cfg l σ = some σ') :
    StoredInv cfg s b bytes σ' := by
  obtain ⟨hroom, hout, hspares⟩ := hok
  refine ⟨(inv_step (hroom.room _) hσ.inv h).2, ?_, ?_⟩
  · cases l with
    | env a =>
      obtain ⟨w₁, hw, rfl⟩ := Pool.step_env h
      exact hσ.stored.envStep hroom (fun ha => hout (ha ▸ rfl)) hw
    | call c =>
      obtain rfl := Pool.step_call h
      exact hσ.stored
    | run i f =>
      obtain ⟨t, w₁, t', ht, hstep, rfl⟩ := Pool.step_run h
      obtain ⟨herases, hdel⟩ := hspares t ht
      exact hσ.stored.handlerStep hroom hσ.inv.shared (hσ.inv.thread i t ht) (hσ.others i t ht)
        herases hdel hstep
  · intro j u hu
    cases l with
    | env a =>
      obtain ⟨w₁, _, rfl⟩ := Pool.step_env h
      exact hσ.others j u hu
    | call c =>
      obtain rfl := Pool.step_call h
      rcases Pool.getElem_snoc hu with ⟨_, rfl⟩ | ⟨_, hu⟩
      · intro v hv
        rw [c.start_upload] at hv
        cases hv
      · exact hσ.others j u hu
    | run i f =>
      obtain ⟨t, w₁, t', ht, hstep, rfl⟩ := Pool.step_run h
      rcases Pool.getElem_set hu with ⟨_, rfl⟩ | ⟨_, hu⟩
      · intro v hv
        rcases handlerStep_upload hstep hv with hold | ⟨hnew, _⟩
        · exact hσ.others i t ht v hold
        · rw [hnew, add64_of_lt hroom.1]
          have hle := hσ.stored.issued
          omega
      · exact hσ.others j u hu

/-! ### The round trip -/

/-- An upload that is answered with OK: all its messages were chunks, and the size it
declared is that of the bytes received, as `std::size_t` counts them. -/
theorem put_ok_exit {messages : List PutStreamingRequest} {o : PutOutcome}
    (hw : WorldInv cfg w) (hroom : Headroom w) (h : put cfg env messages w = some (o, w'))
    (hok : o.IsOk) :
    ∃ (m : PutMetadata) (chunks : List Bytes) (blob : BlobReference),
      messages = .metadata m :: chunks.map .chunk ∧ o = .returned PutStatus.ok (some blob) ∧
        blob.objectId = w.manager.blobId + 1 ∧ Uploaded cfg env m.sessionId chunks w w' ∧
        ∀ n, m.blobSize = some n → n = totalLength chunks % 2^64 := by
  cases put_exit hw hroom h with
  | @answered m rest chunks _ _ _ hscan hsize hup =>
    obtain ⟨tag, _, hr⟩ | ⟨x, hr⟩ := putResponse_cases cfg m.sessionId (w.manager.blobId + 1)
    · refine ⟨m, chunks, _, by rw [scan_complete hscan], hr, rfl, hup, fun n hn => ?_⟩
      simpa [sizeMismatches, hn] using hsize
    · rw [hr] at hok
      cases hok
  | rejected hcode => exact absurd hok hcode
  | @refusedFails _ _ _ _ _ x => cases x <;> cases hok
  | _ => cases hok

theorem put_ok_uploaded (hw : WorldInv cfg w) (hroom : Headroom w) {m : PutMetadata}
    {chunks : List Bytes} {blob : BlobReference}
    (h : put cfg env (.metadata m :: chunks.map .chunk) w =
      some (.returned PutStatus.ok (some blob), w')) :
    blob.objectId = w.manager.blobId + 1 ∧ Uploaded cfg env m.sessionId chunks w w' := by
  obtain ⟨m', chunks', blob', hmessages, ho, hid, hup, _⟩ := put_ok_exit hw hroom h rfl
  cases ho
  obtain ⟨hm, hrest⟩ := List.cons.inj hmessages
  cases hm
  obtain rfl : chunks = chunks' :=
    List.map_injective_iff.mpr (fun _ _ h => PutStreamingRequest.chunk.inj h) hrest
  exact ⟨hid, hup⟩

/-- The bytes that an upload of these chunks leaves in its file. -/
def storedBytes (cfg : Config) (env : PutEnv) (w : World) (chunks : List Bytes) : Bytes :=
  (env.store 0 ⟨w.files.next, true⟩ chunks
    (w.files.create (uploadPath cfg (w.manager.blobId + 1)))).data w.files.next

theorem Uploaded.stored (h : Uploaded cfg env s chunks w w') :
    w'.files.contents (uploadPath cfg (w.manager.blobId + 1)) = some (storedBytes cfg env w chunks) := by
  rw [FileSystem.contents_of_regular h.name_self, h.files, storedBytes]

theorem storedBytes_eq_iff (cfg : Config) (env : PutEnv) (w : World) (chunks : List Bytes) :
    storedBytes cfg env w chunks = chunks.flatten ↔ Lossless env.writes env.closes 0 0 chunks := by
  have hempty : (w.files.create (uploadPath cfg (w.manager.blobId + 1))).data w.files.next = [] := by
    simp [FileSystem.create]
  have hiff := OutStream.writeAll_close_iff env.writes env.closes 0 w.files.next chunks
    (w.files.create (uploadPath cfg (w.manager.blobId + 1)))
  rw [hempty, List.nil_append, List.length_nil] at hiff
  exact hiff

/-- A download answers OK with these bytes, and with their length first. -/
def Delivers (r : Option (GetOutcome × List GetStreamingResponse)) (bytes : Bytes) : Prop :=
  ∃ sent : List Bytes,
    r = some (.returned GetStatus.ok, .metadata (some bytes.length) :: sent.map .chunk) ∧
      sent.flatten = bytes

/-- Nothing fails while the file is sent; a file that does not open is sent as an empty
one. -/
def GetEnv.Sends (genv : GetEnv) (bytes : Bytes) : Prop :=
  genv.Answered ∧ genv.allocates = true ∧ (genv.opens = true ∨ bytes = [])

theorem delivers_sendBlob_iff {genv : GetEnv} {fs : Files} {path : Path} {stored : Bytes}
    (hfile : fs.contents path = some stored) (hchunk : 1 ≤ cfg.streamChunkSize) :
    Delivers (sendBlob cfg genv fs path) bytes ↔ stored = bytes ∧ genv.Sends bytes := by
  by_cases hasked : genv.Answered
  · have hsize : fs.fileSize path = some stored.length := by
      rw [FileSystem.fileSize, hfile, Option.map_some]
    obtain ⟨chunks, hdrain, hprefix, hall⟩ := drain_openRead hfile genv.opens cfg.streamChunkSize
    have hsend : sendBlob cfg genv fs path = if genv.allocates then
        some (.returned GetStatus.ok, .metadata (some stored.length) :: chunks.map .chunk)
        else some (getCatch (.stdException "std::bad_alloc"),
          [.metadata (some stored.length)]) := by
      simp only [sendBlob, hasked.1, hasked.2, FileSystem.present_of_contents hfile, if_true, hsize,
        sendFuel, hdrain, Option.map_some]
    cases halloc : genv.allocates with
    | false =>
      rw [hsend, halloc]
      constructor
      · rintro ⟨sent, heq, _⟩
        cases heq
      · rintro ⟨_, _, hyes, _⟩
        cases halloc.symm.trans hyes
    | true =>
      rw [hsend, halloc, if_pos rfl]
      constructor
      · rintro ⟨sent, heq, rfl⟩
        obtain ⟨hlen, hchunks⟩ := List.cons.inj (congrArg Prod.snd (Option.some.inj heq))
        have hlen : stored.length = sent.flatten.length :=
          Option.some.inj (GetStreamingResponse.metadata.inj hlen)
        obtain rfl : chunks = sent :=
          List.map_injective_iff.mpr (fun _ _ h => GetStreamingResponse.chunk.inj h) hchunks
        have hwhole : chunks.flatten = stored := hprefix.eq_of_length hlen.symm
        refine ⟨hwhole.symm, hasked, halloc, ?_⟩
        cases hopens : genv.opens with
        | true => exact Or.inl rfl
        | false =>
          rw [hopens, openRead_closed (Or.inl rfl), drain_ended rfl] at hdrain
          cases hdrain
          exact Or.inr rfl
      · rintro ⟨rfl, _, _, hopens | hempty⟩
        · exact ⟨chunks, rfl, hall hopens hchunk⟩
        · rw [hempty] at hprefix ⊢
          exact ⟨chunks, rfl, List.prefix_nil.mp hprefix⟩
  · have hnone : ¬ (genv.Answered ∧ ∃ bytes, fs.contents path = some bytes) :=
      fun h => hasked h.1
    obtain ⟨o, hsend, ho⟩ := sendBlob_nothing cfg hnone
    rw [hsend]
    constructor
    · rintro ⟨sent, heq, _⟩
      cases heq
    · intro h
      exact absurd h.2.1 hasked

theorem authorise_stored (hw : WorldInv cfg w) {c : ContextId} {k : TransactionId} {tag : BlobTag}
    {v : ℕ} (h : Stored cfg s b bytes w) (hctx : contextSession w.manager (some c) = some s)
    (hkey : TagKey w.manager (some c) k) (htag : cfg.api.getTag b k = .ok tag) :
    authorise cfg w ⟨v, some c, ⟨sessionStorageId, b, tag⟩⟩ = .ok (uploadPath cfg b) := by
  obtain ⟨n, he⟩ := h.entry
  have hresolves : ContextResolves w.manager sessionStorageId (some c) := by
    cases c with
    | sessionId r =>
      cases hctx
      exact he.live
    | transactionId t =>
      refine Or.inl fun hnone => ?_
      rw [contextSession, hnone] at hctx
      cases hctx
  exact (authorise_ok_iff hw).mpr ⟨⟨hresolves, Or.inl ⟨rfl, s, n, hctx, he⟩,
    k, tag, hkey, htag, Or.inl rfl⟩, fun h1 => absurd h1 Nat.zero_ne_one⟩

/-- A `Put` that returned OK, then any run that spares the blob, then a `Get` with the tag
expected there: the uploaded bytes come back, with their total length, exactly when the
file lost none of them, though `Put` does not ask, and the `Get` can send it. -/
theorem put_get_identity_iff {σ σ' : System} {m : PutMetadata} {chunks : List Bytes}
    {blob : BlobReference} {ls : List SystemMove} {c : ContextId} {k : TransactionId}
    {tag : BlobTag} {v : ℕ} (hσ : Reachable cfg σ)
    (hput : put cfg env (.metadata m :: chunks.map .chunk) σ.shared =
      some (.returned PutStatus.ok (some blob), w'))
    (hrun : Run (systemStep cfg) (Spares cfg m.sessionId blob.objectId) {σ with shared := w'} ls σ')
    (hctx : contextSession σ'.shared.manager (some c) = some m.sessionId)
    (hkey : TagKey σ'.shared.manager (some c) k) (htag : cfg.api.getTag blob.objectId k = .ok tag)
    (hv : checkApiVersion v = true) (hchunk : 1 ≤ cfg.streamChunkSize) (genv : GetEnv) :
    Delivers (get cfg genv ⟨v, some c, ⟨sessionStorageId, blob.objectId, tag⟩⟩ σ'.shared)
        chunks.flatten ↔
      Lossless env.writes env.closes 0 0 chunks ∧ genv.Sends chunks.flatten := by
  obtain ⟨hid, hup⟩ := put_ok_uploaded hσ.world hσ.1 hput
  have hsafe := hup.safe hσ.1
  have hstart : StoredInv cfg m.sessionId blob.objectId (storedBytes cfg env σ.shared chunks)
      {σ with shared := w'} := by
    rw [hid]
    refine ⟨hσ.inv.of_env (hsafe.inv hσ.world)
      fun i t ht => (hσ.inv.thread i t ht).evolves hsafe.evolves, ⟨hup.blobId.ge, ?_, ?_⟩, ?_⟩
    · exact ⟨_, (hup.entry _ _ _).mpr (Or.inr ⟨rfl, rfl, rfl⟩)⟩
    · exact hup.stored
    · intro i t ht u hu heq
      have hle := ((hσ.inv.thread i t ht).upload u hu).issued.2
      omega
  have hend := hrun.invariant _ (fun _ _ _ hi ho hs => storedInv_step hi ho hs) hstart
  have hauth : authorise cfg σ'.shared ⟨v, some c, ⟨sessionStorageId, blob.objectId, tag⟩⟩ =
      .ok (uploadPath cfg blob.objectId) :=
    authorise_stored hend.inv.shared hend.stored hctx hkey htag
  simp only [get, hv, if_true, hauth]
  rw [delivers_sendBlob_iff hend.stored.file hchunk, storedBytes_eq_iff]

/-- The disk is full after the first byte. -/
def fullDisk : PutEnv := {PutEnv.calm with writes := fun _ => some 1}

theorem uploaded_bytes_lost : ¬ ∀ (cfg : Config) (env : PutEnv) (σ σ' : System) (w' : World)
    (m : PutMetadata) (chunks : List Bytes) (blob : BlobReference) (ls : List SystemMove)
    (c : ContextId) (k : TransactionId) (tag : BlobTag) (v : ℕ), Reachable cfg σ →
    put cfg env (.metadata m :: chunks.map .chunk) σ.shared =
      some (.returned PutStatus.ok (some blob), w') →
    Run (systemStep cfg) (Spares cfg m.sessionId blob.objectId) {σ with shared := w'} ls σ' →
    contextSession σ'.shared.manager (some c) = some m.sessionId →
    TagKey σ'.shared.manager (some c) k → cfg.api.getTag blob.objectId k = .ok tag →
    checkApiVersion v = true → 1 ≤ cfg.streamChunkSize →
    Delivers (get cfg .calm ⟨v, some c, ⟨sessionStorageId, blob.objectId, tag⟩⟩ σ'.shared)
      chunks.flatten := by
  intro h
  obtain ⟨⟨o, w'⟩, hput, hend⟩ := (Option.any_eq_true
    (fun r : PutOutcome × World => r.1 == .returned PutStatus.ok (some ⟨0, 1, 257⟩) &&
      decide ((r.2.manager.blobSessions[1]?).map BlobSessionImpl.transactionIdOpt = some none) &&
      get smallConfig .calm ⟨1, some (.sessionId 1), ⟨0, 1, 2⟩⟩ r.2 ==
        some (.returned GetStatus.ok, [.metadata (some 1), .chunk [1]])) _).mp
    (by decide : (put smallConfig fullDisk
      (.metadata ⟨1, 1, some 3⟩ :: [[1, 2, 3]].map .chunk) (oneSession none).shared).any _ = true)
  simp only [Bool.and_eq_true, beq_iff_eq, decide_eq_true_eq] at hend
  obtain ⟨⟨rfl, howner⟩, hget⟩ := hend
  obtain ⟨sent, hsent, _⟩ := h smallConfig fullDisk (oneSession none) ⟨w', []⟩ w' ⟨1, 1, some 3⟩
    [[1, 2, 3]] _ [] (.sessionId 1) 1 2 1 (oneSession_reachable none) hput (.nil _) rfl
    ⟨none, BlobSessionManager.owner_of_map howner, rfl⟩ rfl rfl (by decide)
  cases hget.symm.trans hsent

/-- A session is created, and another id is removed from that of the blob. -/
def sparingRun : List SystemMove :=
  [.env (.createSession none), .call (.remove 1 [7]), .run 0 .none, .run 0 .none, .run 0 .none]

theorem put_get_identity_transaction : ∃ (w' : World) (σ' : System),
    put smallConfig .calm (.metadata ⟨1, 1, none⟩ :: [[1, 2, 3], [], [4]].map .chunk)
      (oneSession (some 5)).shared = some (.returned PutStatus.ok (some ⟨0, 1, 257⟩), w') ∧
    exec (systemStep smallConfig) (fun σ l => decide (Spares smallConfig 1 1 σ l)) sparingRun
      ⟨w', []⟩ = some σ' ∧
    Delivers (get smallConfig .calm ⟨1, some (.transactionId 5), ⟨0, 1, 6⟩⟩ σ'.shared)
      [1, 2, 3, 4] := by
  obtain ⟨⟨o, w'⟩, hput, hend⟩ := (Option.any_eq_true
    (fun r : PutOutcome × World => r.1 == .returned PutStatus.ok (some ⟨0, 1, 257⟩) &&
      (exec (systemStep smallConfig) (fun σ l => decide (Spares smallConfig 1 1 σ l)) sparingRun
        ⟨r.2, []⟩).any fun σ => σ.shared.manager.blobSessionIds[5]? == some 1) _).mp
    (by decide : (put smallConfig .calm
      (.metadata ⟨1, 1, none⟩ :: [[1, 2, 3], [], [4]].map .chunk) (oneSession (some 5)).shared).any _
        = true)
  obtain ⟨ho, hrest⟩ := Bool.and_eq_true_iff.mp hend
  obtain rfl : o = .returned PutStatus.ok (some ⟨0, 1, 257⟩) := beq_iff_eq.mp ho
  obtain ⟨σ', hexec, hindex⟩ := (Option.any_eq_true _ _).mp hrest
  have hiff := put_get_identity_iff (c := .transactionId 5) (k := 5) (v := 1)
    (oneSession_reachable (some 5)) hput (.of_exec hexec fun _ _ _ hc => of_decide_eq_true hc)
    (beq_iff_eq.mp hindex) rfl rfl rfl (by decide) .calm
  have hlossless : Lossless PutEnv.calm.writes PutEnv.calm.closes 0 0 [[1, 2, 3], [], [4]] :=
    nofun
  exact ⟨w', σ', hput, hexec, hiff.mpr ⟨hlossless, GetEnv.calm_answered, rfl, Or.inl rfl⟩⟩

end BlobRelay
