import BlobRelay.Grammar
import BlobRelay.QuotaSafety
import BlobRelay.SessionIndex

/-! # Uploads beside each other

Any number of well-formed uploads whose content fits the quota together. The sum
of the usage counter and of what the uploads have still to send does not change,
so no reservation is refused, and no step of one upload touches the entry or the
file of another. Each step brings one upload nearer to its end. -/

namespace BlobRelay
open Foundation Foundation.FileStore

/-- An upload by its metadata and the chunks that follow. -/
structure PutCall where
  metadata : PutMetadata
  chunks : List Bytes

namespace PutCall

def messages (p : PutCall) : List PutStreamingRequest := .metadata p.metadata :: p.chunks.map .chunk

def content (p : PutCall) : Bytes := p.chunks.flatten

/-- The version is supported, and a declared size is that of the content. -/
structure WellFormed (p : PutCall) : Prop where
  version : p.metadata.apiVersion ≤ blobRelayApiVersion
  blobSize : ∀ n, p.metadata.blobSize = some n → n = p.content.length

/-- The steps of the upload from its call to its end. -/
def steps (p : PutCall) : ℕ := p.chunks.length + 6

end PutCall

/-- Only threads from the `n`-th on move, and the file system does what it is asked. -/
def OnlyFrom (n : ℕ) (_ : System) (l : SystemMove) : Prop := ∃ i, n ≤ i ∧ l = .run i .none

/-- The uploads have just been called. -/
def System.calling (σ : System) (puts : List PutCall) : System :=
  ⟨σ.shared, σ.threads ++ puts.map fun p => (Call.put p.messages).start⟩

/-- What an upload that came through leaves: its answer, its entry and its file. -/
structure CameThrough (cfg : Config) (p : PutCall) (b : ℕ) (t : Handler) (w : World) : Prop where
  answer : ∃ u tag, BlobSessionImpl.computeTag cfg p.metadata.sessionId b = .ok tag ∧
    t = .put p.messages
      (.finished (some u) (.returned PutStatus.ok (some ⟨sessionStorageId, b, tag⟩)))
  entry : w.manager.Entry p.metadata.sessionId b (uploadPath cfg b, p.content.length)
  file : w.files.contents (uploadPath cfg b) = some p.content

/-! ### Where an upload stands -/

/-- The upload's variables are those of its call, and its id is a new one. -/
structure UploadOf (base : ℕ) (p : PutCall) (u : Upload) : Prop where
  session : u.session = p.metadata.sessionId
  blobSize : u.blobSizeOpt = p.metadata.blobSize
  fresh : base < u.blobId

def Recorded (w : World) (u : Upload) (n : ℕ) : Prop :=
  w.manager.Entry u.session u.blobId (u.path, n)

/-- The recorded size is what has been received, and the rest is to come. -/
def Going (cfg : Config) (base : ℕ) (w : World) (p : PutCall) : PutPc → Prop
  | .called => True
  | .located s blobSizeOpt rest =>
    s = p.metadata.sessionId ∧ blobSizeOpt = p.metadata.blobSize ∧ rest = p.chunks.map .chunk
  | .created u rest => UploadOf base p u ∧ Recorded w u 0 ∧ rest = p.chunks.map .chunk
  | .receiving u _ n rest => UploadOf base p u ∧ Recorded w u n ∧
      ∃ cs : List Bytes, rest = cs.map .chunk ∧ n + cs.flatten.length = p.content.length
  | .received u n => UploadOf base p u ∧ Recorded w u n ∧ n = p.content.length
  | .tagging u => UploadOf base p u ∧ Recorded w u p.content.length
  | .finished (some u) o => UploadOf base p u ∧ Recorded w u p.content.length ∧
      o = putResponse cfg u.session u.blobId
  | _ => False

def PutPc.stepsLeft (messages : List PutStreamingRequest) : PutPc → ℕ
  | .called => messages.length + 5
  | .located _ _ rest => rest.length + 5
  | .created _ rest => rest.length + 4
  | .receiving _ _ _ rest => rest.length + 3
  | .exhausted _ => 1
  | .received _ _ => 2
  | .tagging _ => 1
  | .finished _ _ => 0

def Handler.stepsLeft : Handler → ℕ
  | .put messages pc => pc.stepsLeft messages
  | _ => 0

/-- What the handler may still reserve. -/
def Handler.load (t : Handler) : ℕ := (payload t.pending).length

/-- Whether the handler has still to take its id. -/
def Handler.waiting (t : Handler) : ℕ := if t.upload.isNone then 1 else 0

variable {cfg : Config} {base : ℕ} {w w' : World} {p : PutCall} {pc pc' : PutPc}

theorem Going.kept (h : Going cfg base w p pc)
    (hk : ∀ u n, pc.upload = some u → Recorded w u n → Recorded w' u n) :
    Going cfg base w' p pc := by
  cases pc with
  | called => trivial
  | located s blobSizeOpt rest => exact h
  | created u rest => exact ⟨h.1, hk u _ rfl h.2.1, h.2.2⟩
  | receiving u out n rest => exact ⟨h.1, hk u _ rfl h.2.1, h.2.2⟩
  | exhausted u => cases h
  | received u n => exact ⟨h.1, hk u _ rfl h.2.1, h.2.2⟩
  | tagging u => exact ⟨h.1, hk u _ rfl h.2⟩
  | finished u o =>
    cases u with
    | none => cases h
    | some u => exact ⟨h.1, hk u _ rfl h.2.1, h.2.2⟩

theorem Going.fresh (h : Going cfg base w p pc) {u : Upload} (hu : pc.upload = some u) :
    UploadOf base p u := by
  cases pc with
  | called => cases hu
  | located s blobSizeOpt rest => cases hu
  | exhausted v => cases h
  | finished v o =>
    cases v with
    | none => cases h
    | some v =>
      cases hu
      exact h.1
  | _ =>
    cases hu
    exact h.1

theorem entry_putStepped {f : Fault} {messages : List PutStreamingRequest} {r c : ℕ} {e : Path × ℕ}
    (h : PutStepped cfg f messages w pc w' pc') (hother : ∀ u, pc.upload = some u → c ≠ u.blobId)
    (he : w.manager.Entry r c e) : w'.manager.Entry r c e := by
  cases h with
  | created hreg => exact (hreg.entry r c e).mpr (Or.inl he)
  | @charged u out n bytes rest d w₁ hch =>
    have hkept : w₁.manager.Entry r c e := by
      refine (hch.entry r c e).mpr ?_
      rw [if_neg fun h => hother u rfl h.2]
      exact he
    exact hkept
  | @deleted u d w₁ her => exact (her.entry r c e).mpr ⟨he, fun h => hother u rfl h.2⟩
  | _ => exact he

/-! ### One step of one upload -/

/-- The next step is there, leads on, and moves what it takes from the messages to the
counter. -/
structure Advances (cfg : Config) (base : ℕ) (p : PutCall) (w : World) (pc : PutPc) (w' : World)
    (pc' : PutPc) : Prop where
  step : putStep cfg .none p.messages w pc = some (w', pc')
  going : Going cfg base w' p pc'
  usage : cfg.quota ≠ 0 → w'.manager.currentSize + (Handler.put p.messages pc').load =
    w.manager.currentSize + (Handler.put p.messages pc).load
  stepsLeft : pc'.stepsLeft p.messages + 1 = pc.stepsLeft p.messages
  ids : w'.manager.blobId + (Handler.put p.messages pc').waiting =
    w.manager.blobId + (Handler.put p.messages pc).waiting

theorem payload_messages (p : PutCall) : payload p.messages = p.content := by
  rw [PutCall.messages, payload, payload_chunks]
  rfl

theorem advances_called (hp : p.WellFormed) (hl : w.manager.Live p.metadata.sessionId) :
    Advances cfg base p w .called w
      (.located p.metadata.sessionId p.metadata.blobSize (p.chunks.map .chunk)) := by
  obtain ⟨impl, hs⟩ := hl
  refine ⟨?_, ⟨rfl, rfl, rfl⟩, fun _ => rfl, ?_, rfl⟩
  · simp only [putStep, PutCall.messages, checkApiVersion_iff.mpr hp.version, if_true,
      BlobSessionManager.getSessionImpl_of_some hs]
  · simp only [PutPc.stepsLeft, PutCall.messages, List.length_cons]

theorem advances_located (hw : WorldInv cfg w) (hroom : Headroom w)
    (hl : w.manager.Live p.metadata.sessionId) (hbase : base ≤ w.manager.blobId) :
    ∃ w' pc', Advances cfg base p w
      (.located p.metadata.sessionId p.metadata.blobSize (p.chunks.map .chunk)) w' pc' := by
  obtain ⟨⟨b, path⟩, w₁, hc⟩ := World.createBlobFile_of_live cfg hl
  obtain ⟨rfl, hreg⟩ := World.createBlobFile_spec hc
  have hid : b = w.manager.blobId + 1 := hreg.id.trans (add64_of_lt hroom.1)
  refine ⟨w₁, .created ⟨p.metadata.sessionId, b, uploadPath cfg b, p.metadata.blobSize⟩
    (p.chunks.map .chunk), ?_, ⟨⟨rfl, rfl, ?_⟩, ?_, rfl⟩, fun _ => ?_, rfl, ?_⟩
  · simp only [putStep, hc]
  · show base < b
    omega
  · refine (hreg.entry _ _ _).mpr (Or.inr ⟨rfl, rfl, rfl, fun ⟨e, he⟩ => ?_⟩)
    have hle := (hw.blobIds _ _ _ he).2
    omega
  · rw [hreg.currentSize]
    rfl
  · show w₁.manager.blobId + 0 = w.manager.blobId + 1
    rw [hreg.blobId]
    omega

theorem advances_created {u : Upload} (hu : UploadOf base p u) (hrec : Recorded w u 0)
    (hname : w.files.names u.path = none) :
    ∃ w' pc', Advances cfg base p w (.created u (p.chunks.map .chunk)) w' pc' := by
  refine ⟨{w with files := w.files.create u.path},
    .receiving u ⟨w.files.next, true⟩ 0 (p.chunks.map .chunk), ?_,
    ⟨hu, hrec, p.chunks, rfl, Nat.zero_add _⟩, fun _ => rfl, rfl, rfl⟩
  have hopen : openBlobFile (decide (Fault.none ≠ .openFails)) u.path w.files =
      some (⟨w.files.next, true⟩, w.files.create u.path) := by
    rw [openBlobFile, FileSystem.openWrite_of_absent hname]
    rfl
  simp only [putStep, hopen]

theorem advances_chunk {u : Upload} {out : OutStream} {n : ℕ} {bytes : Bytes} {cs : List Bytes}
    (hu : UploadOf base p u) (hrec : Recorded w u n)
    (hsum : n + (bytes :: cs).flatten.length = p.content.length)
    (hlt : p.content.length < 2^64) (hq64 : cfg.quota < 2^64)
    (hfits : cfg.quota ≠ 0 → w.manager.currentSize + bytes.length ≤ cfg.quota) :
    ∃ w' pc', Advances cfg base p w (.receiving u out n ((bytes :: cs).map .chunk)) w' pc' := by
  rw [List.flatten_cons, List.length_append] at hsum
  have hres : (reserve cfg.quota bytes.length w.manager.currentSize).1 = true ∧
      (cfg.quota ≠ 0 → (reserve cfg.quota bytes.length w.manager.currentSize).2 =
        w.manager.currentSize + bytes.length) := by
    by_cases hq : cfg.quota = 0
    · rw [reserve, if_neg (not_not_intro hq)]
      exact ⟨rfl, fun h => absurd hq h⟩
    · have hle := hfits hq
      rw [reserve_fits hq (by omega) hle]
      exact ⟨rfl, fun _ => rfl⟩
  obtain ⟨r, w₁, hstore⟩ := World.reserveSessionStore_of_live cfg hrec.live u.blobId bytes.length
  rcases World.reserveSessionStore_cases hstore with
    ⟨_, _, _, hbad⟩ | ⟨e, rfl, hch⟩ | ⟨_, _, hgone, _⟩
  · rw [hres.1] at hbad
    cases hbad
  · obtain rfl := hch.found.unique hrec
    refine ⟨{w₁ with files := (out.write Fault.none.writes bytes w₁.files).2},
      .receiving u (out.write Fault.none.writes bytes w₁.files).1 (add64 n bytes.length)
        (cs.map .chunk), ?_, ⟨hu, ?_, cs, rfl, ?_⟩, fun hq => ?_, rfl, ?_⟩
    · simp only [List.map_cons, putStep, hstore]
    · refine (hch.entry _ _ _).mpr ?_
      rw [if_pos ⟨rfl, rfl⟩]
    · rw [add64_of_lt (by omega)]
      omega
    · show w₁.manager.currentSize + (payload (cs.map .chunk)).length =
        w.manager.currentSize + (payload (.chunk bytes :: cs.map .chunk)).length
      rw [hch.currentSize, hres.2 hq, payload, List.length_append]
      omega
    · show w₁.manager.blobId + 0 = w.manager.blobId + 0
      rw [hch.blobId]
  · exact absurd hrec (hgone _)

theorem advances_received {u : Upload} (hp : p.WellFormed) (hu : UploadOf base p u)
    (hrec : Recorded w u p.content.length) :
    Advances cfg base p w (.received u p.content.length) w (.tagging u) := by
  have hsize : sizeMismatches u.blobSizeOpt p.content.length = false := by
    rw [Bool.eq_false_iff]
    intro hbad
    obtain ⟨k, hk, hne⟩ := sizeMismatches_iff.mp hbad
    exact hne (hp.blobSize k (hu.blobSize.symm.trans hk))
  refine ⟨?_, ⟨hu, hrec⟩, fun _ => rfl, rfl, rfl⟩
  simp only [putStep, hsize, Bool.false_eq_true, if_false]

theorem advances_tagging {u : Upload} (hu : UploadOf base p u)
    (hrec : Recorded w u p.content.length) :
    Advances cfg base p w (.tagging u) w
      (.finished (some u) (putResponse cfg u.session u.blobId)) := by
  obtain ⟨impl, hs⟩ := hrec.live
  refine ⟨?_, ⟨hu, hrec, rfl⟩, fun _ => rfl, rfl, rfl⟩
  simp only [putStep, hs, Option.map_some]

/-- Every unfinished upload has a next step, and it leads on. -/
theorem going_advances (hw : WorldInv cfg w) (hroom : Headroom w) (hp : p.WellFormed)
    (hlt : p.content.length < 2^64) (hq64 : cfg.quota < 2^64)
    (hl : w.manager.Live p.metadata.sessionId) (hbase : base ≤ w.manager.blobId)
    (hfits : cfg.quota ≠ 0 →
      w.manager.currentSize + (Handler.put p.messages pc).load ≤ cfg.quota)
    (hfile : PutFile w p.messages pc) (hgoing : Going cfg base w p pc)
    (hrun : (Handler.put p.messages pc).finished = false) :
    ∃ w' pc', Advances cfg base p w pc w' pc' := by
  cases pc with
  | called => exact ⟨_, _, advances_called hp hl⟩
  | located s blobSizeOpt rest =>
    obtain ⟨rfl, rfl, rfl⟩ := hgoing
    exact advances_located hw hroom hl hbase
  | created u rest =>
    obtain ⟨hu, hrec, rfl⟩ := hgoing
    exact advances_created hu hrec hfile.1
  | receiving u out n rest =>
    obtain ⟨hu, hrec, cs, rfl, hsum⟩ := hgoing
    cases cs with
    | nil =>
      refine ⟨{w with files := out.close Fault.none.writes w.files}, .received u n, rfl,
        ⟨hu, hrec, by simpa using hsum⟩, fun _ => rfl, rfl, rfl⟩
    | cons bytes cs =>
      refine advances_chunk hu hrec hsum hlt hq64 fun hq => ?_
      have hle := hfits hq
      change _ + (payload (.chunk bytes :: cs.map .chunk)).length ≤ _ at hle
      rw [payload, List.length_append] at hle
      omega
  | exhausted u => cases hgoing
  | received u n =>
    obtain ⟨hu, hrec, rfl⟩ := hgoing
    exact ⟨_, _, advances_received hp hu hrec⟩
  | tagging u => exact ⟨_, _, advances_tagging hgoing.1 hgoing.2⟩
  | finished u o => cases hrun

/-! ### All uploads -/

def totalContent (puts : List PutCall) : ℕ := (puts.map fun p => p.content.length).sum

/-- The uploads that were called in `w`, and nothing else in the pool. -/
structure PutsInv (cfg : Config) (w : World) (puts : List PutCall) (σ : System) : Prop where
  files : FilesInv cfg σ
  length : σ.threads.length = puts.length
  going : ∀ (j : ℕ) p, puts[j]? = some p → ∃ pc, σ.threads[j]? = some (.put p.messages pc) ∧
    Going cfg w.manager.blobId σ.shared p pc
  sessions : KeepsSessions w.manager σ.shared.manager
  old : ∀ s b e, w.manager.Entry s b e → σ.shared.manager.Entry s b e
  usage : cfg.quota ≠ 0 → σ.shared.manager.currentSize + σ.total Handler.load =
    w.manager.currentSize + totalContent puts
  ids : σ.shared.manager.blobId + σ.total Handler.waiting = w.manager.blobId + puts.length
  base : w.manager.blobId ≤ σ.shared.manager.blobId

/-- What the uploads may rely on when they are called. -/
structure MayUpload (cfg : Config) (w : World) (puts : List PutCall) : Prop where
  world : WorldInv cfg w
  sessionRoom : w.manager.sessionId + 1 < 2^64
  idRoom : w.manager.blobId + puts.length + 1 < 2^64
  quota_lt : cfg.quota < 2^64
  wellFormed : ∀ p ∈ puts, p.WellFormed
  live : ∀ p ∈ puts, w.manager.Live p.metadata.sessionId
  length_lt : ∀ p ∈ puts, p.content.length < 2^64
  fits : cfg.quota ≠ 0 → w.manager.currentSize + totalContent puts ≤ cfg.quota

variable {puts : List PutCall} {σ σ' : System}

theorem PutsInv.headroom (h : PutsInv cfg w puts σ) (hmay : MayUpload cfg w puts) :
    Headroom σ.shared := by
  have hids := h.ids
  have hroom := hmay.idRoom
  refine ⟨by omega, ?_⟩
  rw [h.sessions.sessionId]
  exact hmay.sessionRoom

theorem PutsInv.advances (h : PutsInv cfg w puts σ) (hmay : MayUpload cfg w puts) {j : ℕ}
    {p : PutCall} {pc : PutPc} (hj : puts[j]? = some p)
    (ht : σ.threads[j]? = some (.put p.messages pc))
    (hrun : (Handler.put p.messages pc).finished = false) :
    ∃ w' pc', Advances cfg w.manager.blobId p σ.shared pc w' pc' := by
  have hp : p ∈ puts := List.mem_of_getElem? hj
  obtain ⟨pc₀, ht₀, hgoing⟩ := h.going j p hj
  obtain rfl : pc = pc₀ := (Handler.put.inj (Option.some.inj (ht.symm.trans ht₀))).2
  refine going_advances h.files.inv.shared (h.headroom hmay) (hmay.wellFormed p hp)
    (hmay.length_lt p hp) hmay.quota_lt ((h.sessions.live _).mpr (hmay.live p hp)) h.base
    (fun hq => ?_) (h.files.files j _ _ ht) hgoing hrun
  have hsum := h.usage hq
  have hfits := hmay.fits hq
  have hload := Pool.le_total Handler.load ht
  omega

/-- The threads of the pool are the uploads, one for one. -/
theorem PutsInv.thread (h : PutsInv cfg w puts σ) {j : ℕ} {t : Handler}
    (ht : σ.threads[j]? = some t) : ∃ p pc, puts[j]? = some p ∧ t = .put p.messages pc := by
  have hlt : j < puts.length := h.length ▸ (List.getElem?_eq_some_iff.mp ht).1
  obtain ⟨pc, ht', _⟩ := h.going j puts[j] (List.getElem?_eq_getElem hlt)
  exact ⟨puts[j], pc, List.getElem?_eq_getElem hlt, Option.some.inj (ht.symm.trans ht')⟩

theorem putsInv_step (hmay : MayUpload cfg w puts) {l : SystemMove} (h : PutsInv cfg w puts σ)
    (hl : OnlyFrom 0 σ l) (hstep : systemStep cfg l σ = some σ') :
    PutsInv cfg w puts σ' ∧ σ'.total Handler.stepsLeft + 1 = σ.total Handler.stepsLeft := by
  obtain ⟨j, _, rfl⟩ := hl
  have hfiles : FilesInv cfg σ' := by
    refine filesInv_step h.files ⟨h.headroom hmay, fun t ht => ?_⟩ hstep
    obtain ⟨p, pc, _, rfl⟩ := h.thread ht
    rfl
  have hsafe := (inv_step ((h.headroom hmay).room _) h.files.inv hstep).1
  obtain ⟨t, w₁, t', ht, hmove, rfl⟩ := Pool.step_run hstep
  obtain ⟨p, pc, hj, rfl⟩ := h.thread ht
  have hrun : (Handler.put p.messages pc).finished = false := by
    rw [Bool.eq_false_iff]
    intro hend
    cases pc with
    | finished u o => cases hmove
    | _ => cases hend
  obtain ⟨w₂, pc₂, hadv⟩ := h.advances hmay hj ht hrun
  have hsame : handlerStep cfg .none σ.shared (.put p.messages pc) =
      some (w₂, .put p.messages pc₂) := by
    simp only [handlerStep, hadv.step, Option.map_some]
  obtain ⟨rfl, rfl⟩ := Prod.mk.inj (Option.some.inj (hmove.symm.trans hsame))
  obtain ⟨pc', hpc, hput⟩ := handlerStep_put hmove
  obtain rfl : pc₂ = pc' := (Handler.put.inj hpc).2
  -- the steps of this upload leave entries of other ids alone
  have hothers : ∀ r c e, (∀ u, pc.upload = some u → c ≠ u.blobId) →
      σ.shared.manager.Entry r c e → w₁.manager.Entry r c e :=
    fun r c e hne he => entry_putStepped hput hne he
  obtain ⟨pc₀, ht₀, hgoing⟩ := h.going j p hj
  obtain rfl : pc = pc₀ := (Handler.put.inj (Option.some.inj (ht.symm.trans ht₀))).2
  have husage := Pool.total_run Handler.load ht w₁ (.put p.messages pc₂)
  have hids := Pool.total_run Handler.waiting ht w₁ (.put p.messages pc₂)
  have hleft := Pool.total_run Handler.stepsLeft ht w₁ (.put p.messages pc₂)
  refine ⟨⟨hfiles, ?_, fun k q hk => ?_, ?_, fun s b e he => ?_, fun hq => ?_, ?_, ?_⟩, ?_⟩
  · rw [List.length_set]
    exact h.length
  · by_cases hkj : k = j
    · subst hkj
      obtain rfl := Option.some.inj (hj.symm.trans hk)
      have hlt := (List.getElem?_eq_some_iff.mp ht).1
      exact ⟨pc₂, List.getElem?_set_self hlt, hadv.going⟩
    · obtain ⟨pcₖ, htₖ, hgoingₖ⟩ := h.going k q hk
      refine ⟨pcₖ, (List.getElem?_set_ne (Ne.symm hkj)).trans htₖ,
        hgoingₖ.kept fun u n hu hrec => hothers _ _ _ (fun v hv heq => ?_) hrec⟩
      exact h.files.inv.pair k j _ _ hkj htₖ ht u v hu hv heq
  · exact h.sessions.trans (keepsSessions_putStepped hput)
  · refine hothers s b e (fun u hu heq => ?_) (h.old s b e he)
    have hfresh := (hgoing.fresh hu).fresh
    have hle := (hmay.world.blobIds s b e he).2
    omega
  · have hone := hadv.usage hq
    have hall := h.usage hq
    dsimp only at husage ⊢
    omega
  · have hone := hadv.ids
    have hall := h.ids
    dsimp only at hids ⊢
    omega
  · exact h.base.trans hsafe.evolves.blobId
  · have hone := hadv.stepsLeft
    change _ + PutPc.stepsLeft _ _ = _ + PutPc.stepsLeft _ _ at hleft
    omega

/-! ### Whole runs -/

theorem putsInv_run (hmay : MayUpload cfg w puts) {ls : List SystemMove}
    (hrun : Run (systemStep cfg) (OnlyFrom 0) σ ls σ') (h : PutsInv cfg w puts σ) :
    PutsInv cfg w puts σ' ∧
      σ'.total Handler.stepsLeft + ls.length = σ.total Handler.stepsLeft := by
  induction hrun with
  | nil => exact ⟨h, rfl⟩
  | cons hok hst _ ih =>
    obtain ⟨hnext, hleft⟩ := putsInv_step hmay h hok hst
    obtain ⟨hend, hrest⟩ := ih hnext
    refine ⟨hend, ?_⟩
    rw [List.length_cons]
    omega

/-- The pool of the uploads alone, all of them just called. -/
def calledPuts (w : World) (puts : List PutCall) : System :=
  ⟨w, puts.map fun p => (Call.put p.messages).start⟩

theorem calledPuts_thread {i : ℕ} {t : Handler} (h : (calledPuts w puts).threads[i]? = some t) :
    ∃ p, puts[i]? = some p ∧ t = .put p.messages .called := by
  rw [calledPuts, List.getElem?_map] at h
  obtain ⟨p, hp, rfl⟩ := Option.map_eq_some_iff.mp h
  exact ⟨p, hp, rfl⟩

theorem calledPuts_total {f : Handler → ℕ} {g : PutCall → ℕ}
    (h : ∀ p : PutCall, f (.put p.messages .called) = g p) :
    (calledPuts w puts).total f = (puts.map g).sum := by
  have hsame : (f ∘ fun p : PutCall => (Call.put p.messages).start) = g := funext h
  rw [Pool.total, calledPuts, List.map_map, hsame]

theorem putsInv_called (hmay : MayUpload cfg w puts) : PutsInv cfg w puts (calledPuts w puts) := by
  refine ⟨⟨⟨hmay.world, fun i t ht => ?_, fun i j t u _ ht hu => ?_⟩, fun i ms pc ht => ?_⟩, ?_,
    fun j p hj => ⟨.called, ?_, trivial⟩, .refl _, fun _ _ _ he => he, fun _ => ?_, ?_, le_rfl⟩
  · obtain ⟨p, _, rfl⟩ := calledPuts_thread ht
    exact .of_none rfl rfl
  · obtain ⟨p, _, rfl⟩ := calledPuts_thread ht
    intro v v' hv
    cases hv
  · obtain ⟨p, _, heq⟩ := calledPuts_thread ht
    cases heq
    trivial
  · rw [calledPuts, List.length_map]
  · rw [calledPuts, List.getElem?_map, hj]
    rfl
  · have hload : ∀ p : PutCall, (Handler.put p.messages .called).load = p.content.length :=
      fun p => congrArg List.length (payload_messages p)
    rw [calledPuts_total hload]
    rfl
  · have hwaiting : ∀ p : PutCall, (Handler.put p.messages .called).waiting = 1 := fun _ => rfl
    rw [calledPuts_total hwaiting, List.map_const', List.sum_replicate_nat, Nat.mul_one]
    rfl

theorem PutsInv.cameThrough (h : PutsInv cfg w puts σ) (hmac : cfg.tagGenerator.Yields) {j : ℕ}
    {t : Handler} (hj : puts[j]? = some p) (ht : σ.threads[j]? = some t)
    (hend : t.finished = true) :
    ∃ u, t.upload = some u ∧ CameThrough cfg p u.blobId t σ.shared := by
  obtain ⟨pc, ht', hgoing⟩ := h.going j p hj
  obtain rfl := Option.some.inj (ht.symm.trans ht')
  cases pc with
  | finished u o =>
    cases u with
    | none => cases hgoing
    | some u =>
      obtain ⟨hu, hrec, rfl⟩ := hgoing
      have hpath := ((h.files.inv.thread j _ ht).upload u rfl).path
      have hfile : UploadFile σ.shared u (payload p.messages) _ _ := h.files.files j _ _ ht
      obtain ⟨tag, htag, hanswer⟩ := putResponse_ok hmac u.session u.blobId
      have hwhole := hfile.whole (by rw [hanswer]; rfl)
      rw [hanswer]
      rw [hu.session] at htag
      refine ⟨u, rfl, ⟨u, tag, htag, rfl⟩, ?_, ?_⟩
      · rw [← hu.session, ← hpath]
        exact hrec
      · rw [← hpath, ← payload_messages]
        exact hwhole
  | _ => cases hend

/-- The id an upload has taken. -/
def Handler.blobId (t : Handler) : ℕ := (t.upload.map Upload.blobId).getD 0

theorem PutsInv.nodup (h : PutsInv cfg w puts σ) (hmac : cfg.tagGenerator.Yields)
    (hend : ∀ t ∈ σ.threads, t.finished = true) : (σ.threads.map Handler.blobId).Nodup := by
  have hid : ∀ (i : ℕ) t, σ.threads[i]? = some t →
      ∃ u, t.upload = some u ∧ t.blobId = u.blobId := by
    intro i t ht
    obtain ⟨p, pc, hi, _⟩ := h.thread ht
    obtain ⟨u, hu, _⟩ := h.cameThrough hmac hi ht (hend t (List.mem_of_getElem? ht))
    exact ⟨u, hu, by rw [Handler.blobId, hu]; rfl⟩
  rw [List.nodup_iff_getElem?_ne_getElem?]
  intro i j hij hj heq
  rw [List.length_map] at hj
  rw [List.getElem?_map, List.getElem?_map, List.getElem?_eq_getElem hj,
    List.getElem?_eq_getElem (hij.trans hj)] at heq
  obtain ⟨u, hu, hub⟩ := hid i _ (List.getElem?_eq_getElem (hij.trans hj))
  obtain ⟨v, hv, hvb⟩ := hid j _ (List.getElem?_eq_getElem hj)
  refine h.files.inv.pair i j _ _ (Nat.ne_of_lt hij) (List.getElem?_eq_getElem (hij.trans hj))
    (List.getElem?_eq_getElem hj) u v hu hv ?_
  rw [← hub, ← hvb]
  exact Option.some.inj heq

theorem load_finished {t : Handler} (h : t.finished = true) : t.load = 0 := by
  cases t with
  | put messages pc =>
    cases pc with
    | finished u o => rfl
    | _ => cases h
  | get request pc => rfl
  | remove s ids pc => rfl
  | dispose s pc => rfl

theorem behind_calling (σ : System) (puts : List PutCall) :
    (σ.calling puts).behind σ.threads.length = calledPuts σ.shared puts := by
  rw [Pool.behind, System.calling, List.drop_left]
  rfl

theorem run_behind {n : ℕ} {ls : List SystemMove}
    (hrun : Run (systemStep cfg) (OnlyFrom n) σ ls σ') :
    ∃ ls' : List SystemMove, ls'.length = ls.length ∧
      Run (systemStep cfg) (OnlyFrom 0) (σ.behind n) ls' (σ'.behind n) := by
  refine ⟨_, List.length_map _,
    hrun.simulate (Pool.behind n) (Pool.moveBehind n) fun σ l σ' hok hst => ?_⟩
  obtain ⟨i, hi, rfl⟩ := hok
  exact ⟨⟨i - n, Nat.zero_le _, rfl⟩, Pool.step_behind hi hst⟩

/-- Uploads that fit the quota together, from any reachable state and under any schedule:
they take no more than their own steps, each of them can go on until it has ended, and
when all have ended every one came through under an id of its own, older entries are as
they were, and the counter has gone up by their contents. -/
theorem concurrent_puts {σ σ' : System} {puts : List PutCall} {ls : List SystemMove}
    (hσ : Reachable cfg σ) (hmac : cfg.tagGenerator.Yields) (hquota : cfg.quota < 2^64)
    (hputs : ∀ p ∈ puts, p.WellFormed ∧ σ.shared.manager.Live p.metadata.sessionId ∧
      p.content.length < 2^64)
    (hroom : σ.shared.manager.blobId + puts.length + 1 < 2^64)
    (hfits : cfg.quota = 0 ∨ σ.shared.manager.currentSize + totalContent puts ≤ cfg.quota)
    (hrun : Run (systemStep cfg) (OnlyFrom σ.threads.length) (σ.calling puts) ls σ') :
    ls.length ≤ (puts.map PutCall.steps).sum ∧
      (∀ (j : ℕ) p, puts[j]? = some p → ∃ t, σ'.threads[σ.threads.length + j]? = some t ∧
        (t.finished = true ∨
          ∃ σ'', systemStep cfg (.run (σ.threads.length + j) .none) σ' = some σ'')) ∧
      ((∀ t ∈ σ'.threads.drop σ.threads.length, t.finished = true) →
        (∃ ids : List ℕ, ids.length = puts.length ∧ ids.Nodup ∧
          ∀ (j : ℕ) p b, puts[j]? = some p → ids[j]? = some b →
            ∃ t, σ'.threads[σ.threads.length + j]? = some t ∧ CameThrough cfg p b t σ'.shared) ∧
        (∀ s b e, σ.shared.manager.Entry s b e → σ'.shared.manager.Entry s b e) ∧
        (cfg.quota ≠ 0 → σ'.shared.manager.currentSize =
          σ.shared.manager.currentSize + totalContent puts)) := by
  have hmay : MayUpload cfg σ.shared puts :=
    ⟨hσ.world, hσ.1.2, hroom, hquota, fun p hp => (hputs p hp).1, fun p hp => (hputs p hp).2.1,
      fun p hp => (hputs p hp).2.2, fun hq => hfits.resolve_left hq⟩
  obtain ⟨ls', hlen, hrun'⟩ := run_behind hrun
  rw [behind_calling] at hrun'
  obtain ⟨hinv, hleft⟩ := putsInv_run hmay hrun' (putsInv_called hmay)
  have hsteps : ∀ p : PutCall, (Handler.put p.messages .called).stepsLeft = p.steps := by
    intro p
    simp only [Handler.stepsLeft, PutPc.stepsLeft, PutCall.messages, List.length_cons,
      List.length_map, PutCall.steps]
  rw [calledPuts_total hsteps] at hleft
  have hthread : ∀ j, σ'.threads[σ.threads.length + j]? =
      (σ'.behind σ.threads.length).threads[j]? := fun j => List.getElem?_drop.symm
  refine ⟨by omega, fun j p hj => ?_, fun hend => ⟨?_, hinv.old, fun hq => ?_⟩⟩
  · obtain ⟨pc, ht, _⟩ := hinv.going j p hj
    refine ⟨.put p.messages pc, (hthread j).trans ht, ?_⟩
    cases hfin : (Handler.put p.messages pc).finished with
    | true => exact Or.inl rfl
    | false =>
      obtain ⟨w', pc', hadv⟩ := hinv.advances hmay hj ht hfin
      have hmove : handlerStep cfg .none σ'.shared (.put p.messages pc) =
          some (w', .put p.messages pc') := by
        simp only [handlerStep]
        exact congrArg _ hadv.step
      have hsome := (hthread j).trans ht
      refine Or.inr ⟨⟨w', σ'.threads.set (σ.threads.length + j) (.put p.messages pc')⟩, ?_⟩
      simp only [systemStep, Pool.step, hsome, Option.bind_some, hmove, Option.map_some]
  · refine ⟨(σ'.behind σ.threads.length).threads.map Handler.blobId, ?_, hinv.nodup hmac hend,
      fun j p b hj hb => ?_⟩
    · rw [List.length_map]
      exact hinv.length
    · rw [List.getElem?_map] at hb
      obtain ⟨t, ht, rfl⟩ := Option.map_eq_some_iff.mp hb
      obtain ⟨u, hu, hthrough⟩ := hinv.cameThrough hmac hj ht (hend t (List.mem_of_getElem? ht))
      have hid : t.blobId = u.blobId := by
        rw [Handler.blobId, hu]
        rfl
      exact ⟨t, (hthread j).trans ht, hid ▸ hthrough⟩
  · have hload : (σ'.behind σ.threads.length).total Handler.load = 0 := by
      refine List.sum_eq_zero fun n hn => ?_
      obtain ⟨t, ht, rfl⟩ := List.mem_map.mp hn
      exact load_finished (hend t ht)
    have husage := hinv.usage hq
    rw [hload] at husage
    exact husage

/-- Two uploads into one session, step by step in turns. -/
def twoUploads : List PutCall :=
  [⟨⟨1, 1, none⟩, [[1, 2], [3]]⟩, ⟨⟨1, 1, some 4⟩, [[4, 5, 6, 7]]⟩]

def inTurns : List ℕ := [0, 1, 1, 0, 0, 1, 0, 1, 1, 0, 0, 1, 0, 1, 0]

theorem concurrent_puts_inTurns : ∃ (σ' : System) (ids : List ℕ),
    exec (systemStep smallConfig) (fun _ _ => true) (inTurns.map fun i => .run i .none)
      ((oneSession none).calling twoUploads) = some σ' ∧
    (∀ t ∈ σ'.threads, t.finished = true) ∧ σ'.shared.manager.currentSize = 7 ∧
    ids.length = 2 ∧ ids.Nodup ∧
    ∀ (j : ℕ) p b, twoUploads[j]? = some p → ids[j]? = some b →
      ∃ t, σ'.threads[j]? = some t ∧ CameThrough smallConfig p b t σ'.shared := by
  obtain ⟨σ', hexec, hend⟩ := (Option.any_eq_true
    (fun σ : System => σ.threads.all Handler.finished) _).mp
    (by decide : (exec (systemStep smallConfig) (fun _ _ => true)
      (inTurns.map fun i => .run i .none) ((oneSession none).calling twoUploads)).any _ = true)
  have hrun : Run (systemStep smallConfig) (OnlyFrom 0) ((oneSession none).calling twoUploads)
      (inTurns.map fun i => .run i .none) σ' := by
    refine .of_exec hexec fun _ l hl _ => ?_
    obtain ⟨i, _, rfl⟩ := List.mem_map.mp hl
    exact ⟨i, Nat.zero_le i, rfl⟩
  have hlive : (oneSession none).shared.manager.Live 1 :=
    (BlobSessionManager.owner_of_map (t := none) (by decide)).live
  have hputs : ∀ p ∈ twoUploads, p.WellFormed ∧
      (oneSession none).shared.manager.Live p.metadata.sessionId ∧ p.content.length < 2^64 := by
    intro p hp
    rcases List.mem_cons.mp hp with rfl | hp
    · exact ⟨⟨by decide, nofun⟩, hlive, by decide⟩
    · obtain rfl := List.mem_singleton.mp hp
      exact ⟨⟨by decide, fun n hn => (Option.some.inj hn).symm⟩, hlive, by decide⟩
  obtain ⟨_, _, hall⟩ := concurrent_puts (oneSession_reachable none) smallConfig_yields (by decide)
    hputs (by decide) (Or.inr (by decide)) hrun
  have hfin := List.all_eq_true.mp hend
  obtain ⟨⟨ids, hlen, hnodup, hcame⟩, _, husage⟩ := hall fun t ht =>
    hfin t (List.mem_of_mem_drop ht)
  refine ⟨σ', ids, hexec, hfin, husage (by decide), hlen, hnodup, fun j p b hj hb => ?_⟩
  obtain ⟨t, ht, hthrough⟩ := hcame j p b hj hb
  rw [show (oneSession none).threads.length = 0 from rfl, Nat.zero_add] at ht
  exact ⟨t, ht, hthrough⟩

end BlobRelay
