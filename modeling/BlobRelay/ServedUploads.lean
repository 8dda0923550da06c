import BlobRelay.GetDecision
import BlobRelay.UploadFiles

/-! # What a download of an upload sends

An upload's entry is there from its first step on, and nothing tells `Get` whether
its `Put` has ended. What `Get` sends is always the beginning of what the client
of the upload sends; it is all of it when the `Put` had returned OK before the
blob was looked up. -/

namespace BlobRelay
open Foundation Foundation.FileStore

/-- An input stream over the upload's file, after `sent` was read from it. -/
structure StreamOver (w : World) (u : Upload) (bytes : Bytes) (whole : Prop) (ins : InStream)
    (sent : Bytes) : Prop where
  start : sent <+: bytes
  pos : ins.pos = sent.length
  file : ∀ i, ins.ino = some i → HandleInv w u ⟨i, true⟩ ∧ w.files.data i <+: bytes
  whole : whole → ∃ i, ins.ino = some i ∧ w.files.data i = bytes ∧
    (ins.good = false → (w.files.data i).length ≤ ins.pos)

/-- A `Get` that has looked up the upload's id, or is about to. -/
def Serving (w : World) (u : Upload) (bytes : Bytes) (whole gone : Prop) : GetPc → Prop
  | .findHeld _ => True
  | .tagging _ path => path = u.path
  | .tagHeld _ path => path = u.path
  | .authorised path => path = u.path
  | .sizing path => path = u.path
  | .opening path written =>
    path = u.path ∧ ¬ gone ∧ ∃ n : ℕ, written = [.metadata (some n)] ∧ (whole → n = bytes.length)
  | .reading ins written =>
    ¬ gone ∧ ∃ (n : ℕ) (sent : List Bytes), written = .metadata (some n) :: sent.map .chunk ∧
      (whole → n = bytes.length) ∧ StreamOver w u bytes whole ins sent.flatten
  | .finished o written => o.IsOk → ¬ gone ∧ ∃ (n : ℕ) (sent : List Bytes),
      written = .metadata (some n) :: sent.map .chunk ∧ sent.flatten <+: bytes ∧
        (whole → n = bytes.length ∧ sent.flatten = bytes)
  | _ => False

/-- Nothing was found yet, or nothing is served. -/
def GetPc.Unserved : GetPc → Prop
  | .findHeld _ => True
  | .finished o _ => ¬ o.IsOk
  | _ => False

variable {cfg : Config} {f : Fault} {request : GetStreamingRequest} {w w' : World} {u : Upload}
  {bytes : Bytes} {whole gone : Prop} {pc pc' : GetPc} {t : Handler}

theorem GetPc.Unserved.serving (h : pc.Unserved) : Serving w u bytes whole gone pc := by
  cases pc with
  | findHeld ctx => trivial
  | finished o written => exact fun ho => absurd ho h
  | _ => cases h

/-! ### The download that moves -/

theorem streamOver_openRead (hfile : UploadFile w u bytes whole gone) :
    StreamOver w u bytes whole (openRead w.files true u.path) [] := by
  have hopen : ∀ i, w.files.names u.path = some (.regular i) →
      openRead w.files true u.path = ⟨some i, 0, true⟩ := fun i hi => by simp only [openRead, hi]
  refine ⟨List.nil_prefix, ?_, fun i hi => ?_, fun hwhole => ?_⟩
  · unfold openRead
    split <;> rfl
  · have hname : w.files.names u.path = some (.regular i) := by
      unfold openRead at hi
      split at hi
      · rename_i j hj _
        exact hj.trans (congrArg (fun k => some (Node.regular k)) (Option.some.inj hi))
      · cases hi
    exact ⟨⟨w.files.bounded _ _ hname, fun q hq => w.files.linkedOnce q _ i hq hname⟩,
      hfile.start _ (FileSystem.contents_of_regular hname)⟩
  · obtain ⟨i, hname, hdata⟩ := FileSystem.contents_regular (hfile.whole hwhole)
    rw [hopen i hname]
    exact ⟨i, rfl, hdata, fun hbad => absurd hbad.symm Bool.false_ne_true⟩

theorem StreamOver.read {ins : InStream} {sent : Bytes} (n : ℕ)
    (h : StreamOver w u bytes whole ins sent) :
    StreamOver w u bytes whole (ins.read n w.files).2 (sent ++ (ins.read n w.files).1) := by
  obtain ⟨hstart, hpos, hino⟩ :=
    InStream.read_prefix h.start h.pos (n := n) fun i hi => (h.file i hi).2
  refine ⟨hstart, hpos, fun i hi => h.file i (hino.symm.trans hi), fun hwhole => ?_⟩
  obtain ⟨i, hi, hdata, hgood⟩ := h.whole hwhole
  exact ⟨i, hino.trans hi, hdata, fun hbad => InStream.read_ended hi hgood hbad⟩

theorem StreamOver.ended {ins : InStream} {sent : Bytes} {n : ℕ} (hn : 1 ≤ n)
    (h : StreamOver w u bytes whole ins sent) (hread : (ins.read n w.files).1 = [])
    (hwhole : whole) : sent = bytes := by
  obtain ⟨i, hi, hdata, hgood⟩ := h.whole hwhole
  have hle := InStream.read_nil hn hi hgood hread
  rw [h.pos, hdata] at hle
  exact h.start.eq_of_length_le hle

theorem serving_getStepped (hchunk : 1 ≤ cfg.streamChunkSize)
    (h : GetStepped cfg f request w pc pc') (hf : f ≠ .openFails) (hu : UploadInv cfg w u)
    (hid : u.blobId = request.blob.objectId) (hfile : UploadFile w u bytes whole gone)
    (hs : Serving w u bytes whole gone pc) : Serving w u bytes whole gone pc' := by
  cases h with
  | raised => exact fun ho => absurd ho (getCatch_not_ok _)
  | denied hcode => exact fun ho => absurd ho hcode
  | contextRead => cases hs
  | ownerFound => cases hs
  | ownerChecked => cases hs
  | sessionFound => cases hs
  | datastorePath => cases hs
  | blobFound he =>
    rw [← hid] at he
    exact (hu.owned _ _ he).2
  | tagSession => exact hs
  | tagged => exact hs
  | sessionTagged => exact hs
  | present => exact hs
  | @sized path n hn =>
    obtain rfl : path = u.path := hs
    obtain ⟨bs, hbs, rfl⟩ := Option.map_eq_some_iff.mp hn
    refine ⟨rfl, fun hgone => ?_, bs.length, rfl, fun hwhole => ?_⟩
    · rw [FileSystem.contents_absent (hfile.gone hgone)] at hbs
      cases hbs
    · rw [Option.some.inj (hbs.symm.trans (hfile.whole hwhole))]
  | opened =>
    obtain ⟨rfl, hgone, n, rfl, hlen⟩ := hs
    have hopens : decide (f ≠ .openFails) = true := decide_eq_true hf
    rw [hopens]
    exact ⟨hgone, n, [], rfl, hlen, streamOver_openRead hfile⟩
  | @sent ins written =>
    obtain ⟨hgone, n, sent, rfl, hlen, hover⟩ := hs
    have hnext := hover.read cfg.streamChunkSize
    refine ⟨hgone, n, sent ++ [(ins.read cfg.streamChunkSize w.files).1], ?_, hlen, ?_⟩
    · simp
    · simpa using hnext
  | ended hread =>
    obtain ⟨hgone, n, sent, rfl, hlen, hover⟩ := hs
    exact fun _ => ⟨hgone, n, sent, rfl, hover.start,
      fun hwhole => ⟨hlen hwhole, hover.ended hchunk hread hwhole⟩⟩

/-! ### The others -/

/-- Inodes that were the upload's start with what they started with, and are as
they were when the upload is whole. -/
structure KeepsData (w w' : World) (u : Upload) (bytes : Bytes) (whole : Prop) : Prop where
  evolves : Evolves w w'
  start : ∀ i, HandleInv w u ⟨i, true⟩ → w.files.data i <+: bytes → w'.files.data i <+: bytes
  whole : whole → ∀ i, HandleInv w u ⟨i, true⟩ → w'.files.data i = w.files.data i

theorem KeepsData.of_same (he : Evolves w w')
    (hdata : ∀ i, HandleInv w u ⟨i, true⟩ → w'.files.data i = w.files.data i) :
    KeepsData w w' u bytes whole :=
  ⟨he, fun i hi hb => (hdata i hi).symm ▸ hb, fun _ => hdata⟩

theorem Serving.keeps (h : Serving w u bytes whole gone pc) (hk : KeepsData w w' u bytes whole) :
    Serving w' u bytes whole gone pc := by
  cases pc with
  | reading ins written =>
    obtain ⟨hgone, n, sent, hw, hlen, hover⟩ := h
    refine ⟨hgone, n, sent, hw, hlen, hover.start, hover.pos, fun i hi => ?_, fun hwhole => ?_⟩
    · obtain ⟨hh, hdata⟩ := hover.file i hi
      exact ⟨hh.evolves hk.evolves, hk.start i hh hdata⟩
    · obtain ⟨i, hi, hdata, hgood⟩ := hover.whole hwhole
      have hsame := hk.whole hwhole i (hover.file i hi).1
      exact ⟨i, hi, hsame.trans hdata, fun hbad => hsame ▸ hgood hbad⟩
  | _ => exact h

theorem data_putStepped {messages : List PutStreamingRequest} {pc pc' : PutPc} {i : ℕ}
    (h : PutStepped cfg f messages w pc w' pc') (hf : f.writes = none)
    (hfile : PutFile w messages pc) (hi : i < w.files.next) :
    w'.files.data i = w.files.data i ∨ ∃ out, pc'.upload = pc.upload ∧
      (∃ v, (Handler.put messages pc).handle = some (v, out)) ∧ out.ino = i ∧
        w'.files.names = w.files.names := by
  cases h with
  | created hreg =>
    rw [hreg.files]
    exact Or.inl rfl
  | opened hopen =>
    refine Or.inl (FileSystem.data_openWrite hopen hi ?_)
    rw [hfile.1]
    exact nofun
  | closed => exact Or.inl (by rw [close_none hf])
  | @charged v out n bytes rest e w₁ hch =>
    have hwrite : out.write f.writes bytes w₁.files = (out, w₁.files.append out.ino bytes) := by
      simp [OutStream.write, hfile.1, hf]
    rw [hwrite, hch.files]
    by_cases hio : i = out.ino
    · exact Or.inr ⟨out, rfl, ⟨v, rfl⟩, hio.symm, rfl⟩
    · exact Or.inl (FileSystem.data_append_of_ne _ hio _)
  | refused => exact Or.inl (by rw [close_none hf])
  | lost => exact Or.inl (by rw [close_none hf])
  | notChunk => exact Or.inl (by rw [close_none hf])
  | deleted her => exact Or.inl (by rw [her.data])
  | mismatch => exact Or.inl rfl
  | _ => exact Or.inl rfl

theorem names_of_handle {messages : List PutStreamingRequest} {pc : PutPc} {v : Upload}
    {out : OutStream} (hfile : PutFile w messages pc)
    (h : (Handler.put messages pc).handle = some (v, out)) :
    pc.upload = some v ∧ w.files.names v.path = some (.regular out.ino) := by
  cases pc with
  | receiving v' out' n rest =>
    cases h
    exact ⟨rfl, hfile.2.1⟩
  | _ => cases h

theorem keepsData_other {messages : List PutStreamingRequest} {pc pc' : PutPc} {σ : System}
    (hσ : FilesInv cfg σ) (hsafe : Evolves σ.shared w') {i j : ℕ} {t : Handler} (hij : i ≠ j)
    (hi : σ.threads[i]? = some (.put messages pc)) (hj : σ.threads[j]? = some t)
    (ht : t.upload = some u) (hf : f.writes = none)
    (h : PutStepped cfg f messages σ.shared pc w' pc') : KeepsData σ.shared w' u bytes whole := by
  refine .of_same hsafe fun k hk => ?_
  have hfile := hσ.files i messages pc hi
  rcases data_putStepped h hf hfile hk.inUse with hsame | ⟨out, _, ⟨v, hv⟩, rfl, _⟩
  · exact hsame
  · -- two uploads with one inode would have one path and so one id
    obtain ⟨hup, hname⟩ := names_of_handle hfile hv
    have hpath := hk.ownName _ hname
    rw [((hσ.inv.thread i _ hi).upload v hup).path, ((hσ.inv.thread j _ hj).upload u ht).path] at hpath
    exact absurd (uploadPath_injective cfg hpath) (hσ.inv.pair i j _ _ hij hi hj v u hup ht)

theorem keepsData_self {messages : List PutStreamingRequest} {pc pc' : PutPc}
    (hsafe : Evolves w w') (hf : f.writes = none) (hfile : PutFile w messages pc)
    (hfile' : PutFile w' messages pc') (hpc : pc.upload = some u) (hwhole : ¬ whole)
    (h : PutStepped cfg f messages w pc w' pc') :
    KeepsData w w' u (payload messages) whole := by
  refine ⟨hsafe, fun i hi hdata => ?_, fun hw => absurd hw hwhole⟩
  rcases data_putStepped h hf hfile hi.inUse with hsame | ⟨out, hup, ⟨v, hv⟩, rfl, hnames⟩
  · exact hsame.symm ▸ hdata
  · obtain ⟨hv', hname⟩ := names_of_handle hfile hv
    obtain rfl := Option.some.inj (hpc.symm.trans hv')
    exact hfile'.written (hup.trans hpc) (FileSystem.contents_of_regular (hnames ▸ hname))

theorem keepsData_envStep {a : EnvAction} (h : envStep cfg a w = some w') (hroom : Headroom w)
    (hu : UploadInv cfg w u) : KeepsData w w' u bytes whole := by
  refine .of_same (envStep_safe h (hroom.room w')).evolves fun i hi => ?_
  cases a with
  | createSession t =>
    cases h
    rfl
  | add s path =>
    obtain ⟨⟨r, w₁⟩, hadd, hr⟩ := Option.map_eq_some_iff.mp h
    cases hr
    cases r with
    | ok b => rw [(World.add_ok hadd).2.files]
    | error x =>
      obtain ⟨_, rfl⟩ := World.add_error hadd
      rfl
  | outsideWrite path bs =>
    simp only [envStep, outsideWrite] at h
    split at h
    · cases h
    · rename_i hout
      obtain ⟨⟨j, fs⟩, hopen, rfl⟩ := Option.map_eq_some_iff.mp h
      have hne : w.files.names path ≠ some (.regular i) := by
        intro hname
        rw [hi.ownName path hname, hu.path] at hout
        exact hout (uploadPath_inDirectory cfg _)
      have hij : i ≠ j := by
        rintro rfl
        rcases FileSystem.openWrite_names hopen (FileSystem.openWrite_self hopen).1 with hold | hle
        · exact hne hold
        · exact absurd hi.inUse (not_lt.mpr hle)
      exact (FileSystem.data_append_of_ne fs hij bs).trans
        (FileSystem.data_openWrite hopen hi.inUse hne)
  | outsideDelete path =>
    cases h
    rfl

/-! ### Every run of uploads and downloads -/

theorem handlerStep_finished (h : t.finished = true) : handlerStep cfg f w t = none := by
  unfold Handler.finished at h
  split at h <;> first | rfl | cases h

theorem finished_stays {σ σ' : System} {l : SystemMove} {j : ℕ} {t : Handler}
    (h : systemStep cfg l σ = some σ') (hj : σ.threads[j]? = some t) (ht : t.finished = true) :
    σ'.threads[j]? = some t := by
  cases l with
  | env a =>
    obtain ⟨w₁, _, rfl⟩ := Pool.step_env h
    exact hj
  | call c =>
    obtain rfl := Pool.step_call h
    have hlt : j < σ.threads.length := (List.getElem?_eq_some_iff.mp hj).1
    exact (List.getElem?_append_left hlt).trans hj
  | run i f =>
    obtain ⟨v, w₁, v', hv, hstep, rfl⟩ := Pool.step_run h
    have hne : i ≠ j := by
      rintro rfl
      obtain rfl := Option.some.inj (hv.symm.trans hj)
      rw [handlerStep_finished ht] at hstep
      cases hstep
    exact (List.getElem?_set_ne hne).trans hj

/-- In `σ` the upload `u` of thread `j` has ended, with such an outcome. -/
def EndedAs (p : PutOutcome → Prop) (j : ℕ) (messages : List PutStreamingRequest) (u : Upload)
    (σ : System) : Prop :=
  ∃ o, σ.threads[j]? = some (.put messages (.finished (some u) o)) ∧ p o

/-- Thread `i` serves the blob of `request`, which it was about to look up in `σ₁`. -/
structure ServingInv (cfg : Config) (σ₁ : System) (i : ℕ) (request : GetStreamingRequest)
    (pc : GetPc) (σ : System) : Prop where
  files : FilesInv cfg σ
  stays : ∀ (j : ℕ) messages u o, σ₁.threads[j]? = some (.put messages (.finished (some u) o)) →
    σ.threads[j]? = some (.put messages (.finished (some u) o))
  thread : σ.threads[i]? = some (.get request pc)
  issued : pc.Unserved ∨ request.blob.objectId ≤ σ.shared.manager.blobId
  serving : ∀ (j : ℕ) messages ppc u, σ.threads[j]? = some (.put messages ppc) →
    ppc.upload = some u → u.blobId = request.blob.objectId →
      Serving σ.shared u (payload messages) (EndedAs PutOutcome.IsOk j messages u σ₁)
        (EndedAs PutOutcome.NoFile j messages u σ₁) pc

namespace ServingInv
variable {σ₁ σ σ' : System} {i : ℕ} {l : SystemMove}

theorem uploadFile (hσ : ServingInv cfg σ₁ i request pc σ) {j : ℕ}
    {messages : List PutStreamingRequest} {ppc : PutPc}
    (hj : σ.threads[j]? = some (.put messages ppc)) (hu : ppc.upload = some u) :
    UploadFile σ.shared u (payload messages) (EndedAs PutOutcome.IsOk j messages u σ₁)
      (EndedAs PutOutcome.NoFile j messages u σ₁) := by
  refine ⟨fun bs => (hσ.files.files j messages ppc hj).written hu, ?_, ?_⟩
  · rintro ⟨o, ho, hok⟩
    exact UploadFile.whole (hσ.files.files j messages _ (hσ.stays j messages u o ho)) hok
  · rintro ⟨o, ho, hno⟩
    exact UploadFile.gone (hσ.files.files j messages _ (hσ.stays j messages u o ho)) hno

theorem issued_getStepped (hσ : ServingInv cfg σ₁ i request pc σ)
    (h : GetStepped cfg f request σ.shared pc pc') :
    pc'.Unserved ∨ request.blob.objectId ≤ σ.shared.manager.blobId := by
  rcases hσ.issued with hun | hle
  · cases h with
    | raised => exact Or.inl (getCatch_not_ok _)
    | denied hcode => exact Or.inl hcode
    | blobFound he => exact Or.inr (hσ.files.inv.shared.blobIds _ _ _ he).2
    | _ => cases hun
  · exact Or.inr hle

/-- The step of an upload, seen by the download of an upload that was there before. -/
theorem serving_putStepped (hσ : ServingInv cfg σ₁ i request pc σ) (hroom : Headroom σ.shared)
    {k j : ℕ} {messages ms : List PutStreamingRequest} {ppc ppc' qpc : PutPc}
    (hk : σ.threads[k]? = some (.put messages ppc)) (hf : f.writes = none)
    (hstep : PutStepped cfg f messages σ.shared ppc w' ppc') (hfile : PutFile w' messages ppc')
    (hj : (σ.threads.set k (.put messages ppc'))[j]? = some (.put ms qpc))
    (hu : qpc.upload = some u) (hid : u.blobId = request.blob.objectId) :
    Serving w' u (payload ms) (EndedAs PutOutcome.IsOk j ms u σ₁)
      (EndedAs PutOutcome.NoFile j ms u σ₁) pc := by
  have hsafe := (putStepped_safe hstep (hroom.room w') hσ.files.inv.shared (hσ.files.inv.thread k _ hk)).1.evolves
  rcases Pool.getElem_set hj with ⟨rfl, heq⟩ | ⟨hjk, hj⟩
  · cases heq
    rcases putStepped_upload hstep hu with hold | ⟨hnew, _⟩
    · refine (hσ.serving j messages ppc u hk hold hid).keeps
        (keepsData_self hsafe hf (hσ.files.files j messages ppc hk) hfile hold ?_ hstep)
      rintro ⟨o, ho, _⟩
      cases Option.some.inj (hk.symm.trans (hσ.stays j messages u o ho))
      cases hstep
    · -- the id is new, so the lookup is yet to come or found nothing
      rcases hσ.issued with hun | hle
      · exact hun.serving
      · rw [← hid, hnew, add64_of_lt hroom.1] at hle
        exact absurd hle (Nat.not_succ_le_self _)
  · exact (hσ.serving j ms qpc u hj hu hid).keeps
      (keepsData_other hσ.files hsafe (Ne.symm hjk) hk hj hu hf hstep)

theorem run_step (hσ : ServingInv cfg σ₁ i request pc σ) {k : ℕ} (hok : PutsAndGets σ (.run k f))
    (hchunk : 1 ≤ cfg.streamChunkSize) (h : systemStep cfg (.run k f) σ = some σ')
    (hfiles : FilesInv cfg σ')
    (hstays : ∀ (j : ℕ) messages u o,
      σ₁.threads[j]? = some (.put messages (.finished (some u) o)) →
        σ'.threads[j]? = some (.put messages (.finished (some u) o))) :
    ∃ pc', ServingInv cfg σ₁ i request pc' σ' := by
  obtain ⟨t, w₁, t', ht, hstep, rfl⟩ := Pool.step_run h
  have htr := hok.2 t ht
  cases t with
  | put messages ppc =>
    obtain ⟨ppc', rfl, hput⟩ := handlerStep_put hstep
    have hki : k ≠ i := by
      rintro rfl
      cases Option.some.inj (ht.symm.trans hσ.thread)
    have hsafe := (putStepped_safe hput (hok.1.room _) hσ.files.inv.shared (hσ.files.inv.thread k _ ht)).1.evolves
    have hself : (σ.threads.set k (.put messages ppc'))[k]? = some (.put messages ppc') :=
      List.getElem?_set_self (List.getElem?_eq_some_iff.mp ht).1
    exact ⟨pc, hfiles, hstays, (List.getElem?_set_ne hki).trans hσ.thread,
      hσ.issued.imp_right fun hle => hle.trans hsafe.blobId,
      fun j ms qpc u hj hu hid => hσ.serving_putStepped hok.1 ht (Option.isNone_iff_eq_none.mp htr)
        hput (hfiles.files k messages ppc' hself) hj hu hid⟩
  | get request' pc₀ =>
    obtain ⟨rfl, pc₀', rfl, hget⟩ := handlerStep_get hstep
    -- the other threads and the world are as they were
    have hput : ∀ {j : ℕ} {ms qpc}, (σ.threads.set k (.get request' pc₀'))[j]? = some (.put ms qpc) →
        σ.threads[j]? = some (.put ms qpc) := by
      intro j ms qpc hj
      rcases Pool.getElem_set hj with ⟨_, heq⟩ | ⟨_, hj⟩
      · cases heq
      · exact hj
    by_cases hki : k = i
    · subst hki
      cases Option.some.inj (ht.symm.trans hσ.thread)
      refine ⟨pc₀', hfiles, hstays, List.getElem?_set_self (List.getElem?_eq_some_iff.mp ht).1,
        hσ.issued_getStepped hget, fun j ms qpc u hj hu hid => ?_⟩
      have hj := hput hj
      exact serving_getStepped hchunk hget (of_decide_eq_true htr)
        ((hσ.files.inv.thread j _ hj).upload u hu) hid (hσ.uploadFile hj hu)
        (hσ.serving j ms qpc u hj hu hid)
    · exact ⟨pc, hfiles, hstays, (List.getElem?_set_ne hki).trans hσ.thread, hσ.issued,
        fun j ms qpc u hj => hσ.serving j ms qpc u (hput hj)⟩
  | remove s ids pc₀ => cases htr
  | dispose s pc₀ => cases htr

theorem step (hσ : ServingInv cfg σ₁ i request pc σ) (hok : PutsAndGets σ l)
    (hchunk : 1 ≤ cfg.streamChunkSize) (h : systemStep cfg l σ = some σ') :
    ∃ pc', ServingInv cfg σ₁ i request pc' σ' := by
  have hfiles := filesInv_step hσ.files hok h
  have hstays : ∀ (j : ℕ) messages u o,
      σ₁.threads[j]? = some (.put messages (.finished (some u) o)) →
        σ'.threads[j]? = some (.put messages (.finished (some u) o)) :=
    fun j messages u o ho => finished_stays h (hσ.stays j messages u o ho) rfl
  cases l with
  | env a =>
    obtain ⟨w₁, hw, rfl⟩ := Pool.step_env h
    have hsafe := (envStep_safe hw (hok.1.room _)).evolves
    exact ⟨pc, hfiles, hstays, hσ.thread, hσ.issued.imp_right fun hle => hle.trans hsafe.blobId,
      fun j ms qpc u hj hu hid => (hσ.serving j ms qpc u hj hu hid).keeps
        (keepsData_envStep hw hok.1 ((hσ.files.inv.thread j _ hj).upload u hu))⟩
  | call c =>
    obtain rfl := Pool.step_call h
    have hlt : i < σ.threads.length := (List.getElem?_eq_some_iff.mp hσ.thread).1
    refine ⟨pc, hfiles, hstays, (List.getElem?_append_left hlt).trans hσ.thread, hσ.issued,
      fun j ms qpc u hj hu hid => ?_⟩
    rcases Pool.getElem_snoc hj with ⟨_, heq⟩ | ⟨_, hj⟩
    · have hnone : (Handler.put ms qpc).upload = none := heq ▸ c.start_upload
      rw [Handler.upload, hu] at hnone
      cases hnone
    · exact hσ.serving j ms qpc u hj hu hid
  | run k f => exact hσ.run_step hok hchunk h hfiles hstays

end ServingInv

/-- Interleaved with uploads and downloads only, a `Get` that returns OK for a blob
that some `Put` allocated has sent the beginning of what the client of that `Put`
sends. If the `Put` had ended before the lookup, it had not ended by removing the
file or by not opening it; if it had returned OK, everything was sent. -/
theorem get_serves_upload (hchunk : 1 ≤ cfg.streamChunkSize) {σ₀ σ₁ σ₂ : System}
    {ls ms : List SystemMove} {i j : ℕ} {ctx : GetContext} {o : GetOutcome}
    {written : List GetStreamingResponse} {messages : List PutStreamingRequest} {ppc : PutPc}
    (h₀ : Initial cfg σ₀) (hbefore : Run (systemStep cfg) PutsAndGets σ₀ ls σ₁)
    (hlookup : σ₁.threads[i]? = some (.get request (.findHeld ctx)))
    (hafter : Run (systemStep cfg) PutsAndGets σ₁ (.run i f :: ms) σ₂)
    (hget : σ₂.threads[i]? = some (.get request (.finished o written))) (hok : o.IsOk)
    (hput : σ₂.threads[j]? = some (.put messages ppc)) (hu : ppc.upload = some u)
    (hid : u.blobId = request.blob.objectId) :
    ∃ (n : ℕ) (sent : List Bytes), written = .metadata (some n) :: sent.map .chunk ∧
      sent.flatten <+: payload messages ∧
      ∀ p, σ₁.threads[j]? = some (.put messages (.finished (some u) p)) → ¬ p.NoFile ∧
        (p.IsOk → n = (payload messages).length ∧ sent.flatten = payload messages) := by
  have hstart : ∃ pc, ServingInv cfg σ₁ i request pc σ₁ :=
    ⟨.findHeld ctx, filesInv_run (filesInv_initial h₀) hbefore, fun _ _ _ _ ho => ho, hlookup,
      Or.inl trivial, fun _ _ _ _ _ _ _ => trivial⟩
  obtain ⟨pc, hend⟩ := hafter.invariant (fun σ => ∃ pc, ServingInv cfg σ₁ i request pc σ)
    (fun _ _ _ ⟨_, hi⟩ hp hs => hi.step hp hchunk hs) hstart
  cases Option.some.inj (hget.symm.trans hend.thread)
  obtain ⟨hgone, n, sent, hwritten, hpre, hwhole⟩ := hend.serving j messages ppc u hput hu hid hok
  exact ⟨n, sent, hwritten, hpre,
    fun p hp => ⟨fun hno => hgone ⟨p, hp, hno⟩, fun hpok => hwhole ⟨p, hp, hpok⟩⟩⟩

/-! ### A download before and after the upload has ended -/

def Handler.download : Handler → Option (GetStreamingRequest × GetPc)
  | .get request pc => some (request, pc)
  | _ => none

def Handler.uploading : Handler → Option (List PutStreamingRequest × PutPc)
  | .put messages pc => some (messages, pc)
  | _ => none

theorem eq_get_of_download {σ : System} {i : ℕ}
    (h : σ.threads[i]?.bind Handler.download = some (request, pc)) :
    σ.threads[i]? = some (.get request pc) := by
  obtain ⟨t, ht, hd⟩ := Option.bind_eq_some_iff.mp h
  cases t <;> cases hd
  exact ht

theorem eq_put_of_uploading {σ : System} {i : ℕ} {messages : List PutStreamingRequest}
    {ppc : PutPc} (h : σ.threads[i]?.bind Handler.uploading = some (messages, ppc)) :
    σ.threads[i]? = some (.put messages ppc) := by
  obtain ⟨t, ht, hd⟩ := Option.bind_eq_some_iff.mp h
  cases t <;> cases hd
  exact ht

def twoChunks : List PutStreamingRequest := [.metadata ⟨1, 1, none⟩, .chunk [1, 2, 3], .chunk [4]]

def downloadRequest : GetStreamingRequest := ⟨1, some (.sessionId 1), ⟨0, 1, 2⟩⟩

/-- The upload takes some steps, then the download comes to its lookup. -/
def untilLookup (steps : ℕ) : List SystemMove :=
  [.env (.createSession none), .call (.put twoChunks)] ++ List.replicate steps (.run 0 .none) ++
    [.call (.get downloadRequest), .run 1 .none, .run 1 .none]

def fromLookup : List SystemMove := .run 1 .none :: List.replicate 8 (.run 1 .none)

theorem systemStep_get {σ : System} {i : ℕ} (hi : σ.threads[i]? = some (.get request pc))
    (h : getPcStep cfg f request σ.shared pc = some pc') :
    systemStep cfg (.run i f) σ = some ⟨σ.shared, σ.threads.set i (.get request pc')⟩ := by
  simp only [systemStep, Pool.step, hi, Option.bind_some, handlerStep, h, Option.map_some]

/-- A file shorter than a read is sent in one chunk. -/
theorem read_at_once {σ : System} {i k : ℕ} {written : List GetStreamingResponse}
    (hi : σ.threads[i]? = some (.get request (.reading ⟨some k, 0, true⟩ written)))
    (hdata : σ.shared.files.data k = bytes) (hne : bytes ≠ [])
    (hlt : bytes.length < cfg.streamChunkSize) (hroom : Headroom σ.shared) :
    ∃ σ', Run (systemStep cfg) PutsAndGets σ [.run i .none, .run i .none] σ' ∧
      σ'.threads[i]? = some (.get request
        (.finished (.returned GetStatus.ok) (written ++ [.chunk bytes]))) ∧
      ∀ j, j ≠ i → σ'.threads[j]? = σ.threads[j]? := by
  have hbound := (List.getElem?_eq_some_iff.mp hi).1
  have hread : InStream.read ⟨some k, 0, true⟩ cfg.streamChunkSize σ.shared.files =
      (bytes, ⟨some k, 0 + bytes.length, false⟩) := by
    have htake : bytes.take cfg.streamChunkSize = bytes := List.take_of_length_le hlt.le
    have hshort : (bytes.length == cfg.streamChunkSize) = false := beq_false_of_ne hlt.ne
    rw [read_good, hdata, List.drop_zero, htake, hshort]
  have hsent : getPcStep cfg .none request σ.shared (.reading ⟨some k, 0, true⟩ written) =
      some (.reading ⟨some k, 0 + bytes.length, false⟩ (written ++ [.chunk bytes])) := by
    simp only [getPcStep, hread, if_neg hne]
  have hended : getPcStep cfg .none request σ.shared
      (.reading ⟨some k, 0 + bytes.length, false⟩ (written ++ [.chunk bytes])) =
      some (.finished (.returned GetStatus.ok) (written ++ [.chunk bytes])) := rfl
  have hself : ∀ t, (σ.threads.set i t)[i]? = some t := fun t => List.getElem?_set_self hbound
  have hmoves : ∀ (τ : System) pc, τ.threads[i]? = some (.get request pc) →
      Headroom τ.shared → PutsAndGets τ (.run i .none) := by
    intro τ pc hpc hτ
    refine ⟨hτ, fun t ht => ?_⟩
    cases Option.some.inj (hpc.symm.trans ht)
    cases pc <;> rfl
  refine ⟨_, .cons (hmoves _ _ hi hroom) (systemStep_get hi hsent)
    (.cons (hmoves _ _ (hself _) hroom) (systemStep_get (hself _) hended) (.nil _)), ?_, ?_⟩
  · rw [List.set_set]
    exact hself _
  · intro j hj
    rw [List.set_set]
    exact List.getElem?_set_ne hj.symm

/-- No quota, and reads longer than any chunk. -/
def wideConfig : Config := {smallConfig with quota := 0, streamChunkSize := 65536}

def uploadOf (bytes : Bytes) : List PutStreamingRequest :=
  [.metadata ⟨1, 1, none⟩, .chunk bytes, .chunk [4]]

/-- One of the two chunks is written when the download comes to its lookup. -/
def halfWay (bytes : Bytes) : List SystemMove :=
  [.env (.createSession none), .call (.put (uploadOf bytes))] ++ List.replicate 4 (.run 0 .none) ++
    [.call (.get downloadRequest), .run 1 .none, .run 1 .none]

def untilRead : List SystemMove := .run 1 .none :: List.replicate 5 (.run 1 .none)

def halfUploaded (bytes : Bytes) : PutPc :=
  .receiving ⟨1, 1, uploadPath wideConfig 1, none⟩ ⟨0, true⟩ (add64 0 bytes.length) [.chunk [4]]

theorem halfWay_reached (bytes : Bytes) :
    ((exec (systemStep wideConfig) (fun σ l => decide (PutsAndGets σ l)) (halfWay bytes)
      smallStart).bind fun σ₁ => (exec (systemStep wideConfig)
        (fun σ l => decide (PutsAndGets σ l)) untilRead σ₁).map fun σ₂ =>
          (σ₁.threads[1]?, σ₂.threads, σ₂.shared.files.data 0, decide (Headroom σ₂.shared))) =
      some (some (.get downloadRequest (.findHeld ⟨1, none, false⟩)),
        [.put (uploadOf bytes) (halfUploaded bytes), .get downloadRequest
          (.reading ⟨some 0, 0, true⟩ [.metadata (some bytes.length)])], bytes, true) := by
  with_unfolding_all rfl

/-- The first chunk is too long for the buffer of an `std::ofstream`: it is in the file when
`write` returns. -/
theorem unfinished_upload_served : ¬ ∀ (cfg : Config) (σ₀ σ₁ σ₂ : System)
    (ls ms : List SystemMove) (i j : ℕ) (f : Fault) (request : GetStreamingRequest)
    (ctx : GetContext) (o : GetOutcome) (written : List GetStreamingResponse)
    (messages : List PutStreamingRequest) (ppc : PutPc) (u : Upload),
    1 ≤ cfg.streamChunkSize → Initial cfg σ₀ → Run (systemStep cfg) PutsAndGets σ₀ ls σ₁ →
    σ₁.threads[i]? = some (.get request (.findHeld ctx)) →
    Run (systemStep cfg) PutsAndGets σ₁ (.run i f :: ms) σ₂ →
    σ₂.threads[i]? = some (.get request (.finished o written)) → o.IsOk →
    σ₂.threads[j]? = some (.put messages ppc) → ppc.upload = some u →
    u.blobId = request.blob.objectId →
    (∃ p, σ₁.threads[j]? = some (.put messages (.finished (some u) p)) ∧ p.IsOk) ∧
      ∃ (n : ℕ) (sent : List Bytes), written = .metadata (some n) :: sent.map .chunk ∧
        sent.flatten = payload messages := by
  intro h
  let bytes : Bytes := List.replicate 9000 7
  have hlen : bytes.length = 9000 := List.length_replicate
  obtain ⟨σ₁, hσ₁, hrest⟩ := Option.bind_eq_some_iff.mp (halfWay_reached bytes)
  obtain ⟨σ₂, hσ₂, heq⟩ := Option.map_eq_some_iff.mp hrest
  obtain ⟨hlookup, heq⟩ := Prod.mk.inj heq
  obtain ⟨hthreads, heq⟩ := Prod.mk.inj heq
  obtain ⟨hdata, hroom⟩ := Prod.mk.inj heq
  have hreading : σ₂.threads[1]? = some (.get downloadRequest
      (.reading ⟨some 0, 0, true⟩ [.metadata (some bytes.length)])) := by
    rw [hthreads]
    rfl
  have hlt : bytes.length < wideConfig.streamChunkSize := by
    rw [hlen]
    decide
  obtain ⟨σ₃, hread, hget, hothers⟩ := read_at_once hreading hdata
    (List.ne_nil_of_length_pos (by omega)) hlt (of_decide_eq_true hroom)
  have hput : σ₃.threads[0]? = some (.put (uploadOf bytes) (halfUploaded bytes)) := by
    rw [hothers 0 (by decide), hthreads]
    rfl
  have hrun : Run (systemStep wideConfig) PutsAndGets σ₁ untilRead σ₂ :=
    .of_exec hσ₂ fun _ _ _ hc => of_decide_eq_true hc
  obtain ⟨_, n, sent, hwritten, hall⟩ := h wideConfig smallStart σ₁ σ₃ (halfWay bytes) _ 1 0 .none
    downloadRequest _ _ _ (uploadOf bytes) _ ⟨1, 1, uploadPath wideConfig 1, none⟩
    (by decide) ⟨⟨rfl, emptyDisk, rfl⟩, rfl⟩
    (.of_exec hσ₁ fun _ _ _ hc => of_decide_eq_true hc) hlookup (hrun.append hread) hget rfl hput
    rfl rfl
  have hone : sent = [bytes] := by
    have htail : [bytes].map GetStreamingResponse.chunk = sent.map .chunk :=
      (List.cons.inj hwritten).2
    exact (List.map_injective_iff.mpr (fun _ _ h => GetStreamingResponse.chunk.inj h) htail).symm
  have hpayload : payload (uploadOf bytes) = bytes ++ [4] := rfl
  rw [hone, hpayload] at hall
  have hlast := congrArg List.length hall
  simp at hlast

theorem get_serves_upload_afterwards : ∃ (σ₁ σ₂ : System) (sent : List Bytes),
    exec (systemStep smallConfig) (fun σ l => decide (PutsAndGets σ l)) (untilLookup 8) smallStart =
      some σ₁ ∧
    exec (systemStep smallConfig) (fun σ l => decide (PutsAndGets σ l)) fromLookup σ₁ = some σ₂ ∧
    σ₂.threads[1]? = some (.get downloadRequest (.finished (.returned GetStatus.ok)
      (.metadata (some 4) :: sent.map .chunk))) ∧ sent.flatten = [1, 2, 3, 4] := by
  let u : Upload := ⟨1, 1, uploadPath smallConfig 1, none⟩
  let ended : PutPc := .finished (some u) (.returned PutStatus.ok (some ⟨0, 1, 257⟩))
  obtain ⟨σ₁, hσ₁, hend⟩ := (Option.any_eq_true
    (fun σ₁ : System => σ₁.threads[1]?.bind Handler.download ==
        some (downloadRequest, .findHeld ⟨1, none, false⟩) &&
      σ₁.threads[0]?.bind Handler.uploading == some (twoChunks, ended) &&
      (exec (systemStep smallConfig) (fun σ l => decide (PutsAndGets σ l)) fromLookup σ₁).any
        fun σ₂ => σ₂.threads[1]?.bind Handler.download ==
          some (downloadRequest, .finished (.returned GetStatus.ok)
            [.metadata (some 4), .chunk [1, 2], .chunk [3, 4]]) &&
        σ₂.threads[0]?.bind Handler.uploading == some (twoChunks, ended)) _).mp
    (by decide : (exec (systemStep smallConfig) (fun σ l => decide (PutsAndGets σ l))
      (untilLookup 8) smallStart).any _ = true)
  simp only [Bool.and_eq_true, beq_iff_eq] at hend
  obtain ⟨⟨hlookup, hended⟩, hrest⟩ := hend
  obtain ⟨σ₂, hσ₂, hlast⟩ := (Option.any_eq_true _ _).mp hrest
  simp only [Bool.and_eq_true, beq_iff_eq] at hlast
  obtain ⟨n, sent, hwritten, _, hexact⟩ := get_serves_upload (u := u)
    (by decide : 1 ≤ smallConfig.streamChunkSize) smallStart_initial (.of_exec hσ₁ fun _ _ _ hc => of_decide_eq_true hc)
    (eq_get_of_download hlookup) (.of_exec hσ₂ fun _ _ _ hc => of_decide_eq_true hc)
    (eq_get_of_download hlast.1) rfl (eq_put_of_uploading hlast.2) rfl rfl
  obtain ⟨rfl, hsent⟩ := (hexact _ (eq_put_of_uploading hended)).2 rfl
  exact ⟨σ₁, σ₂, sent, hσ₁, hσ₂, hwritten ▸ eq_get_of_download hlast.1, hsent⟩

end BlobRelay
