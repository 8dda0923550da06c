import BlobRelay.Persistence
import BlobRelay.Reception

/-! # The file of an upload, at every step of its `Put`

While uploads and downloads run and nobody deletes, the file at an upload's path
holds what its `Put` has written so far, and after the `Put` has ended what its
outcome says. -/

namespace BlobRelay
open Foundation Foundation.FileStore

/-- What the chunk messages of a stream carry, in order. -/
def payload : List PutStreamingRequest → Bytes
  | [] => []
  | .chunk bytes :: rest => bytes ++ payload rest
  | .metadata _ :: rest => payload rest
  | .unset :: rest => payload rest

/-- The failing exits of `Put` that leave no file: it was not opened, or removed. -/
def PutOutcome.NoFile (o : PutOutcome) : Prop :=
  o = .returned PutStatus.cannotOpen none ∨ o = .returned PutStatus.exhausted none ∨
    o = .returned PutStatus.sizeMismatch none

/-- What there is at an upload's path: never more than the client sends, all of it
when the upload is `whole`, nothing when it is `gone`. -/
structure UploadFile (w : World) (u : Upload) (bytes : Bytes) (whole gone : Prop) : Prop where
  start : ∀ bs, w.files.contents u.path = some bs → bs <+: bytes
  whole : whole → w.files.contents u.path = some bytes
  gone : gone → w.files.names u.path = none

def Registered (w : World) (u : Upload) : Prop :=
  ∃ n, w.manager.Entry u.session u.blobId (u.path, n)

/-- The upload's file against the messages read so far. -/
def PutFile (w : World) (messages : List PutStreamingRequest) : PutPc → Prop
  | .called => True
  | .located _ _ rest => payload messages = payload rest
  | .created u rest =>
    w.files.names u.path = none ∧ Registered w u ∧ payload messages = payload rest
  | .receiving u out _ rest =>
    out.good = true ∧ w.files.names u.path = some (.regular out.ino) ∧ Registered w u ∧
      ∃ bs, w.files.contents u.path = some bs ∧ payload messages = bs ++ payload rest
  | .exhausted u =>
    Registered w u ∧ ∃ bs, w.files.contents u.path = some bs ∧ bs <+: payload messages
  | .received u _ => w.files.contents u.path = some (payload messages)
  | .tagging u => w.files.contents u.path = some (payload messages)
  | .finished (some u) o => UploadFile w u (payload messages) o.IsOk o.NoFile
  | .finished none _ => True

/-- Outcomes of a step in which nothing is deleted, every write reaches its file
and every file opens for reading. -/
def Handler.transfers (f : Fault) : Handler → Bool
  | .put _ _ => f.writes.isNone
  | .get _ _ => f ≠ .openFails
  | _ => false

def EnvAction.deletes : EnvAction → Bool
  | .outsideDelete _ => true
  | _ => false

/-- Steps of uploads and downloads, and of an outside party that deletes nothing. -/
def PutsAndGets (σ : System) (l : SystemMove) : Prop :=
  Headroom σ.shared ∧
    match l with
    | .env a => a.deletes = false
    | .call _ => True
    | .run i f => ∀ t ∈ σ.threads[i]?, t.transfers f = true

instance (σ : System) : ∀ l, Decidable (PutsAndGets σ l)
  | .env a => inferInstanceAs (Decidable (_ ∧ a.deletes = false))
  | .call _ => inferInstanceAs (Decidable (_ ∧ True))
  | .run i f => inferInstanceAs (Decidable (_ ∧ ∀ t ∈ σ.threads[i]?, t.transfers f = true))

variable {cfg : Config} {f : Fault} {messages : List PutStreamingRequest} {w w' : World}
  {t t' : Handler} {u : Upload}

theorem payload_nil_append {bs : Bytes} (h : payload messages = bs ++ payload []) :
    payload messages = bs := by
  rw [h, payload, List.append_nil]

theorem Registered.kept (h : Registered w u)
    (hk : ∀ e, w.manager.Entry u.session u.blobId e → Kept w'.manager u.session u.blobId e) :
    Registered w' u := by
  obtain ⟨n, he⟩ := h
  exact hk _ he

/-! ### The other uploads -/

theorem UploadFile.same {bytes : Bytes} {whole gone : Prop} (h : UploadFile w u bytes whole gone)
    (hsame : w.files.SameAt w'.files u.path) : UploadFile w' u bytes whole gone :=
  ⟨fun bs hbs => h.start bs (hsame.2 ▸ hbs), fun hw => hsame.2.trans (h.whole hw),
    fun hg => hsame.1.trans (h.gone hg)⟩

theorem PutFile.same {pc : PutPc} (h : PutFile w messages pc)
    (hsame : ∀ u, pc.upload = some u → w.files.SameAt w'.files u.path)
    (hkept : ∀ u, pc.upload = some u → Registered w u → Registered w' u) :
    PutFile w' messages pc := by
  cases pc with
  | called => trivial
  | located s blobSizeOpt rest => exact h
  | created u rest =>
    obtain ⟨hname, hreg, hpay⟩ := h
    exact ⟨(hsame u rfl).1.trans hname, hkept u rfl hreg, hpay⟩
  | receiving u out n rest =>
    obtain ⟨hgood, hname, hreg, bs, hbs, hpay⟩ := h
    exact ⟨hgood, (hsame u rfl).1.trans hname, hkept u rfl hreg, bs, (hsame u rfl).2.trans hbs, hpay⟩
  | exhausted u =>
    obtain ⟨hreg, bs, hbs, hpay⟩ := h
    exact ⟨hkept u rfl hreg, bs, (hsame u rfl).2.trans hbs, hpay⟩
  | received u n => exact (hsame u rfl).2.trans h
  | tagging u => exact (hsame u rfl).2.trans h
  | finished v o =>
    cases v with
    | none => trivial
    | some u => exact UploadFile.same h (hsame u rfl)

/-- Whatever is at an upload's path is the beginning of what its client sends. -/
theorem PutFile.written {pc : PutPc} {bs : Bytes} (h : PutFile w messages pc)
    (hu : pc.upload = some u) (hbs : w.files.contents u.path = some bs) : bs <+: payload messages := by
  cases pc with
  | called => cases hu
  | located s blobSizeOpt rest => cases hu
  | created v rest =>
    cases hu
    rw [FileSystem.contents_absent h.1] at hbs
    cases hbs
  | receiving v out n rest =>
    cases hu
    obtain ⟨_, _, _, bs', hbs', hpay⟩ := h
    obtain rfl := Option.some.inj (hbs.symm.trans hbs')
    exact ⟨_, hpay.symm⟩
  | exhausted v =>
    cases hu
    obtain ⟨_, bs', hbs', hpre⟩ := h
    obtain rfl := Option.some.inj (hbs.symm.trans hbs')
    exact hpre
  | received v n =>
    cases hu
    exact Option.some.inj (hbs.symm.trans h) ▸ List.prefix_rfl
  | tagging v =>
    cases hu
    exact Option.some.inj (hbs.symm.trans h) ▸ List.prefix_rfl
  | finished v o =>
    cases hu
    exact UploadFile.start h bs hbs

/-! ### The upload that moves -/

theorem uploadFile_failed {bs bytes : Bytes} {o : PutOutcome} (ho : ¬ o.IsOk) (hno : ¬ o.NoFile)
    (hbs : w.files.contents u.path = some bs) (hpre : bs <+: bytes) :
    UploadFile w u bytes o.IsOk o.NoFile :=
  ⟨fun _ h => Option.some.inj (hbs.symm.trans h) ▸ hpre, fun h => absurd h ho,
    fun h => absurd h hno⟩

theorem uploadFile_absent {bytes : Bytes} {o : PutOutcome} (ho : ¬ o.IsOk)
    (hname : w.files.names u.path = none) : UploadFile w u bytes o.IsOk o.NoFile := by
  refine ⟨fun bs h => ?_, fun h => absurd h ho, fun _ => hname⟩
  rw [FileSystem.contents_absent hname] at h
  cases h

theorem putCatch_failed (e : Exn) : ¬ (putCatch e).IsOk ∧ ¬ (putCatch e).NoFile := by
  cases e with
  | outOfRange what =>
    simp [putCatch, PutOutcome.IsOk, PutOutcome.NoFile, PutStatus.cannotOpen, PutStatus.exhausted,
      PutStatus.sizeMismatch]
  | _ => simp [putCatch, PutOutcome.IsOk, PutOutcome.NoFile]

theorem uploadFile_answered {bytes : Bytes} {s b : ℕ} (h : w.files.contents u.path = some bytes) :
    UploadFile w u bytes (putResponse cfg s b).IsOk (putResponse cfg s b).NoFile := by
  refine ⟨fun bs hbs => Option.some.inj (h.symm.trans hbs) ▸ List.prefix_rfl, fun _ => h,
    fun hno => ?_⟩
  rcases putResponse_cases cfg s b with ⟨tag, _, hr⟩ | ⟨what, hr⟩ <;> rw [hr] at hno <;>
    simp [PutOutcome.NoFile] at hno

theorem close_none {out : OutStream} {fs : Files} (hf : f.writes = none) :
    out.close f.writes fs = fs := by
  simp [OutStream.close, hf]

theorem putFile_putStepped {pc pc' : PutPc} (h : PutStepped cfg f messages w pc w' pc')
    (hf : f.writes = none) (hroom : Headroom w) (hw : WorldInv cfg w)
    (hfile : PutFile w messages pc) : PutFile w' messages pc' := by
  cases h with
  | rejected => trivial
  | located hm => rw [hm]; rfl
  | @created s b blobSizeOpt rest _ hreg =>
    have hid : b = w.manager.blobId + 1 := hreg.id.trans (add64_of_lt hroom.1)
    refine ⟨?_, ⟨0, ?_⟩, hfile⟩
    · rw [hreg.files]
      by_contra hne
      have hle := (hw.uploads b hne).2
      omega
    · refine (hreg.entry _ _ _).mpr (Or.inr ⟨rfl, rfl, rfl, fun ⟨e, he⟩ => ?_⟩)
      have hle := (hw.blobIds s b e he).2
      omega
  | cannotOpen => exact uploadFile_absent (by simp [PutOutcome.IsOk, PutStatus.cannotOpen]) hfile.1
  | opened hopen =>
    obtain ⟨_, hreg, hpay⟩ := hfile
    obtain ⟨hname, hdata, _⟩ := FileSystem.openWrite_self hopen
    refine ⟨rfl, hname, hreg, [], ?_, hpay⟩
    rw [FileSystem.contents_of_regular hname, hdata]
  | closed =>
    obtain ⟨_, _, _, bs, hbs, hpay⟩ := hfile
    rw [close_none hf]
    have hall : w.files.contents _ = some (payload messages) :=
      hbs.trans (congrArg some (payload_nil_append hpay).symm)
    exact hall
  | @charged u out n bytes rest e w₁ hch =>
    obtain ⟨hgood, hname, hreg, bs, hbs, hpay⟩ := hfile
    have hwrite : out.write f.writes bytes w₁.files = (out, w₁.files.append out.ino bytes) := by
      simp [OutStream.write, hgood, hf]
    have hkept : Registered w₁ u := hreg.kept fun e he => kept_charges hch he
    rw [hwrite, hch.files]
    refine ⟨hgood, hname, hkept, bs ++ bytes, ?_, ?_⟩
    · rw [FileSystem.contents_of_regular hname] at hbs
      rw [FileSystem.contents_of_regular (by exact hname), FileSystem.data_append_self,
        Option.some.inj hbs]
    · rw [hpay, payload, List.append_assoc]
  | refused =>
    obtain ⟨_, _, hreg, bs, hbs, hpay⟩ := hfile
    rw [close_none hf]
    exact ⟨hreg, bs, hbs, _, hpay.symm⟩
  | lost _ hgone =>
    obtain ⟨n, he⟩ := hfile.2.2.1
    exact absurd he (hgone _)
  | notChunk =>
    obtain ⟨_, _, _, bs, hbs, hpay⟩ := hfile
    rw [close_none hf]
    exact uploadFile_failed (by simp [PutOutcome.IsOk, PutStatus.notChunk])
      (by simp [PutOutcome.NoFile, PutStatus.notChunk, PutStatus.cannotOpen, PutStatus.exhausted,
        PutStatus.sizeMismatch]) hbs ⟨_, hpay.symm⟩
  | deletedNothing _ hgone =>
    obtain ⟨n, he⟩ := hfile.1
    exact absurd he (hgone _)
  | @deleted u e _ her =>
    obtain ⟨n, he⟩ := hfile.1
    refine uploadFile_absent (by simp [PutOutcome.IsOk, PutStatus.exhausted]) ?_
    rw [her.names, if_pos (congrArg Prod.fst (he.unique her.found))]
  | @deleteFails u e x =>
    obtain ⟨_, bs, hbs, hpre⟩ := hfile
    obtain ⟨hok, hno⟩ := putCatch_failed x
    exact uploadFile_failed hok hno hbs hpre
  | mismatchFails =>
    exact uploadFile_failed (by simp [PutOutcome.IsOk]) (by simp [PutOutcome.NoFile]) hfile
      List.prefix_rfl
  | mismatch =>
    exact uploadFile_absent (by simp [PutOutcome.IsOk, PutStatus.sizeMismatch])
      (FileSystem.names_unlink_self _ _)
  | accepted => exact hfile
  | answered => exact uploadFile_answered hfile

/-! ### Every run of uploads and downloads -/

/-- The file of each upload is as `PutFile` says. -/
structure FilesInv (cfg : Config) (σ : System) : Prop where
  inv : Inv cfg σ
  files : ∀ (i : ℕ) messages pc, σ.threads[i]? = some (.put messages pc) →
    PutFile σ.shared messages pc

theorem Handler.deletes_of_transfers {d : ℕ × ℕ} (h : t.transfers f = true)
    (hd : t.deletes = some d) : ∃ u, t.upload = some u ∧ d = (u.session, u.blobId) := by
  cases t with
  | put messages pc =>
    cases pc with
    | exhausted u => exact ⟨u, rfl, (Option.some.inj hd).symm⟩
    | _ => cases hd
  | get request pc => cases hd
  | remove s ids pc => cases h
  | dispose s pc => cases h

theorem Handler.erases_of_transfers (h : t.transfers f = true) : t.erases = none := by
  cases t with
  | dispose s pc => cases h
  | _ => rfl

theorem transfer_others (hstep : handlerStep cfg f w t = some (w', t'))
    (htr : t.transfers f = true) (ht : ThreadInv cfg w t) (hu : UploadInv cfg w u)
    (hother : ∀ v, t.upload = some v → v.blobId ≠ u.blobId) :
    w.files.SameAt w'.files u.path ∧ (Registered w u → Registered w' u) := by
  have hpath : ∀ v, t.upload = some v → v.path ≠ u.path := fun v hv hp =>
    hother v hv (uploadPath_injective cfg ((ht.upload v hv).path.symm.trans (hp.trans hu.path)))
  constructor
  · refine sameAt_handlerStep hstep ht hpath fun s b d hd hsb => ?_
    obtain ⟨v, hv, hsv⟩ := Handler.deletes_of_transfers htr hd
    cases hsv
    rw [((ht.upload v hv).owned _ _ hsb).2]
    exact hpath v hv
  · refine fun hreg => hreg.kept fun e he => kept_handlerStep hstep ?_ (fun hd => ?_) he
    · rw [Handler.erases_of_transfers htr]
      exact nofun
    · obtain ⟨v, hv, hsv⟩ := Handler.deletes_of_transfers htr hd
      exact hother v hv (Prod.mk.inj hsv).2.symm

theorem filesInv_step {σ σ' : System} {l : SystemMove} (hσ : FilesInv cfg σ)
    (hok : PutsAndGets σ l) (h : systemStep cfg l σ = some σ') : FilesInv cfg σ' := by
  obtain ⟨hroom, hmove⟩ := hok
  refine ⟨(inv_step (hroom.room _) hσ.inv h).2, fun j messages pc hj => ?_⟩
  cases l with
  | env a =>
    obtain ⟨w₁, hw, rfl⟩ := Pool.step_env h
    refine (hσ.files j messages pc hj).same (fun u hu => ?_) fun u hu hreg =>
      hreg.kept fun e he => kept_envStep hw he
    rw [((hσ.inv.thread j _ hj).upload u hu).path]
    refine sameAt_envStep hw (uploadPath_inDirectory cfg _) ?_
    rintro rfl
    cases hmove
  | call c =>
    obtain rfl := Pool.step_call h
    rcases Pool.getElem_snoc hj with ⟨_, hc⟩ | ⟨_, hj⟩
    · cases c with
      | put ms =>
        cases hc
        trivial
      | _ => cases hc
    · exact hσ.files j messages pc hj
  | run i f =>
    obtain ⟨t, w₁, t', ht, hstep, rfl⟩ := Pool.step_run h
    have htr := hmove t ht
    rcases Pool.getElem_set hj with ⟨_, rfl⟩ | ⟨hji, hj⟩
    · cases t with
      | put ms pc₀ =>
        obtain ⟨pc', heq, hput⟩ := handlerStep_put hstep
        cases heq
        exact putFile_putStepped hput (Option.isNone_iff_eq_none.mp htr) hroom hσ.inv.shared
          (hσ.files i messages pc₀ ht)
      | get request pc₀ =>
        obtain ⟨_, _, heq, _⟩ := handlerStep_get hstep
        cases heq
      | remove s ids pc₀ => cases htr
      | dispose s pc₀ => cases htr
    · have hpair : ∀ u, pc.upload = some u → σ.shared.files.SameAt w₁.files u.path ∧
          (Registered σ.shared u → Registered w₁ u) := fun u hu =>
        transfer_others hstep htr (hσ.inv.thread i t ht) ((hσ.inv.thread j _ hj).upload u hu)
          fun v hv => hσ.inv.pair i j t _ (Ne.symm hji) ht hj v u hv hu
      exact (hσ.files j messages pc hj).same (fun u hu => (hpair u hu).1)
        fun u hu => (hpair u hu).2

theorem filesInv_initial {σ : System} (h : Initial cfg σ) : FilesInv cfg σ :=
  ⟨inv_initial h, fun i messages pc hi => by simp [h.2] at hi⟩

theorem filesInv_run {σ σ' : System} {ls : List SystemMove} (hσ : FilesInv cfg σ)
    (hrun : Run (systemStep cfg) PutsAndGets σ ls σ') : FilesInv cfg σ' :=
  hrun.invariant _ (fun _ _ _ hi ho hs => filesInv_step hi ho hs) hσ

end BlobRelay
