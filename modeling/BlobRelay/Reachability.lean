import BlobRelay.Steps

/-! # The invariant of the running service

Each upload in progress names its own blob: an id already issued, the path made
from it, entries of that id only in its session, and an inode no other name
shows. `Inv` is kept by every step of every handler and of the environment. -/

namespace BlobRelay
open Foundation Foundation.FileStore

def PutPc.upload : PutPc → Option Upload
  | .called => none
  | .located _ _ _ => none
  | .created u _ => some u
  | .receiving u _ _ _ => some u
  | .exhausted u => some u
  | .received u _ => some u
  | .tagging u => some u
  | .finished u _ => u

def Handler.upload : Handler → Option Upload
  | .put _ pc => pc.upload
  | _ => none

def Handler.handle : Handler → Option (Upload × OutStream)
  | .put _ (.receiving u out _ _) => some (u, out)
  | _ => none

structure UploadInv (cfg : Config) (w : World) (u : Upload) : Prop where
  path : u.path = uploadPath cfg u.blobId
  issued : 1 ≤ u.blobId ∧ u.blobId ≤ w.manager.blobId
  owned : ∀ s e, w.manager.Entry s u.blobId e → s = u.session ∧ e.1 = u.path

/-- The stream's inode shows at most at the upload's own path. -/
structure HandleInv (w : World) (u : Upload) (out : OutStream) : Prop where
  inUse : out.ino < w.files.next
  ownName : ∀ q, w.files.names q = some (.regular out.ino) → q = u.path

structure ThreadInv (cfg : Config) (w : World) (h : Handler) : Prop where
  upload : ∀ u, h.upload = some u → UploadInv cfg w u
  handle : ∀ u out, h.handle = some (u, out) → HandleInv w u out

def Distinct (h h' : Handler) : Prop :=
  ∀ u u', h.upload = some u → h'.upload = some u' → u.blobId ≠ u'.blobId

def Inv (cfg : Config) (σ : System) : Prop :=
  Pool.Holds (WorldInv cfg) (ThreadInv cfg) Distinct σ

variable {cfg : Config} {w w' : World}

theorem Distinct.symm {h h' : Handler} (hd : Distinct h h') : Distinct h' h :=
  fun u u' hu hu' he => hd u' u hu' hu he.symm

/-! ### The other handlers -/

theorem UploadInv.evolves {u : Upload} (hu : UploadInv cfg w u) (h : Evolves w w') :
    UploadInv cfg w' u := by
  refine ⟨hu.path, ⟨hu.issued.1, hu.issued.2.trans h.blobId⟩, fun s e he => ?_⟩
  rcases h.entry s u.blobId e he with ⟨e₀, he₀, hpath⟩ | hlt
  · obtain ⟨hs, hp⟩ := hu.owned s e₀ he₀
    exact ⟨hs, hpath.trans hp⟩
  · have hle := hu.issued.2
    omega

theorem HandleInv.evolves {u : Upload} {out : OutStream} (hu : HandleInv w u out)
    (h : Evolves w w') : HandleInv w' u out := by
  refine ⟨lt_of_lt_of_le hu.inUse h.next, fun q hq => ?_⟩
  rcases h.names q out.ino hq with hold | hle
  · exact hu.ownName q hold
  · have hlt := hu.inUse
    omega

theorem ThreadInv.evolves {t : Handler} (ht : ThreadInv cfg w t) (h : Evolves w w') :
    ThreadInv cfg w' t :=
  ⟨fun u hu => (ht.upload u hu).evolves h, fun u out hu => (ht.handle u out hu).evolves h⟩

theorem ThreadInv.of_none {t : Handler} (hu : t.upload = none) (hh : t.handle = none) :
    ThreadInv cfg w t :=
  ⟨fun u h => by simp [hu] at h, fun u out h => by simp [hh] at h⟩

theorem ThreadInv.of_upload {messages : List PutStreamingRequest} {pc : PutPc} {u : Upload}
    (hu : UploadInv cfg w u) (hpc : ∀ u', pc.upload = some u' → u' = u)
    (hh : (Handler.put messages pc).handle = none) : ThreadInv cfg w (.put messages pc) :=
  ⟨fun u' h => hpc u' h ▸ hu, fun u' out h => by simp [hh] at h⟩

/-! ### The handler that moves -/

/-- The upload a step of `Put` leaves is the one it found, or a new one with the
next id. -/
theorem putStepped_upload {f : Fault} {messages : List PutStreamingRequest} {pc pc' : PutPc}
    (h : PutStepped cfg f messages w pc w' pc') {u : Upload} (hu : pc'.upload = some u) :
    pc.upload = some u ∨
      (u.blobId = add64 w.manager.blobId 1 ∧ w'.manager.blobId = u.blobId) := by
  cases h with
  | created hreg =>
    cases hu
    exact Or.inr ⟨hreg.id, hreg.blobId⟩
  | rejected => cases hu
  | located => cases hu
  | _ => exact Or.inl hu

theorem putStepped_safe {f : Fault} {messages : List PutStreamingRequest} {pc pc' : PutPc}
    (h : PutStepped cfg f messages w pc w' pc') (hroom : Room w w') (hw : WorldInv cfg w)
    (ht : ThreadInv cfg w (.put messages pc)) :
    Safe cfg w w' ∧ ThreadInv cfg w' (.put messages pc') := by
  -- a step that keeps its upload only has to show that the world evolves
  have hkeep : ∀ {u : Upload} {w₁ : World} {q : PutPc}, pc.upload = some u → Safe cfg w w₁ →
      q.upload = some u → (Handler.put messages q).handle = none →
      Safe cfg w w₁ ∧ ThreadInv cfg w₁ (.put messages q) := by
    intro u w₁ q hu hs hq hh
    refine ⟨hs, .of_upload ((ht.upload u hu).evolves hs.evolves) (fun u' h => ?_) hh⟩
    exact Option.some.inj (h.symm.trans hq)
  cases h with
  | rejected => exact ⟨.refl cfg w, .of_none rfl rfl⟩
  | located => exact ⟨.refl cfg w, .of_none rfl rfl⟩
  | @created s b blobSizeOpt rest _ hreg =>
    have hlt := hroom.of_registers hreg
    have hid : b = w.manager.blobId + 1 := hreg.id.trans (add64_of_lt hlt)
    have hb := hreg.blobId
    have hu : UploadInv cfg w' ⟨s, b, uploadPath cfg b, blobSizeOpt⟩ := by
      refine ⟨rfl, ⟨by dsimp only; omega, by dsimp only; omega⟩, fun r e he => ?_⟩
      rcases (hreg.entry r b e).mp he with hold | ⟨hr, _, rfl, _⟩
      · have hle := hw.blobIds r b e hold
        omega
      · exact ⟨hr, rfl⟩
    exact ⟨safe_registers hlt hreg, .of_upload hu (fun u' h => (Option.some.inj h).symm) rfl⟩
  | cannotOpen => exact hkeep rfl (.refl cfg w) rfl rfl
  | @opened u rest i fs hopen =>
    have hu := ht.upload u rfl
    have hs : Safe cfg w {w with files := fs} := by
      refine safe_openWrite hopen fun k hk => ?_
      have hkb : u.blobId = k := uploadPath_injective cfg (hu.path.symm.trans hk)
      exact hkb ▸ hu.issued
    obtain ⟨hname, _, _⟩ := FileSystem.openWrite_self hopen
    refine ⟨hs, fun u' h => ?_, fun u' out h => ?_⟩
    · cases h
      exact hu.evolves hs.evolves
    · cases h
      exact ⟨fs.bounded _ _ hname, fun q hq => fs.linkedOnce q _ i hq hname⟩
  | @closed u out n => exact hkeep rfl (safe_close out _) rfl rfl
  | @charged u out n bytes rest e w₁ hch =>
    have hs : Safe cfg w {w₁ with files := (out.write f.writes bytes w₁.files).2} :=
      (safe_charges hch).trans (safe_write out f.writes bytes)
    refine ⟨hs, fun u' h => ?_, fun u' out' h => ?_⟩
    · cases h
      exact (ht.upload u rfl).evolves hs.evolves
    · cases h
      have hh := (ht.handle u out rfl).evolves hs.evolves
      exact ⟨by simpa using hh.inUse, fun q hq => hh.ownName q (by simpa using hq)⟩
  | @refused u out => exact hkeep rfl (safe_close out _) rfl rfl
  | @lost u out =>
    exact hkeep rfl ((safe_counter reserve_lt).trans (safe_close out _)) rfl rfl
  | @notChunk u out => exact hkeep rfl (safe_close out _) rfl rfl
  | deletedNothing => exact hkeep rfl (.refl cfg w) rfl rfl
  | deleted her => exact hkeep rfl (safe_erases her) rfl rfl
  | deleteFails => exact hkeep rfl (safe_counter release_lt) rfl rfl
  | mismatchFails => exact hkeep rfl (.refl cfg w) rfl rfl
  | @mismatch u => exact hkeep rfl (safe_unlink u.path) rfl rfl
  | accepted => exact hkeep rfl (.refl cfg w) rfl rfl
  | answered => exact hkeep rfl (.refl cfg w) rfl rfl

theorem safe_deleteStepped {f : Fault} {s : ℕ} {b : Option ℕ}
    (h : DeleteStepped cfg f w s b w') : Safe cfg w w' := by
  cases h with
  | same => exact .refl cfg w
  | deleted her => exact safe_erases her
  | deleteFails => exact safe_counter release_lt

theorem handlerStep_safe {f : Fault} {t t' : Handler} (h : handlerStep cfg f w t = some (w', t'))
    (hroom : Room w w') (hw : WorldInv cfg w) (ht : ThreadInv cfg w t) :
    Safe cfg w w' ∧ ThreadInv cfg w' t' := by
  cases t with
  | put messages pc =>
    obtain ⟨pc', rfl, hstep⟩ := handlerStep_put h
    exact putStepped_safe hstep hroom hw ht
  | get request pc =>
    obtain ⟨rfl, pc', rfl, _⟩ := handlerStep_get h
    exact ⟨.refl cfg _, .of_none rfl rfl⟩
  | remove s ids pc =>
    obtain ⟨⟨pc', rfl⟩, hstep⟩ := handlerStep_remove h
    exact ⟨safe_deleteStepped hstep, .of_none rfl rfl⟩
  | dispose s pc =>
    obtain ⟨⟨pc', rfl⟩, hstep⟩ := handlerStep_dispose h
    refine ⟨?_, .of_none rfl rfl⟩
    rcases hstep with ⟨_, hstep⟩ | ⟨_, _, rfl⟩
    · exact safe_deleteStepped hstep
    · exact safe_dispose s

theorem handlerStep_upload {f : Fault} {t t' : Handler}
    (h : handlerStep cfg f w t = some (w', t')) {u : Upload} (hu : t'.upload = some u) :
    t.upload = some u ∨
      (u.blobId = add64 w.manager.blobId 1 ∧ w'.manager.blobId = u.blobId) := by
  cases t with
  | put messages pc =>
    obtain ⟨pc', rfl, hstep⟩ := handlerStep_put h
    exact putStepped_upload hstep hu
  | get request pc =>
    obtain ⟨_, pc', rfl, _⟩ := handlerStep_get h
    cases hu
  | remove s ids pc =>
    obtain ⟨⟨pc', rfl⟩, _⟩ := handlerStep_remove h
    cases hu
  | dispose s pc =>
    obtain ⟨⟨pc', rfl⟩, _⟩ := handlerStep_dispose h
    cases hu

theorem envStep_safe {e : EnvAction} (h : envStep cfg e w = some w') (hroom : Room w w') :
    Safe cfg w w' := by
  cases e with
  | createSession t =>
    cases h
    exact safe_createSession (hroom.of_sessionId rfl) t
  | add s path =>
    obtain ⟨⟨r, w₁⟩, hr, he⟩ := Option.map_eq_some_iff.mp h
    cases he
    cases r with
    | ok b =>
      have hreg := (World.add_ok hr).2
      exact safe_registers (hroom.of_registers hreg) hreg
    | error x =>
      obtain ⟨_, rfl⟩ := World.add_error hr
      exact safe_getNewBlobId (hroom.of_blobId rfl)
  | outsideWrite path bytes => exact safe_outsideWrite h
  | outsideDelete path =>
    cases h
    exact safe_unlink path

/-! ### Every reachable state -/

theorem Call.start_upload (c : Call) : c.start.upload = none := by
  cases c <;> rfl

theorem Call.start_handle (c : Call) : c.start.handle = none := by
  cases c <;> rfl

theorem inv_step {σ σ' : System} {l : SystemMove} (hroom : Room σ.shared σ'.shared) (hσ : Inv cfg σ)
    (h : systemStep cfg l σ = some σ') : Safe cfg σ.shared σ'.shared ∧ Inv cfg σ' := by
  cases l with
  | env e =>
    obtain ⟨w₁, hw, rfl⟩ := Pool.step_env h
    have hs := envStep_safe hw hroom
    exact ⟨hs, hσ.of_env (hs.inv hσ.shared) fun i t ht => (hσ.thread i t ht).evolves hs.evolves⟩
  | call c =>
    obtain rfl := Pool.step_call h
    refine ⟨.refl cfg _, hσ.of_call (.of_none c.start_upload c.start_handle) fun i u _ => ⟨?_, ?_⟩⟩
    · intro v v' hv
      simp [c.start_upload] at hv
    · intro v v' _ hv
      simp [c.start_upload] at hv
  | run i f =>
    obtain ⟨t, w₁, t', ht, hstep, rfl⟩ := Pool.step_run h
    obtain ⟨hs, ht'⟩ := handlerStep_safe hstep hroom hσ.shared (hσ.thread i t ht)
    refine ⟨hs, hσ.of_run (hs.inv hσ.shared) ht' fun j u hj hu => ?_⟩
    have hd : Distinct t' u := by
      intro v v' hv hv' heq
      rcases handlerStep_upload hstep hv with hold | ⟨hnew, hid⟩
      · exact hσ.pair i j t u (Ne.symm hj) ht hu v v' hold hv' heq
      · have hle := ((hσ.thread j u hu).upload v' hv').issued.2
        rw [add64_of_lt (hroom.of_blobId (hid.trans hnew))] at hnew
        omega
    exact ⟨(hσ.thread j u hu).evolves hs.evolves, hd, hd.symm⟩

theorem constructStore_uploads {fs fs' : Files} {stuck : Option Path}
    (h : constructStore cfg.directory stuck fs = .ok fs') (k : ℕ) :
    fs'.names (uploadPath cfg k) = none := by
  unfold constructStore at h
  split at h
  · cases h
  · split at h
    · split at h
      · cases h
      · cases h
        simp [FileSystem.unlinkAll, uploadPath_inDirectory]
    · cases h
  · cases h

theorem inv_initial {σ : System} (h : Initial cfg σ) : Inv cfg σ := by
  obtain ⟨⟨hm, fs, hfs⟩, ht⟩ := h
  have hnoEntry : ∀ s b e, ¬ σ.shared.manager.Entry s b e := by
    rintro s b e ⟨impl, hs, _⟩
    simp [hm, BlobSessionManager.empty] at hs
  refine ⟨⟨?_, ?_, ?_, ?_, ?_, ?_, ?_, ?_⟩, ?_, ?_⟩
  · rintro s ⟨impl, hs⟩
    simp [hm, BlobSessionManager.empty] at hs
  · exact fun s b e he => absurd he (hnoEntry s b e)
  · exact fun s r b e e' he _ => absurd he (hnoEntry s b e)
  · exact fun k hk => absurd (constructStore_uploads hfs k) hk
  · intro t s hs
    simp [hm, BlobSessionManager.empty] at hs
  · simp [hm, BlobSessionManager.empty]
  · simp [hm, BlobSessionManager.empty]
  · simp [hm, BlobSessionManager.empty]
  · intro i t hi
    simp [ht] at hi
  · intro i j t u _ hi
    simp [ht] at hi

theorem inv_run {ok : System → SystemMove → Prop} (hok : ∀ σ l, ok σ l → Headroom σ.shared)
    {σ σ' : System} {ls : List SystemMove} (h : Run (systemStep cfg) ok σ ls σ')
    (hσ : Inv cfg σ) : Inv cfg σ' :=
  h.invariant (Inv cfg) (fun _ _ _ hi ho hs => (inv_step ((hok _ _ ho).room _) hi hs).2) hσ

theorem Reachable.inv {σ : System} (h : Reachable cfg σ) : Inv cfg σ := by
  obtain ⟨_, σ₀, ls, h₀, hrun⟩ := h
  exact inv_run (fun _ _ ho => ho) hrun (inv_initial h₀)

theorem Reachable.world {σ : System} (h : Reachable cfg σ) : WorldInv cfg σ.shared := h.inv.shared

end BlobRelay
