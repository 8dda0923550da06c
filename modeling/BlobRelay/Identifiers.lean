import BlobRelay.SessionIndex
import BlobRelay.Tags

/-! # Identifiers are not used twice

What a run issues (session ids, blob ids, paths of upload files) and what it takes
back (disposed sessions, removed blobs), observed step by step. The ids issued are
the counters' values in turn, and what was taken back does not return. -/

namespace BlobRelay
open Foundation Foundation.FileStore

/-! ### What a move issues and takes back -/

def sessionsIssued (σ : System) : SystemMove → List ℕ
  | .env (.createSession t) => [(σ.shared.manager.createSession t).1]
  | _ => []

/-- The session in which the handler's next step registers a new upload file. -/
def Handler.registers : Handler → Option ℕ
  | .put _ (.located s _ _) => some s
  | _ => none

/-- What `create_blob_file` returns. -/
def filesIssued (cfg : Config) (σ : System) : SystemMove → List (ℕ × Path)
  | .run i _ =>
    (((σ.threads[i]?).bind Handler.registers).bind fun s =>
      (σ.shared.createBlobFile cfg s).map Prod.fst).toList
  | _ => []

/-- The ids taken from the counter; `add` takes one also when it throws. -/
def blobsIssued (cfg : Config) (σ : System) : SystemMove → List ℕ
  | .env (.add s path) =>
    (σ.shared.add cfg s path).toList.map fun _ => σ.shared.manager.getNewBlobId.1
  | l => (filesIssued cfg σ l).map Prod.fst

def pathsIssued (cfg : Config) (σ : System) (l : SystemMove) : List Path :=
  (filesIssued cfg σ l).map Prod.snd

def sessionsDisposed (σ : System) : SystemMove → List ℕ
  | .run i _ => ((σ.threads[i]?).bind Handler.erases).toList
  | _ => []

/-- The blob that `delete_blob_file` finds and erases. -/
def blobsRemoved (cfg : Config) (σ : System) : SystemMove → List ℕ
  | .run i f =>
    match (σ.threads[i]?).bind Handler.deletes with
    | some (s, b) =>
      match σ.shared.deleteBlobFile cfg s b f.deletes with
      | some (.ok (), _) => if (σ.shared.manager.pathOf s b).isSome then [b] else []
      | _ => []
    | none => []
  | _ => []

variable {cfg : Config} {f : Fault} {messages : List PutStreamingRequest} {w w' : World}
  {t t' : Handler} {σ σ' : System} {l : SystemMove}

/-! ### The counter of blob ids -/

theorem createBlobFile_fst {s : ℕ} (h : w.manager.Live s) :
    (w.createBlobFile cfg s).map Prod.fst =
      some (add64 w.manager.blobId 1, uploadPath cfg (add64 w.manager.blobId 1)) := by
  obtain ⟨impl, hs⟩ := h
  simp only [World.createBlobFile, hs, Option.map_some]
  rfl

theorem handlerStep_blobId (h : handlerStep cfg f w t = some (w', t')) :
    (t.registers = none ∧ w'.manager.blobId = w.manager.blobId) ∨
      ∃ s, t.registers = some s ∧ w.manager.Live s ∧
        w'.manager.blobId = add64 w.manager.blobId 1 := by
  have hdelete : ∀ {s : ℕ} {b : Option ℕ}, DeleteStepped cfg f w s b w' →
      w'.manager.blobId = w.manager.blobId := by
    intro s b hd
    cases hd with
    | same => rfl
    | deleted her => exact her.blobId
    | deleteFails => rfl
  cases t with
  | put messages pc =>
    obtain ⟨pc', rfl, hstep⟩ := handlerStep_put h
    cases hstep with
    | created hreg => exact Or.inr ⟨_, rfl, hreg.live, hreg.blobId.trans hreg.id⟩
    | charged hch => exact Or.inl ⟨rfl, hch.blobId⟩
    | deleted her => exact Or.inl ⟨rfl, her.blobId⟩
    | _ => exact Or.inl ⟨rfl, rfl⟩
  | get request pc =>
    obtain ⟨rfl, _⟩ := handlerStep_get h
    exact Or.inl ⟨rfl, rfl⟩
  | remove s ids pc =>
    obtain ⟨_, hstep⟩ := handlerStep_remove h
    exact Or.inl ⟨rfl, hdelete hstep⟩
  | dispose s pc =>
    obtain ⟨_, ⟨_, hstep⟩ | ⟨_, _, rfl⟩⟩ := handlerStep_dispose h
    · exact Or.inl ⟨rfl, hdelete hstep⟩
    · exact Or.inl ⟨rfl, BlobSessionManager.blobId_dispose⟩

theorem systemStep_blobId (h : systemStep cfg l σ = some σ') :
    (blobsIssued cfg σ l = [] ∧ σ'.shared.manager.blobId = σ.shared.manager.blobId) ∨
      (blobsIssued cfg σ l = [add64 σ.shared.manager.blobId 1] ∧
        σ'.shared.manager.blobId = add64 σ.shared.manager.blobId 1) := by
  cases l with
  | env a =>
    obtain ⟨w₁, hw, rfl⟩ := Pool.step_env h
    cases a with
    | createSession u =>
      cases hw
      exact Or.inl ⟨rfl, rfl⟩
    | add s path =>
      obtain ⟨⟨x, w₂⟩, hadd, he⟩ := Option.map_eq_some_iff.mp hw
      cases he
      refine Or.inr ⟨by simp only [blobsIssued, hadd]; rfl, ?_⟩
      cases x with
      | ok b =>
        have hreg := (World.add_ok hadd).2
        exact hreg.blobId.trans hreg.id
      | error x =>
        obtain ⟨_, rfl⟩ := World.add_error hadd
        rfl
    | outsideWrite path bytes =>
      simp only [envStep, outsideWrite] at hw
      split at hw
      · cases hw
      · obtain ⟨x, _, rfl⟩ := Option.map_eq_some_iff.mp hw
        exact Or.inl ⟨rfl, rfl⟩
    | outsideDelete path =>
      cases hw
      exact Or.inl ⟨rfl, rfl⟩
  | call c =>
    obtain rfl := Pool.step_call h
    exact Or.inl ⟨rfl, rfl⟩
  | run i f =>
    obtain ⟨t, w₁, t', ht, hstep, rfl⟩ := Pool.step_run h
    simp only [blobsIssued, filesIssued, ht, Option.bind_some]
    rcases handlerStep_blobId hstep with ⟨hnone, hid⟩ | ⟨s, hs, hl, hid⟩
    · exact Or.inl ⟨by rw [hnone]; rfl, hid⟩
    · refine Or.inr ⟨?_, hid⟩
      rw [hs, Option.bind_some, createBlobFile_fst hl]
      rfl

theorem systemStep_issues (h : systemStep cfg l σ = some σ') :
    (sessionsIssued σ l = [] ∧ σ'.shared.manager.sessionId = σ.shared.manager.sessionId) ∨
      (sessionsIssued σ l = [add64 σ.shared.manager.sessionId 1] ∧
        σ'.shared.manager.sessionId = add64 σ.shared.manager.sessionId 1) := by
  rcases systemStep_sessionId h with ⟨hc, hid⟩ | ⟨hc, hid⟩
  · refine Or.inl ⟨?_, hid⟩
    unfold sessionsIssued
    split
    · cases hc
    · rfl
  · refine Or.inr ⟨?_, hid⟩
    unfold createsSession at hc
    split at hc
    · rfl
    · cases hc

/-! ### Runs that issue fewer than 2^64 ids -/

/-- A move that issues an id finds its counter short of the end of 64 bits. -/
def InRange (cfg : Config) (σ : System) (l : SystemMove) : Prop :=
  (sessionsIssued σ l ≠ [] → σ.shared.manager.sessionId + 1 < 2^64) ∧
    (blobsIssued cfg σ l ≠ [] → σ.shared.manager.blobId + 1 < 2^64)

theorem InRange.room (hok : InRange cfg σ l) (h : systemStep cfg l σ = some σ') :
    Room σ.shared σ'.shared := by
  constructor
  · intro hne
    rcases systemStep_blobId h with ⟨_, hid⟩ | ⟨hissued, _⟩
    · exact absurd hid hne
    · exact hok.2 (by simp [hissued])
  · intro hne
    rcases systemStep_issues h with ⟨_, hid⟩ | ⟨hissued, _⟩
    · exact absurd hid hne
    · exact hok.1 (by simp [hissued])

/-- No file is at the path of an upload that has yet to open it. -/
def Unopened (σ : System) : Prop :=
  ∀ (i : ℕ) messages u rest, σ.threads[i]? = some (.put messages (.created u rest)) →
    σ.shared.files.names u.path = none

/-- Only the handler whose upload has this path brings a file to it. -/
theorem absent_handlerStep {p : Path} (h : handlerStep cfg f w t = some (w', t'))
    (hown : ∀ u, t.upload = some u → u.path ≠ p) (hp : w.files.names p = none) :
    w'.files.names p = none := by
  have herases : ∀ {s b : ℕ} {e : Path × ℕ}, World.Erases cfg s b e w w' →
      w'.files.names p = none := by
    intro s b e her
    rw [her.names, hp]
    split <;> rfl
  have hdelete : ∀ {s : ℕ} {b : Option ℕ}, DeleteStepped cfg f w s b w' →
      w'.files.names p = none := by
    intro s b hd
    cases hd with
    | same => exact hp
    | deleted her => exact herases her
    | deleteFails => exact hp
  cases t with
  | put messages pc =>
    obtain ⟨pc', rfl, hstep⟩ := handlerStep_put h
    cases hstep with
    | created hreg => rwa [hreg.files]
    | @opened u rest i fs hopen =>
      exact (FileSystem.openWrite_names_of_ne hopen (Ne.symm (hown u rfl))).trans hp
    | charged hch => simpa [hch.files] using hp
    | deleted her => exact herases her
    | @mismatch u n =>
      dsimp only
      rw [FileSystem.names_unlink, hp]
      split <;> rfl
    | closed => simpa using hp
    | refused => simpa using hp
    | lost => simpa using hp
    | notChunk => simpa using hp
    | _ => exact hp
  | get request pc =>
    obtain ⟨rfl, _⟩ := handlerStep_get h
    exact hp
  | remove s ids pc =>
    obtain ⟨_, hstep⟩ := handlerStep_remove h
    exact hdelete hstep
  | dispose s pc =>
    obtain ⟨_, ⟨_, hstep⟩ | ⟨_, _, rfl⟩⟩ := handlerStep_dispose h
    · exact hdelete hstep
    · exact hp

theorem unopened_step (hok : InRange cfg σ l) (hσ : Inv cfg σ) (hun : Unopened σ)
    (h : systemStep cfg l σ = some σ') : Unopened σ' := by
  have hroom := hok.room h
  intro j messages u rest hj
  cases l with
  | env a =>
    obtain ⟨w₁, hw, rfl⟩ := Pool.step_env h
    have hu := (hσ.thread j _ hj).upload u rfl
    exact absent_envStep hw (hu.path ▸ uploadPath_inDirectory cfg _) (hun j messages u rest hj)
  | call c =>
    obtain rfl := Pool.step_call h
    rcases Pool.getElem_snoc hj with ⟨_, hc⟩ | ⟨_, hj⟩
    · cases c <;> cases hc
    · exact hun j messages u rest hj
  | run i f =>
    obtain ⟨t, w₁, t', ht, hstep, rfl⟩ := Pool.step_run h
    rcases Pool.getElem_set hj with ⟨rfl, rfl⟩ | ⟨hji, hj⟩
    · -- the handler has just taken the id, and no file has a name made from a later one
      cases t with
      | put ms pc =>
        obtain ⟨pc', heq, hput⟩ := handlerStep_put hstep
        cases heq
        cases hput with
        | created hreg =>
          have hlt := hroom.of_registers hreg
          rw [hreg.files]
          by_contra hname
          have hle := (hσ.shared.uploads _ hname).2
          rw [hreg.id, add64_of_lt hlt] at hle
          omega
      | get request pc =>
        obtain ⟨_, pc', heq, _⟩ := handlerStep_get hstep
        cases heq
      | remove s ids pc =>
        obtain ⟨⟨pc', heq⟩, _⟩ := handlerStep_remove hstep
        cases heq
      | dispose s pc =>
        obtain ⟨⟨pc', heq⟩, _⟩ := handlerStep_dispose hstep
        cases heq
    · have hu := (hσ.thread j _ hj).upload u rfl
      refine absent_handlerStep hstep (fun v hv hpath => ?_) (hun j messages u rest hj)
      have hvpath := ((hσ.thread i t ht).upload v hv).path
      exact hσ.pair i j t _ (Ne.symm hji) ht hj v u hv rfl
        (uploadPath_injective cfg ((hvpath.symm.trans hpath).trans hu.path))

/-- A run from a new service that issues few enough ids, with what its steps can count on. -/
theorem inRange_run {σ₀ : System} {ls : List SystemMove} (h₀ : Initial cfg σ₀)
    (hrun : Run (systemStep cfg) (fun _ _ => True) σ₀ ls σ)
    (hsessions : (observe (systemStep cfg) sessionsIssued ls σ₀).length < 2^64)
    (hblobs : (observe (systemStep cfg) (blobsIssued cfg) ls σ₀).length < 2^64) :
    Run (systemStep cfg) (fun σ l => InRange cfg σ l ∧ Inv cfg σ ∧ Unopened σ) σ₀ ls σ ∧
      Inv cfg σ ∧ Unopened σ := by
  have hzero : σ₀.shared.manager.sessionId = 0 ∧ σ₀.shared.manager.blobId = 0 := by
    rw [h₀.1.manager]
    exact ⟨rfl, rfl⟩
  have hranged : Run (systemStep cfg) (InRange cfg) σ₀ ls σ := by
    refine ((hrun.withRoom (fun σ => σ.shared.manager.sessionId) sessionsIssued ?_
      (by rwa [hzero.1, Nat.zero_add])).withRoom (fun σ => σ.shared.manager.blobId)
      (blobsIssued cfg) ?_ (by rwa [hzero.2, Nat.zero_add])).mono fun σ l hok => ⟨hok.1.2, hok.2⟩
    · intro σ l σ' hst
      rcases systemStep_issues hst with hnone | ⟨hone, hid⟩
      · exact Or.inl hnone
      · exact Or.inr ⟨by rw [hone]; rfl, fun hlt => hid.trans (add64_of_lt hlt)⟩
    · intro σ l σ' hst
      rcases systemStep_blobId hst with hnone | ⟨hone, hid⟩
      · exact Or.inl hnone
      · exact Or.inr ⟨by rw [hone]; rfl, fun hlt => hid.trans (add64_of_lt hlt)⟩
  have hstart : Inv cfg σ₀ ∧ Unopened σ₀ := by
    refine ⟨inv_initial h₀, fun i messages u rest hi => ?_⟩
    simp [h₀.2] at hi
  have hkeep : ∀ σ l σ', Inv cfg σ ∧ Unopened σ → InRange cfg σ l →
      systemStep cfg l σ = some σ' → Inv cfg σ' ∧ Unopened σ' :=
    fun σ l σ' hσ hok hst =>
      ⟨(inv_step (hok.room hst) hσ.1 hst).2, unopened_step hok hσ.1 hσ.2 hst⟩
  exact ⟨hranged.carry _ hkeep hstart, hranged.invariant _ hkeep hstart⟩

/-! ### What is gone does not return -/

/-- An issued session id that is not in use. -/
def SessionGone (s : ℕ) (σ : System) : Prop :=
  s ≤ σ.shared.manager.sessionId ∧ ¬ σ.shared.manager.Live s

/-- An issued blob id that no session has an entry for. -/
def BlobGone (b : ℕ) (σ : System) : Prop :=
  b ≤ σ.shared.manager.blobId ∧ ∀ s e, ¬ σ.shared.manager.Entry s b e

theorem sessionGone_step {s : ℕ} (hok : InRange cfg σ l) (hs : SessionGone s σ)
    (h : systemStep cfg l σ = some σ') : SessionGone s σ' := by
  rcases systemStep_sessions h with ⟨_, hkeep⟩ | ⟨op, hop, hstep⟩
  · exact ⟨hkeep.sessionId ▸ hs.1, fun hl => hs.2 ((hkeep.live s).mp hl)⟩
  · cases op with
    | createSession u =>
      have hm : (σ.shared.manager.createSession u).2 = σ'.shared.manager := Option.some.inj hstep
      have hnext : σ'.shared.manager.sessionId = add64 σ.shared.manager.sessionId 1 := by
        rw [← hm]
        rfl
      have hlt := (hok.room h).of_sessionId hnext
      rw [add64_of_lt hlt] at hnext
      refine ⟨by have hle := hs.1; omega, fun hl => ?_⟩
      rw [← hm] at hl
      rcases (BlobSessionManager.live_createSession u).mp hl with hold | hnew
      · exact hs.2 hold
      · have hle := hs.1
        rw [add64_of_lt hlt] at hnew
        omega
    | dispose r =>
      have hm : σ.shared.manager.dispose r = σ'.shared.manager := Option.some.inj hstep
      rw [SessionGone, ← hm, BlobSessionManager.sessionId_dispose]
      exact ⟨hs.1, fun hl => hs.2 (BlobSessionManager.live_dispose.mp hl).1⟩

theorem sessionGone_disposed {s : ℕ} (hσ : Inv cfg σ) (h : systemStep cfg l σ = some σ')
    (hs : s ∈ sessionsDisposed σ l) : SessionGone s σ' := by
  cases l with
  | env a => cases hs
  | call c => cases hs
  | run i f =>
    obtain ⟨t, w₁, t', ht, hstep, rfl⟩ := Pool.step_run h
    simp only [sessionsDisposed, ht, Option.bind_some, Option.mem_toList] at hs
    rcases handlerStep_sessions hstep with ⟨hnone, _⟩ | ⟨r, hr, hm⟩
    · cases hnone.symm.trans hs
    · obtain rfl := Option.some.inj (hr.symm.trans hs)
      have hlive : σ.shared.manager.Live r := by
        cases t with
        | dispose q pc =>
          obtain ⟨_, ⟨hpc, _⟩ | ⟨rfl, hl, _⟩⟩ := handlerStep_dispose hstep
          · unfold Handler.erases at hr
            split at hr
            · rename_i heq
              cases heq
              exact absurd rfl hpc
            · cases hr
          · cases hr
            exact hl
        | _ => cases hr
      refine ⟨?_, fun hl => ?_⟩
      · rw [hm, BlobSessionManager.sessionId_dispose]
        exact (hσ.shared.sessionIds r hlive).2
      · rw [hm] at hl
        exact (BlobSessionManager.live_dispose.mp hl).2 rfl

theorem blobGone_evolves {b : ℕ} (hb : BlobGone b σ) (h : Evolves σ.shared σ'.shared) :
    BlobGone b σ' := by
  refine ⟨hb.1.trans h.blobId, fun s e he => ?_⟩
  rcases h.entry s b e he with ⟨e₀, he₀, _⟩ | hlt
  · exact hb.2 s e₀ he₀
  · have hle := hb.1
    omega

theorem deletes_handlerStep {s b : ℕ} (h : handlerStep cfg f w t = some (w', t'))
    (ht : t.deletes = some (s, b)) : ∃ r, w.deleteBlobFile cfg s b f.deletes = some (r, w') := by
  cases t with
  | put messages pc =>
    obtain ⟨x, hx, he⟩ := Option.map_eq_some_iff.mp h
    cases he
    cases pc with
    | exhausted u =>
      cases ht
      exact deleteBlobFile_called hx
    | _ => cases ht
  | get request pc => cases ht
  | remove r ids pc =>
    obtain ⟨x, hx, he⟩ := Option.map_eq_some_iff.mp h
    cases he
    cases pc with
    | removing rest =>
      cases rest with
      | nil => cases ht
      | cons c rest =>
        cases ht
        exact deleteBlobFile_called hx
    | _ => cases ht
  | dispose r pc =>
    obtain ⟨x, hx, he⟩ := Option.map_eq_some_iff.mp h
    cases he
    cases pc with
    | deleting rest =>
      cases rest with
      | nil => cases ht
      | cons c rest =>
        cases ht
        exact deleteBlobFile_called hx
    | _ => cases ht

theorem blobGone_removed {b : ℕ} (hσ : Inv cfg σ) (hok : InRange cfg σ l)
    (h : systemStep cfg l σ = some σ') (hb : b ∈ blobsRemoved cfg σ l) : BlobGone b σ' := by
  have hsafe := (inv_step (hok.room h) hσ h).1
  cases l with
  | env a => cases hb
  | call c => cases hb
  | run i f =>
    obtain ⟨t, w₁, t', ht, hstep, rfl⟩ := Pool.step_run h
    simp only [blobsRemoved, ht, Option.bind_some] at hb
    split at hb
    · rename_i s c hdel
      split at hb
      · rename_i w₂ hcall
        split at hb
        · rename_i hfound
          obtain rfl : b = c := by simpa using hb
          obtain ⟨r, hr⟩ := deletes_handlerStep hstep hdel
          obtain ⟨rfl, rfl⟩ : Except.ok () = r ∧ w₂ = w₁ := by
            simpa using hcall.symm.trans hr
          have herased : ∃ e, World.Erases cfg s b e σ.shared w₂ := by
            rcases World.deleteBlobFile_cases hcall with
              ⟨_, _, _, hnone⟩ | ⟨e, _, her⟩ | ⟨_, _, hx, _⟩
            · obtain ⟨path, hpath⟩ := Option.isSome_iff_exists.mp hfound
              obtain ⟨impl, hs, he⟩ := Option.bind_eq_some_iff.mp hpath
              obtain ⟨e, he, _⟩ := Option.map_eq_some_iff.mp he
              exact absurd ⟨impl, hs, he⟩ (hnone e)
            · exact ⟨e, her⟩
            · cases hx
          obtain ⟨e, her⟩ := herased
          refine ⟨(hσ.shared.blobIds s b e her.found).2.trans hsafe.evolves.blobId,
            fun r d hd => ?_⟩
          obtain ⟨hold, hne⟩ := (her.entry r b d).mp hd
          exact hne ⟨hσ.shared.disjoint r s b d e hold her.found, rfl⟩
        · cases hb
      · cases hb
    · cases hb

/-! ### Every run -/

theorem pathsIssued_sublist (σ : System) (l : SystemMove) :
    (pathsIssued cfg σ l).Sublist ((blobsIssued cfg σ l).map (uploadPath cfg)) := by
  have hpair : ∀ x ∈ filesIssued cfg σ l, x.2 = uploadPath cfg x.1 := by
    intro x hx
    unfold filesIssued at hx
    split at hx
    · obtain ⟨s, _, hs⟩ := Option.bind_eq_some_iff.mp (Option.mem_toList.mp hx)
      obtain ⟨r, hr, rfl⟩ := Option.map_eq_some_iff.mp hs
      exact (World.createBlobFile_spec hr).1
    · cases hx
  have hmap : pathsIssued cfg σ l = ((filesIssued cfg σ l).map Prod.fst).map (uploadPath cfg) := by
    rw [List.map_map]
    exact List.map_congr_left fun x hx => hpair x hx
  rw [hmap]
  unfold blobsIssued
  split
  · exact List.nil_sublist _
  · exact .refl _

/-- In every run of a new service that issues fewer than 2^64 session ids and blob ids:
no id is issued twice, no blob id is in two sessions, no path is given out twice and
each upload opens a file that is not there, and what was disposed or removed is not
found again. -/
theorem identifiers_unique {σ₀ : System} {ls : List SystemMove} (h₀ : Initial cfg σ₀)
    (hrun : Run (systemStep cfg) (fun _ _ => True) σ₀ ls σ)
    (hsessions : (observe (systemStep cfg) sessionsIssued ls σ₀).length < 2^64)
    (hblobs : (observe (systemStep cfg) (blobsIssued cfg) ls σ₀).length < 2^64) :
    ((observe (systemStep cfg) sessionsIssued ls σ₀).Nodup ∧
      (observe (systemStep cfg) (blobsIssued cfg) ls σ₀).Nodup) ∧
    (∀ s r b e e', σ.shared.manager.Entry s b e → σ.shared.manager.Entry r b e' → s = r) ∧
    ((observe (systemStep cfg) (pathsIssued cfg) ls σ₀).Nodup ∧
      ∀ (i : ℕ) messages u rest, σ.threads[i]? = some (.put messages (.created u rest)) →
        σ.shared.files.names u.path = none ∧
          ∀ (j : ℕ) t v, j ≠ i → σ.threads[j]? = some t → t.upload = some v → v.path ≠ u.path) ∧
    (∀ s ∈ observe (systemStep cfg) sessionsDisposed ls σ₀,
      σ.shared.manager.getSessionImpl s = .error noSession) ∧
    ∀ b ∈ observe (systemStep cfg) (blobsRemoved cfg) ls σ₀, ∀ (s : ℕ) (impl : BlobSessionImpl),
      σ.shared.manager.blobSessions[s]? = some impl → impl.find b = none := by
  obtain ⟨hrun', hinv, hun⟩ := inRange_run h₀ hrun hsessions hblobs
  have hissued : (observe (systemStep cfg) sessionsIssued ls σ₀).Nodup := by
    rw [hrun'.observe_counter (fun σ => σ.shared.manager.sessionId) sessionsIssued ?_]
    · exact List.nodup_range'
    · intro σ l σ' hok hst
      rcases systemStep_issues hst with hnone | ⟨hone, hid⟩
      · exact Or.inl hnone
      · have hlt := hok.1.1 (by simp [hone])
        exact Or.inr ⟨by rw [hone, add64_of_lt hlt], hid.trans (add64_of_lt hlt)⟩
  have hblobIds : (observe (systemStep cfg) (blobsIssued cfg) ls σ₀).Nodup := by
    rw [hrun'.observe_counter (fun σ => σ.shared.manager.blobId) (blobsIssued cfg) ?_]
    · exact List.nodup_range'
    · intro σ l σ' hok hst
      rcases systemStep_blobId hst with hnone | ⟨hone, hid⟩
      · exact Or.inl hnone
      · have hlt := hok.1.2 (by simp [hone])
        exact Or.inr ⟨by rw [hone, add64_of_lt hlt], hid.trans (add64_of_lt hlt)⟩
  refine ⟨⟨hissued, hblobIds⟩, hinv.shared.disjoint, ⟨?_, fun i messages u rest hi => ⟨?_, ?_⟩⟩,
    fun s hs => ?_, fun b hb s impl hs => ?_⟩
  · exact (observe_sublist (uploadPath cfg) pathsIssued_sublist ls σ₀).nodup
      (hblobIds.map (uploadPath_injective cfg))
  · exact hun i messages u rest hi
  · intro j t v hj ht hv hpath
    have hu := ((hinv.thread i _ hi).upload u rfl).path
    have hv' := ((hinv.thread j t ht).upload v hv).path
    exact hinv.pair j i t _ hj ht hi v u hv rfl
      (uploadPath_injective cfg ((hv'.symm.trans hpath).trans hu))
  · have hgone := hrun'.observed SessionGone
      (fun _ _ _ hok hst s hs => sessionGone_disposed hok.2.1 hst hs)
      (fun _ _ _ hok hst s hs => sessionGone_step hok.1 hs hst) s hs
    exact BlobSessionManager.getSessionImpl_of_not_live hgone.2
  · have hgone := hrun'.observed BlobGone
      (fun _ _ _ hok hst b hb => blobGone_removed hok.2.1 hok.1 hst hb)
      (fun _ _ _ hok hst b hb =>
        blobGone_evolves hb (inv_step (hok.1.room hst) hok.2.1 hst).1.evolves) b hb
    cases hfind : impl.blobs[b]? with
    | none => simp only [BlobSessionImpl.find, hfind, Option.map_none]
    | some e => exact absurd ⟨impl, hs, hfind⟩ (hgone.2 s e)

/-- An upload is removed and its session disposed; a second session stays. -/
def releasedUpload : List SystemMove :=
  oneUpload ++ [.env (.createSession none), .call (.remove 1 [1]), .run 1 .none, .run 1 .none,
    .call (.dispose 1), .run 2 .none, .run 2 .none, .run 2 .none]

theorem identifiers_unique_released : ∃ σ,
    runs smallConfig releasedUpload smallStart = some σ ∧ σ.shared.manager.Live 2 ∧
      σ.shared.manager.getSessionImpl 1 = .error noSession ∧
      ∀ (s : ℕ) (impl : BlobSessionImpl), σ.shared.manager.blobSessions[s]? = some impl →
        impl.find 1 = none := by
  obtain ⟨σ, hσ, hend⟩ := (Option.any_eq_true
    (fun σ : System => σ.shared.manager.blobSessions[2]?.isSome) _).mp
    (by decide : (runs smallConfig releasedUpload smallStart).any _ = true)
  obtain ⟨impl, himpl⟩ := Option.isSome_iff_exists.mp hend
  have hrun : Run (systemStep smallConfig) (fun _ _ => True) smallStart releasedUpload σ :=
    .of_exec hσ fun _ _ _ _ => trivial
  have hall := identifiers_unique smallStart_initial hrun (by decide) (by decide)
  exact ⟨σ, hσ, ⟨impl, himpl⟩, hall.2.2.2.1 1 (by decide), hall.2.2.2.2 1 (by decide)⟩

end BlobRelay
