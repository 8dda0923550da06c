import BlobRelay.Reachability

/-! # What steps leave alone

A session stays live until it is erased, an entry keeps its path until it is
deleted, and a file stays as it is until an entry with its path is deleted or the
upload that owns it writes. -/

namespace BlobRelay
open Foundation Foundation.FileStore

variable {cfg : Config} {f : Fault} {messages : List PutStreamingRequest} {w w' : World}
  {t t' : Handler} {r c : ℕ} {e : Path × ℕ}

/-! ### Sessions -/

theorem live_putStepped {pc pc' : PutPc} (h : PutStepped cfg f messages w pc w' pc')
    (hl : w.manager.Live r) : w'.manager.Live r := by
  cases h with
  | created hreg => exact (hreg.sessions.live r).mpr hl
  | charged hch => exact (hch.sessions.live r).mpr hl
  | deleted her => exact (her.sessions.live r).mpr hl
  | _ => exact hl

theorem live_deleteStepped {s : ℕ} {b : Option ℕ} (h : DeleteStepped cfg f w s b w')
    (hl : w.manager.Live r) : w'.manager.Live r := by
  cases h with
  | same => exact hl
  | deleted her => exact (her.sessions.live r).mpr hl
  | deleteFails => exact hl

theorem live_handlerStep (h : handlerStep cfg f w t = some (w', t')) (hr : t.erases ≠ some r)
    (hl : w.manager.Live r) : w'.manager.Live r := by
  cases t with
  | put messages pc =>
    obtain ⟨pc', rfl, hstep⟩ := handlerStep_put h
    exact live_putStepped hstep hl
  | get request pc =>
    obtain ⟨rfl, _⟩ := handlerStep_get h
    exact hl
  | remove s ids pc =>
    obtain ⟨_, hstep⟩ := handlerStep_remove h
    exact live_deleteStepped hstep hl
  | dispose s pc =>
    obtain ⟨_, ⟨_, hstep⟩ | ⟨rfl, _, rfl⟩⟩ := handlerStep_dispose h
    · exact live_deleteStepped hstep hl
    · refine BlobSessionManager.live_dispose.mpr ⟨hl, ?_⟩
      rintro rfl
      exact hr rfl

theorem live_envStep {a : EnvAction} (h : envStep cfg a w = some w') (hl : w.manager.Live r) :
    w'.manager.Live r := by
  cases a with
  | createSession u =>
    cases h
    exact (BlobSessionManager.live_createSession u).mpr (Or.inl hl)
  | add s path =>
    obtain ⟨⟨x, w₁⟩, hadd, he⟩ := Option.map_eq_some_iff.mp h
    cases he
    cases x with
    | ok b => exact ((World.add_ok hadd).2.sessions.live r).mpr hl
    | error x =>
      obtain ⟨_, rfl⟩ := World.add_error hadd
      exact hl
  | outsideWrite path bytes =>
    simp only [envStep, outsideWrite] at h
    split at h
    · cases h
    · obtain ⟨x, _, rfl⟩ := Option.map_eq_some_iff.mp h
      exact hl
  | outsideDelete path =>
    cases h
    exact hl

/-! ### Entries -/

def Kept (m : BlobSessionManager) (r c : ℕ) (e : Path × ℕ) : Prop := ∃ n, m.Entry r c (e.1, n)

theorem kept_of_entry {m : BlobSessionManager} (h : m.Entry r c e) : Kept m r c e := ⟨e.2, h⟩

theorem kept_registers {s b : ℕ} {path : Path} (h : World.Registers cfg s b path w w')
    (he : w.manager.Entry r c e) : Kept w'.manager r c e :=
  kept_of_entry ((h.entry r c e).mpr (Or.inl he))

theorem kept_charges {s b size : ℕ} {d : Path × ℕ} (h : World.Charges cfg s b size d w w')
    (he : w.manager.Entry r c e) : Kept w'.manager r c e := by
  by_cases hrc : r = s ∧ c = b
  · have hd : e = d := by
      obtain ⟨rfl, rfl⟩ := hrc
      exact he.unique h.found
    exact ⟨_, (h.entry r c _).mpr (by rw [if_pos hrc, hd])⟩
  · exact kept_of_entry ((h.entry r c e).mpr (by rw [if_neg hrc]; exact he))

theorem kept_erases {s b : ℕ} {d : Path × ℕ} (h : World.Erases cfg s b d w w')
    (hne : ¬ (r = s ∧ c = b)) (he : w.manager.Entry r c e) : Kept w'.manager r c e :=
  kept_of_entry ((h.entry r c e).mpr ⟨he, hne⟩)

theorem kept_putStepped {pc pc' : PutPc} (h : PutStepped cfg f messages w pc w' pc')
    (hdel : (Handler.put messages pc).deletes ≠ some (r, c)) (he : w.manager.Entry r c e) :
    Kept w'.manager r c e := by
  cases h with
  | created hreg => exact kept_registers hreg he
  | @charged _ _ _ _ _ _ w₁ hch =>
    have hkept : Kept w₁.manager r c e := kept_charges hch he
    exact hkept
  | @deleted u _ _ her =>
    refine kept_erases her (fun ⟨hr, hc⟩ => hdel ?_) he
    rw [hr, hc]
    rfl
  | _ => exact kept_of_entry he

theorem kept_deleteStepped {s : ℕ} {b : Option ℕ} (h : DeleteStepped cfg f w s b w')
    (hdel : b.map (fun b => (s, b)) ≠ some (r, c)) (he : w.manager.Entry r c e) :
    Kept w'.manager r c e := by
  cases h with
  | same => exact kept_of_entry he
  | deleted her =>
    refine kept_erases her (fun ⟨hr, hc⟩ => hdel ?_) he
    rw [hr, hc]
    rfl
  | deleteFails => exact kept_of_entry he

theorem kept_handlerStep (h : handlerStep cfg f w t = some (w', t')) (hr : t.erases ≠ some r)
    (hdel : t.deletes ≠ some (r, c)) (he : w.manager.Entry r c e) : Kept w'.manager r c e := by
  cases t with
  | put messages pc =>
    obtain ⟨pc', rfl, hstep⟩ := handlerStep_put h
    exact kept_putStepped hstep hdel he
  | get request pc =>
    obtain ⟨rfl, _⟩ := handlerStep_get h
    exact kept_of_entry he
  | remove s ids pc =>
    obtain ⟨_, hstep⟩ := handlerStep_remove h
    exact kept_deleteStepped hstep hdel he
  | dispose s pc =>
    obtain ⟨_, ⟨_, hstep⟩ | ⟨rfl, _, rfl⟩⟩ := handlerStep_dispose h
    · exact kept_deleteStepped hstep hdel he
    · refine kept_of_entry (BlobSessionManager.entry_dispose.mpr ⟨he, ?_⟩)
      rintro rfl
      exact hr rfl

theorem kept_envStep {a : EnvAction} (h : envStep cfg a w = some w') (he : w.manager.Entry r c e) :
    Kept w'.manager r c e := by
  cases a with
  | createSession u =>
    cases h
    exact kept_of_entry ((BlobSessionManager.entry_createSession u).mpr he)
  | add s path =>
    obtain ⟨⟨x, w₁⟩, hadd, hx⟩ := Option.map_eq_some_iff.mp h
    cases hx
    cases x with
    | ok b => exact kept_registers (World.add_ok hadd).2 he
    | error x =>
      obtain ⟨_, rfl⟩ := World.add_error hadd
      exact kept_of_entry he
  | outsideWrite path bytes =>
    simp only [envStep, outsideWrite] at h
    split at h
    · cases h
    · obtain ⟨x, _, rfl⟩ := Option.map_eq_some_iff.mp h
      exact kept_of_entry he
  | outsideDelete path =>
    cases h
    exact kept_of_entry he

/-! ### Files -/

variable {p : Path}

theorem sameAt_erases {s b : ℕ} {d : Path × ℕ} (h : World.Erases cfg s b d w w') (hp : d.1 ≠ p) :
    w.files.SameAt w'.files p := by
  have hnames := h.names p
  rw [if_neg (Ne.symm hp)] at hnames
  exact ⟨hnames, by simp only [FileSystem.contents, hnames, h.data]⟩

theorem sameAt_putStepped {pc pc' : PutPc} (h : PutStepped cfg f messages w pc w' pc')
    (ht : ThreadInv cfg w (.put messages pc)) (hown : ∀ u, pc.upload = some u → u.path ≠ p)
    (hdel : ∀ s b d, (Handler.put messages pc).deletes = some (s, b) → w.manager.Entry s b d →
      d.1 ≠ p) : w.files.SameAt w'.files p := by
  have hclose : ∀ {u : Upload} {out : OutStream} {n : ℕ} {rest : List PutStreamingRequest},
      pc = .receiving u out n rest → w.files.names p ≠ some (.regular out.ino) := by
    intro u out n rest hpc hname
    subst hpc
    exact hown u rfl ((ht.handle u out rfl).ownName p hname).symm
  cases h with
  | created hreg =>
    rw [hreg.files]
    exact .refl _ p
  | @opened u rest i fs hopen => exact FileSystem.sameAt_openWrite hopen (Ne.symm (hown u rfl))
  | @closed u out => exact out.sameAt_close _ _ (hclose rfl)
  | @charged u out n bytes rest e w₁ hch =>
    dsimp only
    rw [hch.files]
    exact out.sameAt_write _ _ _ (hclose rfl)
  | @refused u out => exact out.sameAt_close _ _ (hclose rfl)
  | @lost u out => exact out.sameAt_close _ _ (hclose rfl)
  | @notChunk u out => exact out.sameAt_close _ _ (hclose rfl)
  | deleted her => exact sameAt_erases her (hdel _ _ _ rfl her.found)
  | @mismatch u => exact FileSystem.sameAt_unlink _ (Ne.symm (hown u rfl))
  | _ => exact .refl _ p

theorem sameAt_deleteStepped {s : ℕ} {b : Option ℕ} (h : DeleteStepped cfg f w s b w')
    (hdel : ∀ c d, b = some c → w.manager.Entry s c d → d.1 ≠ p) :
    w.files.SameAt w'.files p := by
  cases h with
  | same => exact .refl _ p
  | deleted her => exact sameAt_erases her (hdel _ _ rfl her.found)
  | deleteFails => exact .refl _ p

theorem sameAt_handlerStep (h : handlerStep cfg f w t = some (w', t')) (ht : ThreadInv cfg w t)
    (hown : ∀ u, t.upload = some u → u.path ≠ p)
    (hdel : ∀ s b d, t.deletes = some (s, b) → w.manager.Entry s b d → d.1 ≠ p) :
    w.files.SameAt w'.files p := by
  cases t with
  | put messages pc =>
    obtain ⟨pc', rfl, hstep⟩ := handlerStep_put h
    exact sameAt_putStepped hstep ht hown hdel
  | get request pc =>
    obtain ⟨rfl, _⟩ := handlerStep_get h
    exact .refl _ p
  | remove s ids pc =>
    obtain ⟨_, hstep⟩ := handlerStep_remove h
    refine sameAt_deleteStepped hstep fun c d hc => hdel s c d ?_
    simp [Handler.deletes, hc]
  | dispose s pc =>
    obtain ⟨_, ⟨_, hstep⟩ | ⟨_, _, rfl⟩⟩ := handlerStep_dispose h
    · refine sameAt_deleteStepped hstep fun c d hc => hdel s c d ?_
      simp [Handler.deletes, hc]
    · exact .refl _ p

theorem sameAt_envStep {a : EnvAction} (h : envStep cfg a w = some w')
    (hp : inDirectory cfg.directory p = true) (hdel : a ≠ .outsideDelete p) :
    w.files.SameAt w'.files p := by
  cases a with
  | createSession u =>
    cases h
    exact .refl _ p
  | add s path =>
    obtain ⟨⟨x, w₁⟩, hadd, hx⟩ := Option.map_eq_some_iff.mp h
    cases hx
    cases x with
    | ok b =>
      rw [(World.add_ok hadd).2.files]
      exact .refl _ p
    | error x =>
      obtain ⟨_, rfl⟩ := World.add_error hadd
      exact .refl _ p
  | outsideWrite path bytes =>
    simp only [envStep, outsideWrite] at h
    split at h
    · cases h
    · rename_i hout
      obtain ⟨⟨i, fs⟩, hopen, rfl⟩ := Option.map_eq_some_iff.mp h
      have hne : p ≠ path := by
        rintro rfl
        exact hout hp
      have hname : fs.names p ≠ some (.regular i) := fun hn =>
        hne (fs.linkedOnce p path i hn (FileSystem.openWrite_self hopen).1)
      exact (FileSystem.sameAt_openWrite hopen hne).trans (FileSystem.sameAt_setData fs hname)
  | outsideDelete path =>
    cases h
    exact FileSystem.sameAt_unlink _ fun hq => hdel (hq ▸ rfl)

/-- Nothing outside the handlers creates a file in the store directory. -/
theorem absent_envStep {a : EnvAction} (h : envStep cfg a w = some w')
    (hdir : inDirectory cfg.directory p = true) (hp : w.files.names p = none) :
    w'.files.names p = none := by
  by_cases hdel : a = .outsideDelete p
  · subst hdel
    cases h
    exact FileSystem.names_unlink_self _ _
  · exact (sameAt_envStep h hdir hdel).1.trans hp

/-! ### Names -/

/-- The path that the handler's next step opens for writing. -/
def PutPc.opens : PutPc → Option Path
  | .created u _ => some u.path
  | _ => none

/-- A name is kept or goes, but for the path just opened. -/
def NamesShrink (w w' : World) (opened : Option Path) : Prop :=
  ∀ q, opened ≠ some q → w'.files.names q = w.files.names q ∨ w'.files.names q = none

theorem namesShrink_erases {s b : ℕ} {e : Path × ℕ} (h : World.Erases cfg s b e w w')
    (opened : Option Path) : NamesShrink w w' opened := by
  intro q _
  rw [h.names]
  split
  · exact Or.inr rfl
  · exact Or.inl rfl

theorem namesShrink_putStepped {messages : List PutStreamingRequest} {pc pc' : PutPc}
    (h : PutStepped cfg f messages w pc w' pc') : NamesShrink w w' pc.opens := by
  intro q hq
  cases h with
  | created hreg => exact Or.inl (by rw [hreg.files])
  | opened hopen =>
    refine Or.inl (FileSystem.openWrite_names_of_ne hopen fun he => hq ?_)
    rw [he, PutPc.opens]
  | @closed v out n => exact Or.inl (by rw [OutStream.names_close])
  | @charged v out n bs rest e w₁ hch =>
    exact Or.inl (by dsimp only; rw [OutStream.names_write, hch.files])
  | refused => exact Or.inl (by rw [OutStream.names_close])
  | lost => exact Or.inl (by rw [OutStream.names_close])
  | notChunk => exact Or.inl (by rw [OutStream.names_close])
  | deleted her => exact namesShrink_erases her none q nofun
  | @mismatch v n =>
    dsimp only
    rw [FileSystem.names_unlink]
    split
    · exact Or.inr rfl
    · exact Or.inl rfl
  | _ => exact Or.inl rfl

end BlobRelay
