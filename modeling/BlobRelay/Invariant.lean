import BlobRelay.System

/-! # Identifiers, entries and files agree

The invariant of the world under any interleaving (`WorldInv`), what every step
may do to entries and names (`Evolves`), and one lemma for each kind of step. -/

namespace BlobRelay
open Foundation Foundation.FileStore

structure WorldInv (cfg : Config) (w : World) : Prop where
  sessionIds : ∀ s, w.manager.Live s → 1 ≤ s ∧ s ≤ w.manager.sessionId
  blobIds : ∀ s b e, w.manager.Entry s b e → 1 ≤ b ∧ b ≤ w.manager.blobId
  disjoint : ∀ s r b e e', w.manager.Entry s b e → w.manager.Entry r b e' → s = r
  uploads : ∀ k, w.files.names (uploadPath cfg k) ≠ none → 1 ≤ k ∧ k ≤ w.manager.blobId
  index : w.manager.IndexSound
  blobId_lt : w.manager.blobId < 2^64
  sessionId_lt : w.manager.sessionId < 2^64
  currentSize_lt : w.manager.currentSize < 2^64

/-- Entries keep their paths and new ones have new ids; names keep their inodes
and new ones have new inodes. -/
structure Evolves (w w' : World) : Prop where
  blobId : w.manager.blobId ≤ w'.manager.blobId
  entry : ∀ s b e', w'.manager.Entry s b e' →
    (∃ e, w.manager.Entry s b e ∧ e'.1 = e.1) ∨ w.manager.blobId < b
  names : ∀ q i, w'.files.names q = some (.regular i) →
    w.files.names q = some (.regular i) ∨ w.files.next ≤ i
  next : w.files.next ≤ w'.files.next

theorem Evolves.refl (w : World) : Evolves w w :=
  ⟨le_rfl, fun _ _ e h => Or.inl ⟨e, h, rfl⟩, fun _ _ h => Or.inl h, le_rfl⟩

theorem Evolves.trans {a b c : World} (h : Evolves a b) (h' : Evolves b c) : Evolves a c := by
  refine ⟨h.blobId.trans h'.blobId, ?_, ?_, h.next.trans h'.next⟩
  · intro s k e hc
    rcases h'.entry s k e hc with ⟨e', hb, he⟩ | hk
    · rcases h.entry s k e' hb with ⟨e'', ha, he'⟩ | hk
      · exact Or.inl ⟨e'', ha, he.trans he'⟩
      · exact Or.inr hk
    · exact Or.inr (lt_of_le_of_lt h.blobId hk)
  · intro q i hc
    rcases h'.names q i hc with hb | hi
    · exact h.names q i hb
    · exact Or.inr (h.next.trans hi)

/-- A step that evolves the world and keeps its invariant. -/
structure Safe (cfg : Config) (w w' : World) : Prop where
  evolves : Evolves w w'
  inv : WorldInv cfg w → WorldInv cfg w'

theorem Safe.refl (cfg : Config) (w : World) : Safe cfg w w := ⟨.refl w, id⟩

theorem Safe.trans {cfg : Config} {a b c : World} (h : Safe cfg a b) (h' : Safe cfg b c) :
    Safe cfg a c :=
  ⟨h.evolves.trans h'.evolves, h'.inv ∘ h.inv⟩

variable {cfg : Config} {w w' : World} {s : ℕ} {b : ℕ}

/-! ### Steps on the manager -/

/-- A step that takes an id finds its counter short of the end of 64 bits. -/
structure Room (w w' : World) : Prop where
  blobId : w'.manager.blobId ≠ w.manager.blobId → w.manager.blobId + 1 < 2^64
  sessionId : w'.manager.sessionId ≠ w.manager.sessionId → w.manager.sessionId + 1 < 2^64

theorem Headroom.room (h : Headroom w) (w' : World) : Room w w' := ⟨fun _ => h.1, fun _ => h.2⟩

theorem add64_one_ne (n : ℕ) : add64 n 1 ≠ n := by
  unfold add64
  omega

theorem Room.of_blobId (h : Room w w') (hid : w'.manager.blobId = add64 w.manager.blobId 1) :
    w.manager.blobId + 1 < 2^64 :=
  h.blobId (hid ▸ add64_one_ne _)

theorem Room.of_sessionId (h : Room w w')
    (hid : w'.manager.sessionId = add64 w.manager.sessionId 1) : w.manager.sessionId + 1 < 2^64 :=
  h.sessionId (hid ▸ add64_one_ne _)

theorem Room.of_registers {path : Path} (h : Room w w') (hreg : World.Registers cfg s b path w w') :
    w.manager.blobId + 1 < 2^64 :=
  h.of_blobId (hreg.blobId.trans hreg.id)

/-- Steps after which every entry was there before with its path, and files have
only lost names. -/
theorem safe_of_fewer (hb : w'.manager.blobId = w.manager.blobId)
    (hc : w.manager.currentSize < 2^64 → w'.manager.currentSize < 2^64)
    (hsessions : KeepsSessions w.manager w'.manager)
    (hentry : ∀ r c e', w'.manager.Entry r c e' → ∃ e, w.manager.Entry r c e ∧ e'.1 = e.1)
    (hnames : ∀ q n, w'.files.names q = some n → w.files.names q = some n)
    (hnext : w'.files.next = w.files.next) : Safe cfg w w' := by
  refine ⟨⟨hb.ge, fun r c e' h => Or.inl (hentry r c e' h),
    fun q i h => Or.inl (hnames q _ h), hnext.ge⟩, fun inv => ?_⟩
  refine ⟨?_, ?_, ?_, ?_, ?_, hb ▸ inv.blobId_lt, hsessions.sessionId ▸ inv.sessionId_lt,
    hc inv.currentSize_lt⟩
  · intro r hr
    rw [hsessions.sessionId]
    exact inv.sessionIds r ((hsessions.live r).mp hr)
  · intro r c e' h
    obtain ⟨e, he, _⟩ := hentry r c e' h
    rw [hb]
    exact inv.blobIds r c e he
  · intro r r' c e e' h h'
    obtain ⟨d, hd, _⟩ := hentry r c e h
    obtain ⟨d', hd', _⟩ := hentry r' c e' h'
    exact inv.disjoint r r' c d d' hd hd'
  · intro k hk
    obtain ⟨n, hn⟩ := Option.ne_none_iff_exists'.mp hk
    rw [hb]
    exact inv.uploads k (by rw [hnames _ n hn]; simp)
  · intro t r h
    rw [hsessions.index] at h
    exact (hsessions.owner r _).mpr (inv.index t r h)

theorem release_lt {quota size cur : ℕ} (h : cur < 2^64) : release quota size cur < 2^64 := by
  unfold release
  split
  · exact sub64_lt _ _
  · exact h

theorem reserve_lt {quota size cur : ℕ} (h : cur < 2^64) : (reserve quota size cur).2 < 2^64 := by
  unfold reserve
  split
  · split
    · exact h
    · exact add64_lt _ _
  · exact h

theorem safe_erases {e : Path × ℕ} (h : World.Erases cfg s b e w w') : Safe cfg w w' := by
  refine safe_of_fewer h.blobId ?_ h.sessions ?_ ?_ h.next
  · intro hlt
    rw [h.currentSize]
    exact release_lt hlt
  · intro r c e' he
    exact ⟨e', ((h.entry r c e').mp he).1, rfl⟩
  · intro q n hq
    rw [h.names] at hq
    split at hq
    · cases hq
    · exact hq

theorem safe_charges {e : Path × ℕ} {size : ℕ} (h : World.Charges cfg s b size e w w') :
    Safe cfg w w' := by
  refine safe_of_fewer h.blobId ?_ h.sessions ?_ ?_ (by rw [h.files])
  · intro hlt
    rw [h.currentSize]
    exact reserve_lt hlt
  · intro r c e' he
    have hr := (h.entry r c e').mp he
    split at hr
    · rename_i hrc
      obtain ⟨rfl, rfl⟩ := hrc
      exact ⟨e, h.found, by rw [hr]⟩
    · exact ⟨e', hr, rfl⟩
  · intro q n hq
    rwa [h.files] at hq

theorem safe_counter {n : ℕ} (hn : w.manager.currentSize < 2^64 → n < 2^64) :
    Safe cfg w {w with manager := {w.manager with currentSize := n}} :=
  safe_of_fewer rfl hn ⟨rfl, rfl, fun _ _ => Iff.rfl⟩ (fun _ _ e h => ⟨e, h, rfl⟩)
    (fun _ _ h => h) rfl

theorem safe_fewer_names {fs : Files}
    (hnames : ∀ q n, fs.names q = some n → w.files.names q = some n)
    (hnext : fs.next = w.files.next) : Safe cfg w {w with files := fs} :=
  safe_of_fewer rfl id (.refl _) (fun _ _ e h => ⟨e, h, rfl⟩) hnames hnext

theorem safe_unlink (p : Path) : Safe cfg w {w with files := w.files.unlink p} := by
  refine safe_fewer_names (fun q n hq => ?_) rfl
  rw [FileSystem.names_unlink] at hq
  split at hq
  · cases hq
  · exact hq

theorem safe_write (out : OutStream) (r : WriteResult) (bytes : Bytes) :
    Safe cfg w {w with files := (out.write r bytes w.files).2} := by
  refine safe_fewer_names (fun q n hq => ?_) ?_
  · rwa [OutStream.names_write] at hq
  · exact OutStream.next_write out r bytes w.files

theorem safe_close (out : OutStream) (r : WriteResult) :
    Safe cfg w {w with files := out.close r w.files} := by
  refine safe_fewer_names (fun q n hq => ?_) ?_
  · rwa [OutStream.names_close] at hq
  · exact OutStream.next_close out r w.files

/-- Opening a file for output at a path that is not an upload path, or is that of
an id already given out. -/
theorem safe_openWrite {p : Path} {i : ℕ} {fs : Files}
    (hopen : w.files.openWrite p = some (i, fs))
    (hp : ∀ k, p = uploadPath cfg k → 1 ≤ k ∧ k ≤ w.manager.blobId) :
    Safe cfg w {w with files := fs} := by
  refine ⟨⟨le_rfl, fun _ _ e h => Or.inl ⟨e, h, rfl⟩, ?_, (FileSystem.openWrite_self hopen).2.2⟩,
    fun inv => ?_⟩
  · intro q j hq
    exact FileSystem.openWrite_names hopen hq
  · refine ⟨inv.sessionIds, inv.blobIds, inv.disjoint, ?_, inv.index, inv.blobId_lt,
      inv.sessionId_lt, inv.currentSize_lt⟩
    intro k hk
    by_cases hkp : uploadPath cfg k = p
    · exact hp k hkp.symm
    · dsimp only at hk
      rw [FileSystem.openWrite_names_of_ne hopen hkp] at hk
      exact inv.uploads k hk

theorem safe_outsideWrite {p : Path} {bytes : Bytes} (h : outsideWrite cfg p bytes w = some w') :
    Safe cfg w w' := by
  unfold outsideWrite at h
  split at h
  · cases h
  · rename_i hp
    obtain ⟨⟨i, fs⟩, hopen, rfl⟩ := Option.map_eq_some_iff.mp h
    have hsafe : Safe cfg w {w with files := fs} := safe_openWrite hopen (fun k hk => by
      rw [hk, uploadPath_inDirectory] at hp
      exact absurd rfl hp)
    exact hsafe.trans (safe_fewer_names (w := {w with files := fs}) (fun q n hq => hq) rfl)

/-! ### Steps that issue an identifier -/

theorem safe_registers {path : Path} (hroom : w.manager.blobId + 1 < 2^64)
    (h : World.Registers cfg s b path w w') : Safe cfg w w' := by
  have hid : b = w.manager.blobId + 1 := h.id.trans (add64_of_lt hroom)
  have hb : w'.manager.blobId = w.manager.blobId + 1 := h.blobId.trans hid
  refine ⟨⟨by omega, ?_, ?_, by rw [h.files]⟩, fun inv => ?_⟩
  · intro r c e' he
    rcases (h.entry r c e').mp he with he | ⟨_, rfl, _⟩
    · exact Or.inl ⟨e', he, rfl⟩
    · exact Or.inr (by omega)
  · intro q i hq
    rw [h.files] at hq
    exact Or.inl hq
  · have hnew : ∀ r e, ¬ w.manager.Entry r b e := by
      intro r e he
      have hle := (inv.blobIds r b e he).2
      omega
    refine ⟨?_, ?_, ?_, ?_, ?_, ?_, ?_, ?_⟩
    · intro r hr
      rw [h.sessions.sessionId]
      exact inv.sessionIds r ((h.sessions.live r).mp hr)
    · intro r c e' he
      rcases (h.entry r c e').mp he with he | ⟨_, rfl, _⟩
      · have hle := inv.blobIds r c e' he
        omega
      · omega
    · intro r r' c e e' he he'
      rcases (h.entry r c e).mp he with he | ⟨hr, rfl, _⟩
      · rcases (h.entry r' c e').mp he' with he' | ⟨_, rfl, _⟩
        · exact inv.disjoint r r' c e e' he he'
        · exact absurd he (hnew r e)
      · rcases (h.entry r' c e').mp he' with he' | ⟨hr', _⟩
        · exact absurd he' (hnew r' e')
        · exact hr.trans hr'.symm
    · intro k hk
      rw [h.files] at hk
      have hle := inv.uploads k hk
      omega
    · intro t r hr
      rw [h.sessions.index] at hr
      exact (h.sessions.owner r _).mpr (inv.index t r hr)
    · omega
    · rw [h.sessions.sessionId]
      exact inv.sessionId_lt
    · rw [h.currentSize]
      exact inv.currentSize_lt

/-- A failed `add` has still taken an id. -/
theorem safe_getNewBlobId (hroom : w.manager.blobId + 1 < 2^64) :
    Safe cfg w {w with manager := w.manager.getNewBlobId.2} := by
  have hb : w.manager.getNewBlobId.2.blobId = w.manager.blobId + 1 := add64_of_lt hroom
  refine ⟨⟨by dsimp only; omega, fun _ _ e h => Or.inl ⟨e, h, rfl⟩, fun _ _ h => Or.inl h, le_rfl⟩,
    fun inv => ⟨inv.sessionIds, ?_, inv.disjoint, ?_, inv.index, ?_, inv.sessionId_lt,
      inv.currentSize_lt⟩⟩
  · intro r c e he
    have hle := inv.blobIds r c e he
    dsimp only
    omega
  · intro k hk
    have hle := inv.uploads k hk
    dsimp only
    omega
  · dsimp only
    omega

theorem safe_createSession (hroom : w.manager.sessionId + 1 < 2^64) (t : Option TransactionId) :
    Safe cfg w {w with manager := (w.manager.createSession t).2} := by
  have hid : add64 w.manager.sessionId 1 = w.manager.sessionId + 1 := add64_of_lt hroom
  refine ⟨⟨le_rfl, fun r c e h => Or.inl
    ⟨e, (BlobSessionManager.entry_createSession t).mp h, rfl⟩, fun _ _ h => Or.inl h, le_rfl⟩,
    fun inv => ?_⟩
  have hnew : ¬ w.manager.Live (add64 w.manager.sessionId 1) := by
    intro hl
    have hle := (inv.sessionIds _ hl).2
    omega
  refine ⟨?_, ?_, ?_, inv.uploads,
    BlobSessionManager.indexSound_createSession inv.index hnew t, inv.blobId_lt, ?_, inv.currentSize_lt⟩
  · intro r hr
    rcases (BlobSessionManager.live_createSession t).mp hr with hr | rfl
    · have hle := inv.sessionIds r hr
      show 1 ≤ r ∧ r ≤ add64 w.manager.sessionId 1
      omega
    · show 1 ≤ add64 w.manager.sessionId 1 ∧
        add64 w.manager.sessionId 1 ≤ add64 w.manager.sessionId 1
      omega
  · intro r c e he
    exact inv.blobIds r c e ((BlobSessionManager.entry_createSession t).mp he)
  · intro r r' c e e' he he'
    exact inv.disjoint r r' c e e' ((BlobSessionManager.entry_createSession t).mp he)
      ((BlobSessionManager.entry_createSession t).mp he')
  · show add64 w.manager.sessionId 1 < 2^64
    exact add64_lt _ _

theorem safe_dispose (s : ℕ) :
    Safe cfg w {w with manager := w.manager.dispose s} := by
  refine ⟨⟨by simp, ?_, fun _ _ h => Or.inl h, le_rfl⟩, fun inv => ?_⟩
  · intro r c e h
    exact Or.inl ⟨e, (BlobSessionManager.entry_dispose.mp h).1, rfl⟩
  · refine ⟨?_, ?_, ?_, ?_, ?_, ?_, ?_, ?_⟩
    · intro r hr
      simpa using inv.sessionIds r (BlobSessionManager.live_dispose.mp hr).1
    · intro r c e he
      simpa using inv.blobIds r c e (BlobSessionManager.entry_dispose.mp he).1
    · intro r r' c e e' he he'
      exact inv.disjoint r r' c e e' (BlobSessionManager.entry_dispose.mp he).1
        (BlobSessionManager.entry_dispose.mp he').1
    · intro k hk
      simpa using inv.uploads k hk
    · exact BlobSessionManager.indexSound_dispose inv.index s
    · simpa using inv.blobId_lt
    · simpa using inv.sessionId_lt
    · simpa using inv.currentSize_lt

end BlobRelay
