import BlobRelay.Persistence

/-! # Files and their entries

Every file of an upload should be the path of an entry, so that a later `remove` or
`dispose` can still delete it: what a change of the world has to keep for that. -/

namespace BlobRelay
open Foundation Foundation.FileStore

/-- Every upload file is the path of an entry of a live session. -/
def Attached (cfg : Config) (w : World) : Prop :=
  ∀ k, w.files.names (uploadPath cfg k) ≠ none →
    ∃ s n, w.manager.Entry s k (uploadPath cfg k, n)

/-- None of the session's uploads has a file. -/
def Emptied (cfg : Config) (w : World) (s : ℕ) : Prop :=
  ∀ impl ∈ w.manager.blobSessions[s]?, ∀ b ∈ impl.entries,
    impl.find b = some (uploadPath cfg b) → w.files.present (uploadPath cfg b) = false

instance (cfg : Config) (w : World) (s : ℕ) : Decidable (Emptied cfg w s) :=
  inferInstanceAs (Decidable (∀ impl ∈ w.manager.blobSessions[s]?, ∀ b ∈ impl.entries,
    impl.find b = some (uploadPath cfg b) → w.files.present (uploadPath cfg b) = false))

variable {cfg : Config} {w w' : World}

theorem pathOf_ne_none {m : BlobSessionManager} {s b : ℕ} (h : m.pathOf s b ≠ none) :
    ∃ e, m.Entry s b e := by
  obtain ⟨p, hp⟩ := Option.ne_none_iff_exists'.mp h
  obtain ⟨impl, hs, hb⟩ := Option.bind_eq_some_iff.mp hp
  obtain ⟨e, he, _⟩ := Option.map_eq_some_iff.mp hb
  exact ⟨e, impl, hs, he⟩

theorem Emptied.absent {s b n : ℕ} (h : Emptied cfg w s)
    (he : w.manager.Entry s b (uploadPath cfg b, n)) :
    w.files.names (uploadPath cfg b) = none := by
  obtain ⟨impl, hs, hb⟩ := he
  have hmem : b ∈ impl.entries := (OrderedMap.mem_keys_iff _ _).mpr ⟨_, hb⟩
  have hfind : impl.find b = some (uploadPath cfg b) := by
    rw [BlobSessionImpl.find, hb, Option.map_some]
  exact FileSystem.present_eq_false_iff.mp (h impl hs b hmem hfind)

/-! ### One change -/

theorem attached_of_kept (h : Attached cfg w)
    (hnames : ∀ k, w'.files.names (uploadPath cfg k) ≠ none →
      w.files.names (uploadPath cfg k) ≠ none)
    (hkept : ∀ s k n, w.manager.Entry s k (uploadPath cfg k, n) →
      w'.files.names (uploadPath cfg k) ≠ none → Kept w'.manager s k (uploadPath cfg k, n)) :
    Attached cfg w' := by
  intro k hk
  obtain ⟨s, n, he⟩ := h k (hnames k hk)
  obtain ⟨n', he'⟩ := hkept s k n he hk
  exact ⟨s, n', he'⟩

theorem attached_erases {s b : ℕ} {e : Path × ℕ} (h : Attached cfg w)
    (her : World.Erases cfg s b e w w') : Attached cfg w' := by
  refine attached_of_kept h (fun k hk hold => hk ?_) fun r k n he hk => ?_
  · rw [her.names, hold, ite_self]
  · refine kept_erases her (fun hrk => ?_) he
    -- the entry that went had this path, and its file went with it
    obtain ⟨rfl, rfl⟩ := hrk
    rw [her.names, if_pos (congrArg Prod.fst (he.unique her.found))] at hk
    exact hk rfl

theorem attached_same (h : Attached cfg w) (hnames : w'.files.names = w.files.names)
    (hkept : ∀ s k e, w.manager.Entry s k e → Kept w'.manager s k e) : Attached cfg w' :=
  attached_of_kept h (fun _ hk => hnames ▸ hk) fun s k _ he _ => hkept s k _ he

theorem attached_opened {u : Upload} {e : Path × ℕ} {i : ℕ} {fs : Files} (h : Attached cfg w)
    (hu : UploadInv cfg w u) (he : w.manager.Entry u.session u.blobId e)
    (hopen : w.files.openWrite u.path = some (i, fs)) :
    Attached cfg {w with files := fs} := by
  intro k hk
  by_cases hkb : k = u.blobId
  · subst hkb
    obtain ⟨_, hpath⟩ := hu.owned _ e he
    exact ⟨u.session, e.2, (hpath.trans hu.path) ▸ he⟩
  · dsimp only at hk
    rw [FileSystem.openWrite_names_of_ne hopen
      fun hp => hkb (uploadPath_injective cfg (hp.trans hu.path))] at hk
    exact h k hk

theorem attached_dispose {s : ℕ} (h : Attached cfg w) (hs : Emptied cfg w s) :
    Attached cfg {w with manager := w.manager.dispose s} := by
  refine attached_of_kept h (fun k hk => hk) fun r k n he hk => ?_
  refine kept_of_entry (BlobSessionManager.entry_dispose.mpr ⟨he, ?_⟩)
  rintro rfl
  exact hk (hs.absent he)

theorem attached_envStep {a : EnvAction} (h : Attached cfg w)
    (hstep : envStep cfg a w = some w') : Attached cfg w' :=
  attached_of_kept h (fun _ hk hold => hk (absent_envStep hstep (uploadPath_inDirectory cfg _) hold))
    fun _ _ _ he _ => kept_envStep hstep he

end BlobRelay
