import BlobRelay.Reception

/-! # What a failed upload leaves behind

The quota exit of `Put` takes back the entry, the file and the reservation. The
exits for an unopened file, a message that is not a chunk and a wrong declared
size do not: the entry stays, and with it what was reserved. -/

namespace BlobRelay
open Foundation Foundation.FileStore

/-- Entries, store directory and usage as they were; only the blob id counter may
have moved. -/
structure NoTrace (cfg : Config) (w w' : World) : Prop where
  sessions : KeepsSessions w.manager w'.manager
  entries : ∀ s b e, w'.manager.Entry s b e ↔ w.manager.Entry s b e
  files : ∀ p, inDirectory cfg.directory p = true → w.files.SameAt w'.files p
  currentSize : w'.manager.currentSize = w.manager.currentSize

/-- A failure that comes before `create_blob_file`, or is the quota's: the file
opens and the quota refuses a chunk before any message that is not one. -/
def CleanFailure (cfg : Config) (opens : Bool) (w : World) : List PutStreamingRequest → Prop
  | .metadata m :: rest => checkApiVersion m.apiVersion = true → w.manager.Live m.sessionId →
      opens = true ∧ (scan cfg.quota w.manager.currentSize rest).1 = .refused
  | _ => True

variable {cfg : Config} {env : PutEnv} {w w' : World} {s : ℕ}

theorem NoTrace.refl (cfg : Config) (w : World) : NoTrace cfg w w :=
  ⟨.refl _, fun _ _ _ => Iff.rfl, fun p _ => .refl _ p, rfl⟩

theorem not_noTrace_of_entry (hw : WorldInv cfg w) {e : Path × ℕ}
    (he : w'.manager.Entry s (w.manager.blobId + 1) e) : ¬ NoTrace cfg w w' := by
  intro h
  have hle := (hw.blobIds _ _ _ ((h.entries _ _ _).mp he)).2
  omega

theorem Uploaded.new_entry {chunks : List Bytes} (h : Uploaded cfg env s chunks w w') :
    w'.manager.Entry s (w.manager.blobId + 1)
      (uploadPath cfg (w.manager.blobId + 1), totalLength chunks % 2^64) :=
  (h.entry _ _ _).mpr (Or.inr ⟨rfl, rfl, rfl⟩)

theorem noTrace_refused (hw : WorldInv cfg w) {chunks : List Bytes} {e : Path × ℕ} {w₁ : World}
    (hup : Uploaded cfg env s chunks w w₁)
    (her : World.Erases cfg s (w.manager.blobId + 1) e w₁ w') : NoTrace cfg w w' := by
  obtain rfl := her.found.unique hup.new_entry
  refine ⟨hup.sessions.trans her.sessions, ?_, ?_, ?_⟩
  · intro r c e
    rw [her.entry, hup.entry]
    constructor
    · rintro ⟨hold | ⟨rfl, rfl, _⟩, hne⟩
      · exact hold
      · exact absurd ⟨rfl, rfl⟩ hne
    · intro hold
      refine ⟨Or.inl hold, fun ⟨_, hc⟩ => ?_⟩
      have hle := (hw.blobIds _ _ _ hold).2
      omega
  · intro p _
    have hnames := her.names p
    by_cases hp : p = uploadPath cfg (w.manager.blobId + 1)
    · rw [if_pos hp] at hnames
      have habsent := hp ▸ hup.absent
      exact ⟨hnames.trans habsent.symm,
        by rw [FileSystem.contents_absent hnames, FileSystem.contents_absent habsent]⟩
    · rw [if_neg hp] at hnames
      refine (hup.sameAt hp).trans ⟨hnames, ?_⟩
      simp only [FileSystem.contents, hnames, her.data]
  · rw [her.currentSize, hup.currentSize, release_charged hw.currentSize_lt]

/-- An upload that ends in an error status, in any reachable state and with the
deletions succeeding, leaves no trace exactly when it failed cleanly. -/
theorem put_noTrace_iff {σ : System} {messages : List PutStreamingRequest} {status : Status}
    {blob : Option BlobReference} (hσ : Reachable cfg σ) (hdel : env.deletes = .succeeds)
    (hput : put cfg env messages σ.shared = some (.returned status blob, w'))
    (hfail : status.code ≠ .ok) :
    NoTrace cfg σ.shared w' ↔ CleanFailure cfg env.opens σ.shared messages := by
  have hw := hσ.world
  have hexit := put_exit hw hσ.1 hput
  generalize ho : PutOutcome.returned status blob = o at hexit
  cases hexit with
  | @rejected messages _ _ hnot =>
    refine ⟨fun _ => ?_, fun _ => .refl cfg _⟩
    unfold CleanFailure
    split
    · rename_i m rest
      exact fun hv hl => absurd hl (hnot m rest rfl hv)
    · trivial
  | cannotOpen hv hopen hreg =>
    have hentry := (hreg.entry _ _ _).mpr (Or.inr ⟨rfl, rfl, rfl, fun ⟨e, he⟩ => by
      have hle := (hw.blobIds _ _ _ he).2
      omega⟩)
    refine ⟨fun h => absurd h (not_noTrace_of_entry hw hentry), fun h => ?_⟩
    rw [(h hv hreg.live).1] at hopen
    cases hopen
  | brokenOff hv hopen hscan hup =>
    refine ⟨fun h => absurd h (not_noTrace_of_entry hw hup.new_entry), fun h => ?_⟩
    have hend := (h hv hup.live).2
    rw [hscan] at hend
    cases hend
  | refused hv hopen hscan hup her =>
    refine ⟨fun _ _ _ => ⟨hopen, by rw [hscan]⟩, fun _ => noTrace_refused hw hup her⟩
  | refusedFails _ _ _ _ hno => exact absurd hdel hno
  | mismatch hv hopen hscan _ hup =>
    refine ⟨fun h => absurd h (not_noTrace_of_entry hw hup.new_entry), fun h => ?_⟩
    have hend := (h hv hup.live).2
    rw [hscan] at hend
    cases hend
  | mismatchFails => cases ho
  | answered hv hopen hscan _ hup =>
    -- only the tag can still fail, and that is an exception, not a status
    rcases putResponse_cases cfg _ (σ.shared.manager.blobId + 1) with ⟨tag, _, hr⟩ | ⟨what, hr⟩
    · rw [hr] at ho
      cases ho
      exact absurd rfl hfail
    · rw [hr] at ho
      cases ho

def brokenOffUpload : List PutStreamingRequest :=
  [.metadata ⟨1, 1, none⟩, .chunk [1, 2, 3], .unset]

theorem put_leaves_trace : ¬ ∀ (cfg : Config) (env : PutEnv) (σ : System)
    (messages : List PutStreamingRequest) (status : Status) (blob : Option BlobReference)
    (w' : World), Reachable cfg σ → env.deletes = .succeeds →
    put cfg env messages σ.shared = some (.returned status blob, w') → status.code ≠ .ok →
    NoTrace cfg σ.shared w' := by
  intro h
  obtain ⟨⟨o, w'⟩, hput, hres⟩ := Option.map_eq_some_iff.mp
    (by decide : (put smallConfig .calm brokenOffUpload (oneSession none).shared).map
      (fun r => (r.1, r.2.manager.currentSize)) = some (.returned PutStatus.notChunk none, 3))
  obtain ⟨rfl, hcur⟩ := Prod.mk.inj hres
  have htrace := h smallConfig .calm (oneSession none) brokenOffUpload _ _ w'
    (oneSession_reachable none) rfl hput (by decide)
  have hsame := htrace.currentSize
  rw [hcur] at hsame
  exact absurd hsame (by decide)

theorem put_noTrace_iff_exhausted : ∃ w',
    put smallConfig .calm [.metadata ⟨1, 1, none⟩, .chunk [1, 2, 3], .chunk [4, 5, 6, 7, 8, 9, 10, 11]]
      (oneSession none).shared = some (.returned PutStatus.exhausted none, w') ∧
    NoTrace smallConfig (oneSession none).shared w' := by
  obtain ⟨⟨o, w'⟩, hput, rfl⟩ := Option.map_eq_some_iff.mp
    (by decide : (put smallConfig .calm
      [.metadata ⟨1, 1, none⟩, .chunk [1, 2, 3], .chunk [4, 5, 6, 7, 8, 9, 10, 11]]
      (oneSession none).shared).map Prod.fst = some (.returned PutStatus.exhausted none))
  exact ⟨w', hput, (put_noTrace_iff (oneSession_reachable none) rfl hput (by decide)).mpr
    fun _ _ => by decide⟩

end BlobRelay
