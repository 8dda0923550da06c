import BlobRelay.ConcurrentPuts
import BlobRelay.Lifetime

/-! # The service comes to rest

No handler waits for another: every step that is not stopped by an erased session can be
taken. No handler goes on for ever either: what it has left to do is bounded by its
messages, the ids it deletes and the bytes that it may still read. -/

namespace BlobRelay
open Foundation Foundation.FileStore

/-- The session that the handler's next step reaches through a reference. -/
def Handler.reference : Handler → Option ℕ
  | .remove s _ (.removing (_ :: _)) => some s
  | .dispose s .listing => some s
  | .dispose s (.deleting _) => some s
  | t => t.uses

/-- The handler's next step would use a session that has been erased. -/
def Dangles (w : World) (t : Handler) : Prop := ∃ s, t.reference = some s ∧ ¬ w.manager.Live s

/-! ### How much is left -/

/-- No file that is read gets longer than `bytes`. -/
def GetPc.stepsLeft (bytes : ℕ) : GetPc → ℕ
  | .called => bytes + 11
  | .ownerLookup _ _ => bytes + 10
  | .ownerHeld _ _ => bytes + 9
  | .resolving _ => bytes + 8
  | .findHeld _ => bytes + 7
  | .tagging _ _ => bytes + 6
  | .tagHeld _ _ => bytes + 5
  | .authorised _ => bytes + 4
  | .sizing _ => bytes + 3
  | .opening _ _ => bytes + 2
  | .reading s _ => bytes - s.pos + 1
  | .finished _ _ => 0

def RemovePc.stepsLeft (ids : List ℕ) : RemovePc → ℕ
  | .called => ids.length + 2
  | .removing rest => rest.length + 1
  | .finished _ => 0

/-- The session has no more than `entries` entries when they are listed. -/
def DisposePc.stepsLeft (entries : ℕ) : DisposePc → ℕ
  | .called => entries + 3
  | .listing => entries + 2
  | .deleting rest => rest.length + 1
  | .finished _ => 0

def Handler.work (bytes entries : ℕ) : Handler → ℕ
  | .put messages pc => pc.stepsLeft messages
  | .get _ pc => pc.stepsLeft bytes
  | .remove _ ids pc => pc.stepsLeft ids
  | .dispose _ pc => pc.stepsLeft entries

/-- No session has more than `n` entries. -/
def AtMost (n : ℕ) (w : World) : Prop :=
  ∀ s (ids : List ℕ), ids.Nodup → (∀ b ∈ ids, ∃ e, w.manager.Entry s b e) → ids.length ≤ n

/-- What the uploads may still write and register is counted in. -/
structure Bounded (bytes entries : ℕ) (σ : System) : Prop where
  files : ∀ i, (σ.shared.files.data i).length + σ.total Handler.load ≤ bytes
  entries : ∃ n, AtMost n σ.shared ∧ n + σ.total Handler.waiting ≤ entries

/-- What a step writes and registers, its handler has no longer to write and register. -/
structure Spends (w : World) (t : Handler) (w' : World) (t' : Handler) : Prop where
  bytes : ∀ i, (w'.files.data i).length + t'.load ≤ (w.files.data i).length + t.load
  entries : ∀ n, AtMost n w → ∃ n', AtMost n' w' ∧ n' + t'.waiting ≤ n + t.waiting

variable {cfg : Config} {f : Fault} {messages : List PutStreamingRequest} {w w' : World}
  {t t' : Handler}

theorem AtMost.keeps {n : ℕ} (h : AtMost n w)
    (hsub : ∀ s b e, w'.manager.Entry s b e → ∃ e', w.manager.Entry s b e') : AtMost n w' := by
  intro s ids hnodup hids
  refine h s ids hnodup fun b hb => ?_
  obtain ⟨e, he⟩ := hids b hb
  exact hsub s b e he

theorem AtMost.registers {n s b : ℕ} {path : Path} (h : AtMost n w)
    (hreg : World.Registers cfg s b path w w') : AtMost (n + 1) w' := by
  intro r ids hnodup hids
  have hold : ∀ c ∈ ids.erase b, ∃ e, w.manager.Entry r c e := by
    intro c hc
    obtain ⟨hne, hc⟩ := hnodup.mem_erase_iff.mp hc
    obtain ⟨e, he⟩ := hids c hc
    rcases (hreg.entry r c e).mp he with he | ⟨_, hcb, _⟩
    · exact ⟨e, he⟩
    · exact absurd hcb hne
  have hle := h r (ids.erase b) (hnodup.erase b) hold
  have hlen := List.le_length_erase (a := b) (l := ids)
  omega

theorem AtMost.listed {n s : ℕ} {impl : BlobSessionImpl} (h : AtMost n w)
    (hs : w.manager.blobSessions[s]? = some impl) : impl.entries.length ≤ n := by
  refine h s impl.entries Std.ExtTreeMap.nodup_keys fun b hb => ?_
  obtain ⟨e, he⟩ := (OrderedMap.mem_keys_iff _ _).mp hb
  exact ⟨e, impl, hs, he⟩

theorem Spends.same (hload : t'.load ≤ t.load) (hwaiting : t'.waiting ≤ t.waiting) :
    Spends w t w t' :=
  ⟨fun i => by omega, fun n hn => ⟨n, hn, by omega⟩⟩

theorem Spends.files {fs : Files} (hdata : ∀ i, (fs.data i).length ≤ (w.files.data i).length)
    (hload : t'.load ≤ t.load) (hwaiting : t'.waiting ≤ t.waiting) :
    Spends w t {w with files := fs} t' := by
  refine ⟨fun i => ?_, fun n hn => ⟨n, hn, by omega⟩⟩
  have hi := hdata i
  show (fs.data i).length + _ ≤ _
  omega

theorem data_erases {s b : ℕ} {e : Path × ℕ} (h : World.Erases cfg s b e w w') :
    w'.files.data = w.files.data := by
  rw [h.files]
  split <;> rfl

theorem Spends.erases {s b : ℕ} {e : Path × ℕ} (h : World.Erases cfg s b e w w')
    (hload : t'.load ≤ t.load) (hwaiting : t'.waiting ≤ t.waiting) : Spends w t w' t' := by
  refine ⟨fun i => ?_, fun n hn => ⟨n, hn.keeps fun r c e' he => ?_, by omega⟩⟩
  · rw [data_erases h]
    omega
  · exact ⟨e', ((h.entry r c e').mp he).1⟩

/-! ### What one step takes -/

theorem waiting_some {pc : PutPc} {u : Upload} (h : pc.upload = some u) :
    (Handler.put messages pc).waiting = 0 := by
  simp only [Handler.waiting, Handler.upload, h, Option.isNone_some, Bool.false_eq_true, if_false]

theorem waiting_le_one (t : Handler) : t.waiting ≤ 1 := by
  unfold Handler.waiting
  split <;> omega

theorem load_chunk {u : Upload} {out : OutStream} {n : ℕ} {bytes : Bytes}
    {rest : List PutStreamingRequest} :
    (Handler.put messages (.receiving u out n (.chunk bytes :: rest))).load =
      bytes.length + (payload rest).length := by
  rw [Handler.load, Handler.pending, PutPc.pending, payload, List.length_append]

theorem spends_charged {u : Upload} {out : OutStream} {n : ℕ} {bytes : Bytes}
    {rest : List PutStreamingRequest} {e : Path × ℕ}
    (h : World.Charges cfg u.session u.blobId bytes.length e w w') :
    Spends w (.put messages (.receiving u out n (.chunk bytes :: rest)))
      {w' with files := (out.write f.writes bytes w'.files).2}
      (.put messages (.receiving u (out.write f.writes bytes w'.files).1
        (add64 n bytes.length) rest)) := by
  refine ⟨fun i => ?_, fun k hk => ⟨k, hk.keeps fun r c e' he => ?_, ?_⟩⟩
  · rw [load_chunk]
    show ((out.write f.writes bytes w'.files).2.data i).length + (payload rest).length ≤ _
    have hle := out.length_write_le f.writes bytes w'.files i
    rw [h.files] at hle ⊢
    omega
  · have hnew := (h.entry r c e').mp he
    split at hnew
    · rename_i hrc
      exact ⟨e, hrc.1 ▸ hrc.2 ▸ h.found⟩
    · exact ⟨e', hnew⟩
  · rw [waiting_some rfl, waiting_some rfl]

theorem putStepped_spends {pc pc' : PutPc} (h : PutStepped cfg f messages w pc w' pc') :
    Spends w (.put messages pc) w' (.put messages pc') := by
  have hended : ∀ {u o}, (Handler.put messages (.finished u o)).load = 0 := rfl
  cases h with
  | rejected => exact .same (Nat.zero_le _) (waiting_le_one _)
  | located hm =>
    refine .same ?_ le_rfl
    subst hm
    exact le_rfl
  | created hreg =>
    refine ⟨fun i => ?_, fun n hn => ⟨n + 1, hn.registers hreg, ?_⟩⟩
    · rw [hreg.files]
      exact le_rfl
    · rw [waiting_some rfl]
      exact le_rfl
  | cannotOpen => exact .same (Nat.zero_le _) le_rfl
  | opened hopen => exact .files (FileSystem.length_openWrite_le hopen) le_rfl le_rfl
  | closed => exact .files (OutStream.length_close_le _ _ _) le_rfl le_rfl
  | charged hch => exact spends_charged hch
  | refused => exact .files (OutStream.length_close_le _ _ _) (Nat.zero_le _) le_rfl
  | lost =>
    refine ⟨fun i => ?_, fun n hn => ⟨n, hn.keeps fun _ _ e he => ⟨e, he⟩, le_rfl⟩⟩
    rw [hended]
    exact Nat.le_add_right_of_le (OutStream.length_close_le _ _ _ i)
  | notChunk => exact .files (OutStream.length_close_le _ _ _) (Nat.zero_le _) le_rfl
  | deletedNothing => exact .same le_rfl le_rfl
  | deleted her => exact .erases her le_rfl le_rfl
  | deleteFails =>
    exact ⟨fun i => le_rfl, fun n hn => ⟨n, hn.keeps fun _ _ e he => ⟨e, he⟩, le_rfl⟩⟩
  | mismatchFails => exact .same le_rfl le_rfl
  | mismatch => exact .files (fun i => le_rfl) le_rfl le_rfl
  | accepted => exact .same le_rfl le_rfl
  | answered => exact .same le_rfl le_rfl

theorem deleteStepped_spends {s : ℕ} {b : Option ℕ} (h : DeleteStepped cfg f w s b w')
    (hload : t'.load ≤ t.load) (hwaiting : t'.waiting ≤ t.waiting) : Spends w t w' t' := by
  cases h with
  | same => exact .same hload hwaiting
  | deleted her => exact .erases her hload hwaiting
  | deleteFails =>
    refine ⟨fun i => ?_, fun n hn => ⟨n, hn.keeps fun _ _ e he => ⟨e, he⟩, by omega⟩⟩
    dsimp only
    omega

theorem handlerStep_spends (h : handlerStep cfg f w t = some (w', t')) : Spends w t w' t' := by
  cases t with
  | put messages pc =>
    obtain ⟨pc', rfl, hput⟩ := handlerStep_put h
    exact putStepped_spends hput
  | get request pc =>
    obtain ⟨rfl, pc', rfl, _⟩ := handlerStep_get h
    exact .same le_rfl le_rfl
  | remove s ids pc =>
    obtain ⟨⟨pc', rfl⟩, hdel⟩ := handlerStep_remove h
    exact deleteStepped_spends hdel le_rfl le_rfl
  | dispose s pc =>
    obtain ⟨⟨pc', rfl⟩, ⟨_, hdel⟩ | ⟨_, _, rfl⟩⟩ := handlerStep_dispose h
    · exact deleteStepped_spends hdel le_rfl le_rfl
    · refine ⟨fun i => le_rfl, fun n hn => ⟨n, hn.keeps fun r b e he => ?_, le_rfl⟩⟩
      exact ⟨e, (BlobSessionManager.entry_dispose.mp he).1⟩

theorem putStepped_work {pc pc' : PutPc} (h : PutStepped cfg f messages w pc w' pc') :
    pc'.stepsLeft messages < pc.stepsLeft messages := by
  cases h with
  | located hm =>
    subst hm
    simp only [PutPc.stepsLeft, List.length_cons]
    omega
  | _ =>
    simp only [PutPc.stepsLeft, List.length_cons, List.length_nil]
    omega

section Get
variable {request : GetStreamingRequest} {bytes : ℕ}

theorem ofExcept_work {α : Type} {next : α → GetPc} {x : Except GetExit α} {n : ℕ} (hn : 0 < n)
    (hnext : ∀ a, (next a).stepsLeft bytes < n) : (GetPc.ofExcept next x).stepsLeft bytes < n := by
  cases x with
  | ok a => exact hnext a
  | error e => exact hn

theorem getStepped_work {pc pc' : GetPc} (hfiles : ∀ i, (w.files.data i).length ≤ bytes)
    (hpc : 0 < pc.stepsLeft bytes) (h : GetStepped cfg f request w pc pc') :
    pc'.stepsLeft bytes < pc.stepsLeft bytes := by
  cases h with
  | raised => exact hpc
  | denied => exact hpc
  | contextRead =>
    unfold GetPc.afterContext
    split <;> simp only [GetPc.stepsLeft] <;> omega
  | ownerChecked =>
    refine ofExcept_work hpc fun _ => ?_
    simp only [GetPc.stepsLeft]
    omega
  | opened =>
    simp only [GetPc.stepsLeft]
    omega
  | sent hsome =>
    obtain ⟨hmoves, i, hle⟩ := InStream.read_moves hsome
    have hi := hfiles i
    simp only [GetPc.stepsLeft]
    omega
  | _ =>
    simp only [GetPc.stepsLeft]
    omega

end Get

theorem deleteBlobFile_next {α : Type} {s b : ℕ} {d : DeleteResult} {failed : Exn → α} {next : α}
    {x : World × α} (h : (match w.deleteBlobFile cfg s b d with
      | none => none
      | some (.error e, w) => some (w, failed e)
      | some (.ok (), w) => some (w, next)) = some x) : (∃ e, x.2 = failed e) ∨ x.2 = next := by
  split at h
  · cases h
  · cases h
    exact Or.inl ⟨_, rfl⟩
  · cases h
    exact Or.inr rfl

theorem removeStep_work {s : ℕ} {ids : List ℕ} {pc pc' : RemovePc}
    (h : removeStep cfg f s ids w pc = some (w', pc')) : pc'.stepsLeft ids < pc.stepsLeft ids := by
  cases pc with
  | called =>
    dsimp only [removeStep] at h
    split at h
    · cases h
      simp only [RemovePc.stepsLeft]
      omega
    · cases h
      simp only [RemovePc.stepsLeft]
      omega
  | removing rest =>
    cases rest with
    | nil =>
      cases h
      exact Nat.zero_lt_one
    | cons b rest =>
      rcases deleteBlobFile_next h with ⟨e, he⟩ | he
      · rw [show pc' = _ from he]
        exact Nat.succ_pos _
      · rw [show pc' = _ from he]
        simp only [RemovePc.stepsLeft, List.length_cons]
        omega
  | finished r => cases h

theorem disposeStep_work {s entries : ℕ} {pc pc' : DisposePc} (hentries : AtMost entries w)
    (h : disposeStep cfg f s w pc = some (w', pc')) :
    pc'.stepsLeft entries < pc.stepsLeft entries := by
  cases pc with
  | called =>
    dsimp only [disposeStep] at h
    split at h
    · cases h
      simp only [DisposePc.stepsLeft]
      omega
    · cases h
      simp only [DisposePc.stepsLeft]
      omega
  | listing =>
    obtain ⟨impl, hs, he⟩ := Option.map_eq_some_iff.mp h
    cases he
    have hle := hentries.listed hs
    simp only [DisposePc.stepsLeft]
    omega
  | deleting rest =>
    cases rest with
    | nil =>
      obtain ⟨impl, hs, he⟩ := Option.map_eq_some_iff.mp h
      cases he
      exact Nat.zero_lt_one
    | cons b rest =>
      rcases deleteBlobFile_next h with ⟨e, he⟩ | he
      · rw [show pc' = _ from he]
        exact Nat.succ_pos _
      · rw [show pc' = _ from he]
        simp only [DisposePc.stepsLeft, List.length_cons]
        omega
  | finished r => cases h

theorem handlerStep_work {bytes entries : ℕ} (hfiles : ∀ i, (w.files.data i).length ≤ bytes)
    (hentries : AtMost entries w) (h : handlerStep cfg f w t = some (w', t')) :
    t'.work bytes entries < t.work bytes entries := by
  cases t with
  | put messages pc =>
    obtain ⟨pc', rfl, hput⟩ := handlerStep_put h
    exact putStepped_work hput
  | get request pc =>
    obtain ⟨_, pc', rfl, hget⟩ := handlerStep_get h
    refine getStepped_work hfiles ?_ hget
    cases pc with
    | finished o ws => cases h
    | _ => exact Nat.succ_pos _
  | remove s ids pc =>
    obtain ⟨x, hx, he⟩ := Option.map_eq_some_iff.mp h
    cases he
    exact removeStep_work hx
  | dispose s pc =>
    obtain ⟨x, hx, he⟩ := Option.map_eq_some_iff.mp h
    cases he
    exact disposeStep_work hentries hx

/-! ### Nobody waits -/

theorem putStep_of_live (cfg : Config) (f : Fault) {pc : PutPc} (hpc : (Handler.put messages pc).finished = false)
    (hl : ∀ s, (Handler.put messages pc).reference = some s → w.manager.Live s) :
    ∃ r, putStep cfg f messages w pc = some r := by
  cases pc with
  | called =>
    dsimp only [putStep]
    split
    · exact ⟨_, rfl⟩
    · split
      · split <;> exact ⟨_, rfl⟩
      · exact ⟨_, rfl⟩
    · exact ⟨_, rfl⟩
    · exact ⟨_, rfl⟩
  | located s blobSizeOpt rest =>
    obtain ⟨⟨b, path⟩, w₁, hc⟩ := World.createBlobFile_of_live cfg (hl s rfl)
    dsimp only [putStep]
    rw [hc]
    exact ⟨_, rfl⟩
  | created u rest =>
    dsimp only [putStep]
    split <;> exact ⟨_, rfl⟩
  | receiving u out n rest =>
    cases rest with
    | nil => exact ⟨_, rfl⟩
    | cons m rest =>
      cases m with
      | chunk bytes =>
        obtain ⟨r, w₁, hr⟩ :=
          World.reserveSessionStore_of_live cfg (hl u.session rfl) u.blobId bytes.length
        dsimp only [putStep]
        rw [hr]
        rcases r with _ | _ | _ <;> exact ⟨_, rfl⟩
      | metadata m => exact ⟨_, rfl⟩
      | unset => exact ⟨_, rfl⟩
  | exhausted u =>
    obtain ⟨r, w₁, hr⟩ :=
      World.deleteBlobFile_of_live cfg (hl u.session rfl) u.blobId f.deletes
    dsimp only [putStep]
    rw [hr]
    cases r <;> exact ⟨_, rfl⟩
  | received u n =>
    dsimp only [putStep]
    split
    · split <;> exact ⟨_, rfl⟩
    · exact ⟨_, rfl⟩
  | tagging u =>
    obtain ⟨impl, hs⟩ := hl u.session rfl
    dsimp only [putStep]
    rw [hs]
    exact ⟨_, rfl⟩
  | finished u o => cases hpc

theorem getPcStep_of_live (cfg : Config) (f : Fault) {request : GetStreamingRequest} {pc : GetPc}
    (hpc : (Handler.get request pc).finished = false)
    (hl : ∀ s, (Handler.get request pc).reference = some s → w.manager.Live s) :
    ∃ pc', getPcStep cfg f request w pc = some pc' := by
  have hheld : ∀ {s : ℕ} (g : BlobSessionImpl → GetPc), w.manager.Live s →
      ∃ pc', (w.manager.blobSessions[s]?).map g = some pc' := by
    intro s g ⟨impl, hs⟩
    exact ⟨g impl, by rw [hs, Option.map_some]⟩
  cases pc with
  | ownerHeld ctx t => exact hheld _ (hl ctx.sessionId rfl)
  | findHeld ctx => exact hheld _ (hl ctx.sessionId rfl)
  | tagHeld ctx path => exact hheld _ (hl ctx.sessionId rfl)
  | finished o ws => cases hpc
  | ownerLookup ctx t => exact ⟨_, rfl⟩
  | resolving ctx =>
    dsimp only [getPcStep]
    split
    · split <;> exact ⟨_, rfl⟩
    · split <;> exact ⟨_, rfl⟩
  | authorised path =>
    dsimp only [getPcStep]
    split
    · exact ⟨_, rfl⟩
    · split <;> exact ⟨_, rfl⟩
  | _ =>
    dsimp only [getPcStep]
    split <;> exact ⟨_, rfl⟩

theorem handlerStep_of_live (cfg : Config) (f : Fault) (ht : t.finished = false) (hl : ¬ Dangles w t) :
    ∃ r, handlerStep cfg f w t = some r := by
  have hlive : ∀ s, t.reference = some s → w.manager.Live s := by
    intro s hs
    by_contra hdead
    exact hl ⟨s, hs, hdead⟩
  cases t with
  | put messages pc =>
    obtain ⟨r, hr⟩ := putStep_of_live cfg f ht hlive
    exact ⟨_, congrArg (Option.map _) hr⟩
  | get request pc =>
    obtain ⟨pc', hr⟩ := getPcStep_of_live cfg f ht hlive
    exact ⟨_, congrArg (Option.map _) hr⟩
  | remove s ids pc =>
    cases pc with
    | called =>
      dsimp only [handlerStep, removeStep]
      split <;> exact ⟨_, rfl⟩
    | removing rest =>
      cases rest with
      | nil => exact ⟨_, rfl⟩
      | cons b rest =>
        obtain ⟨r, w₁, hr⟩ := World.deleteBlobFile_of_live cfg (hlive s rfl) b f.deletes
        dsimp only [handlerStep, removeStep]
        rw [hr]
        cases r <;> exact ⟨_, rfl⟩
    | finished r => cases ht
  | dispose s pc =>
    cases pc with
    | called =>
      dsimp only [handlerStep, disposeStep]
      split <;> exact ⟨_, rfl⟩
    | listing =>
      obtain ⟨impl, hs⟩ := hlive s rfl
      dsimp only [handlerStep, disposeStep]
      rw [hs]
      exact ⟨_, rfl⟩
    | deleting rest =>
      cases rest with
      | nil =>
        obtain ⟨impl, hs⟩ := hlive s rfl
        dsimp only [handlerStep, disposeStep]
        rw [hs]
        exact ⟨_, rfl⟩
      | cons b rest =>
        obtain ⟨r, w₁, hr⟩ := World.deleteBlobFile_of_live cfg (hlive s rfl) b f.deletes
        dsimp only [handlerStep, disposeStep]
        rw [hr]
        cases r <;> exact ⟨_, rfl⟩
    | finished r => cases ht

/-! ### The whole service -/

/-- The moves when nothing new comes from outside: only handlers go on. -/
def Inside (_ : System) : SystemMove → Prop
  | .run _ _ => True
  | _ => False

theorem bounded_step {bytes entries : ℕ} {σ σ' : System} {l : SystemMove}
    (h : Bounded bytes entries σ) (hl : Inside σ l) (hst : systemStep cfg l σ = some σ') :
    Bounded bytes entries σ' ∧
      σ'.total (Handler.work bytes entries) < σ.total (Handler.work bytes entries) := by
  cases l with
  | env a => cases hl
  | call c => cases hl
  | run i f =>
    obtain ⟨t, w, t', ht, hone, rfl⟩ := Pool.step_run hst
    have hspends := handlerStep_spends hone
    obtain ⟨n, hn, hle⟩ := h.entries
    obtain ⟨n', hn', hle'⟩ := hspends.entries n hn
    have hload := Pool.total_run Handler.load ht w t'
    have hwaiting := Pool.total_run Handler.waiting ht w t'
    have hwork := Pool.total_run (Handler.work bytes entries) ht w t'
    have hfew : AtMost entries σ.shared := fun s ids hnodup hids =>
      (hn s ids hnodup hids).trans (by omega)
    have hless := handlerStep_work (fun i => (Nat.le_add_right _ _).trans (h.files i)) hfew hone
    refine ⟨⟨fun k => ?_, n', hn', ?_⟩, ?_⟩
    · have hold := h.files k
      have hnew := hspends.bytes k
      show (w.files.data k).length + _ ≤ bytes
      omega
    · have hone' := Pool.le_total Handler.waiting ht
      omega
    · omega

theorem bounded_of {σ : System} {bytes entries : ℕ}
    (hbytes : ∀ i, (σ.shared.files.data i).length ≤ bytes)
    (hentries : ∀ (s : ℕ) impl, σ.shared.manager.blobSessions[s]? = some impl →
      impl.entries.length ≤ entries) :
    Bounded (bytes + σ.total Handler.load) (entries + σ.threads.length) σ := by
  refine ⟨fun i => Nat.add_le_add_right (hbytes i) _, entries, ?_, ?_⟩
  · intro s ids hnodup hids
    cases hs : σ.shared.manager.blobSessions[s]? with
    | none =>
      have hnil : ids = [] := List.eq_nil_iff_forall_not_mem.mpr fun b hb => by
        obtain ⟨e, impl, hi, _⟩ := hids b hb
        rw [hs] at hi
        cases hi
      rw [hnil]
      exact Nat.zero_le _
    | some impl =>
      refine (hnodup.subperm fun b hb => ?_).length_le.trans (hentries s impl hs)
      obtain ⟨e, impl', hi, hb⟩ := hids b hb
      obtain rfl := Option.some.inj (hs.symm.trans hi)
      exact (OrderedMap.mem_keys_iff _ _).mpr ⟨e, hb⟩
  · refine Nat.add_le_add_left ?_ entries
    have hle := List.sum_le_card_nsmul (σ.threads.map Handler.waiting) 1 fun n hn => by
      obtain ⟨t, _, rfl⟩ := List.mem_map.mp hn
      exact waiting_le_one t
    simpa [Pool.total] using hle

theorem stuck_ended {σ : System} (h : ∀ l, Inside σ l → systemStep cfg l σ = none) {t : Handler}
    (ht : t ∈ σ.threads) : t.finished = true ∨ Dangles σ.shared t := by
  obtain ⟨i, hi⟩ := List.mem_iff_getElem?.mp ht
  cases hfin : t.finished with
  | true => exact Or.inl rfl
  | false =>
    right
    by_contra hlive
    obtain ⟨r, hr⟩ := handlerStep_of_live cfg .none hfin hlive
    have hnone := h (.run i .none) trivial
    simp only [systemStep, Pool.step, hi, Option.bind_some, hr, Option.map_some] at hnone
    cases hnone

/-- Left to its handlers, the service makes a bounded number of steps, whatever their order
and however the file-system calls end, and from wherever it is they can go on until each
has ended or would use an erased session. -/
theorem comes_to_rest {σ σ' : System} {bytes entries : ℕ} {ls : List SystemMove}
    (hbytes : ∀ i, (σ.shared.files.data i).length ≤ bytes)
    (hentries : ∀ (s : ℕ) impl, σ.shared.manager.blobSessions[s]? = some impl →
      impl.entries.length ≤ entries)
    (hrun : Run (systemStep cfg) Inside σ ls σ') :
    ls.length ≤ σ.total (Handler.work (bytes + σ.total Handler.load)
        (entries + σ.threads.length)) ∧
      ∃ ms σ'', Run (systemStep cfg) Inside σ' ms σ'' ∧
        ∀ t ∈ σ''.threads, t.finished = true ∨ Dangles σ''.shared t := by
  have hstep := fun (σ₁ : System) l σ₂
      (h : Bounded (bytes + σ.total Handler.load) (entries + σ.threads.length) σ₁)
      (hl : Inside σ₁ l) (hst : systemStep cfg l σ₁ = some σ₂) => bounded_step h hl hst
  obtain ⟨hbound, hlen⟩ := hrun.length_le _ _ hstep (bounded_of hbytes hentries)
  obtain ⟨ms, σ'', hrest, hstuck⟩ := Run.exists_rest _ _ hstep hbound
  exact ⟨by omega, ms, σ'', hrest, fun t ht => stuck_ended hstuck ht⟩

theorem oneSession_entries (s : ℕ) (impl : BlobSessionImpl)
    (hs : (oneSession none).shared.manager.blobSessions[s]? = some impl) :
    impl.entries.length ≤ 0 := by
  simp only [oneSession, BlobSessionManager.createSession, OrderedMap.get_insertIfNew] at hs
  split at hs
  · obtain rfl := Option.some.inj hs
    exact le_rfl
  · simp [smallStart, BlobSessionManager.empty] at hs

/-- Two uploads stopped after a few steps in turns. -/
theorem comes_to_rest_twoUploads : ∃ σ', exec (systemStep smallConfig) (fun _ _ => true)
      ((inTurns.take 6).map fun i => .run i .none) ((oneSession none).calling twoUploads) = some σ' ∧
    ∃ ms σ'', Run (systemStep smallConfig) Inside σ' ms σ'' ∧
      ∀ t ∈ σ''.threads, t.finished = true ∨ Dangles σ''.shared t := by
  obtain ⟨σ', hexec⟩ := Option.isSome_iff_exists.mp
    (by decide : (exec (systemStep smallConfig) (fun _ _ => true)
      ((inTurns.take 6).map fun i => .run i .none)
      ((oneSession none).calling twoUploads)).isSome = true)
  have hrun : Run (systemStep smallConfig) Inside ((oneSession none).calling twoUploads)
      ((inTurns.take 6).map fun i => .run i .none) σ' := by
    refine .of_exec hexec fun _ l hl _ => ?_
    obtain ⟨i, _, rfl⟩ := List.mem_map.mp hl
    trivial
  have hentries : ∀ (s : ℕ) impl,
      ((oneSession none).calling twoUploads).shared.manager.blobSessions[s]? = some impl →
        impl.entries.length ≤ 0 := oneSession_entries
  exact ⟨σ', hexec, (comes_to_rest (fun _ => le_rfl) hentries hrun).2⟩

end BlobRelay
