import BlobRelay.SessionManager

/-! # Operations on one session (session_impl.h, session_impl.cpp)

Each operation takes the session by reference and is one mutex-held section of
the code. A result `none` means that the reference dangles: its session has been
erased and the code's behaviour is undefined. -/

namespace BlobRelay
open Std Foundation.FileStore Foundation.OrderedMap

namespace BlobSessionImpl

def find (impl : BlobSessionImpl) (b : ℕ) : Option Path := impl.blobs[b]?.map Prod.fst

def entries (impl : BlobSessionImpl) : List ℕ := impl.blobs.keys

def computeTag (cfg : Config) (s : ℕ) (b : ℕ) : Except Exn BlobTag :=
  cfg.tagGenerator.generateReferenceTag b s

def getTag (cfg : Config) (impl : BlobSessionImpl) (s : ℕ) (b : ℕ) :
    Except Exn BlobTag :=
  match impl.transactionIdOpt with
  | some t => cfg.api.getTag b t
  | none => cfg.api.getTag b s

end BlobSessionImpl

/-- How the file-system calls of a deletion end. -/
inductive DeleteResult
  | succeeds
  | existsThrows
  | removeThrows
  deriving DecidableEq

namespace World

def add (cfg : Config) (s : ℕ) (path : Path) (w : World) :
    Option (Except Exn ℕ × World) :=
  (w.manager.blobSessions[s]?).map fun _ =>
    let (newBlobId, m) := w.manager.getNewBlobId
    if w.files.present path then
      (.ok newBlobId, {w with manager := m.updateSession s fun i =>
        {i with blobs := i.blobs.insertIfNew newBlobId (cfg.canonical path, 0)}})
    else (.error (.stdException (pathString path ++ " does not exists")), {w with manager := m})

def createBlobFile (cfg : Config) (s : ℕ) (w : World) : Option ((ℕ × Path) × World) :=
  (w.manager.blobSessions[s]?).map fun _ =>
    let (newBlobId, m) := w.manager.getNewBlobId
    let filePath := uploadPath cfg newBlobId
    ((newBlobId, filePath), {w with manager := m.updateSession s fun i =>
      {i with blobs := i.blobs.insertIfNew newBlobId (filePath, 0)}})

/-- The counter goes down before the file-system calls, the entry goes after
them, so a throw between leaves the entry with its reservation given back. -/
def deleteBlobFile (cfg : Config) (s : ℕ) (bid : ℕ) (r : DeleteResult) (w : World) :
    Option (Except Exn Unit × World) :=
  (w.manager.blobSessions[s]?).map fun impl =>
    match impl.blobs[bid]? with
    | none => (.ok (), w)
    | some (path, size) =>
      let m := {w.manager with currentSize := release cfg.quota size w.manager.currentSize}
      let m' := m.updateSession s fun i => {i with blobs := i.blobs.erase bid}
      match r, w.files.present path with
      | .existsThrows, _ => (.error (.filesystemError "status"), {w with manager := m})
      | .removeThrows, true => (.error (.filesystemError "remove"), {w with manager := m})
      | _, true => (.ok (), {manager := m', files := w.files.unlink path})
      | _, false => (.ok (), {w with manager := m'})

def reserveSessionStore (cfg : Config) (s : ℕ) (bid : ℕ) (size : ℕ) (w : World) :
    Option (Except Exn Bool × World) :=
  (w.manager.blobSessions[s]?).map fun impl =>
    let (reserved, currentSize) := reserve cfg.quota size w.manager.currentSize
    if reserved then
      let m := {w.manager with currentSize := currentSize}
      match impl.blobs[bid]? with
      | some _ => (.ok true, {w with manager := m.updateSession s fun i =>
          {i with blobs := i.blobs.modify bid fun e => (e.1, add64 e.2 size)}})
      | none => (.error .mapAt, {w with manager := m})
    else (.ok false, w)

end World

/-! ### What the operations do -/

/-- Sessions, their transactions and the transaction index are as before. -/
structure KeepsSessions (m m' : BlobSessionManager) : Prop where
  sessionId : m'.sessionId = m.sessionId
  index : m'.blobSessionIds = m.blobSessionIds
  owner : ∀ s t, m'.Owner s t ↔ m.Owner s t

namespace KeepsSessions

theorem refl (m : BlobSessionManager) : KeepsSessions m m := ⟨rfl, rfl, fun _ _ => Iff.rfl⟩

theorem trans {a b c : BlobSessionManager} (h : KeepsSessions a b) (h' : KeepsSessions b c) :
    KeepsSessions a c :=
  ⟨h'.sessionId.trans h.sessionId, h'.index.trans h.index,
    fun s t => (h'.owner s t).trans (h.owner s t)⟩

theorem symm {m m' : BlobSessionManager} (h : KeepsSessions m m') : KeepsSessions m' m :=
  ⟨h.sessionId.symm, h.index.symm, fun s t => (h.owner s t).symm⟩

theorem live {m m' : BlobSessionManager} (h : KeepsSessions m m') (s : ℕ) :
    m'.Live s ↔ m.Live s := by
  constructor
  · rintro ⟨impl, hi⟩
    exact ((h.owner s _).mp ⟨impl, hi, rfl⟩).live
  · rintro ⟨impl, hi⟩
    exact ((h.owner s _).mpr ⟨impl, hi, rfl⟩).live

theorem of_updateSession {m m' : BlobSessionManager} (s : ℕ)
    {f : BlobSessionImpl → BlobSessionImpl}
    (hf : ∀ i, (f i).transactionIdOpt = i.transactionIdOpt)
    (hs : m'.sessionId = m.sessionId) (hi : m'.blobSessionIds = m.blobSessionIds)
    (hb : m'.blobSessions = m.blobSessions) : KeepsSessions m (m'.updateSession s f) := by
  refine ⟨hs, hi, fun r t => ?_⟩
  rw [BlobSessionManager.owner_updateSession hf]
  simp only [BlobSessionManager.Owner, hb]

end KeepsSessions

namespace World
variable {cfg : Config} {s : ℕ} {w w' : World}

/-- What registering a new blob does, for `add` and `create_blob_file`. -/
structure Registers (cfg : Config) (s : ℕ) (b : ℕ) (path : Path)
    (w w' : World) : Prop where
  id : b = add64 w.manager.blobId 1
  live : w.manager.Live s
  files : w'.files = w.files
  blobId : w'.manager.blobId = b
  currentSize : w'.manager.currentSize = w.manager.currentSize
  sessions : KeepsSessions w.manager w'.manager
  recorded : w'.manager.recordedTotal = w.manager.recordedTotal
  entry : ∀ r c e, w'.manager.Entry r c e ↔
    w.manager.Entry r c e ∨ (r = s ∧ c = b ∧ e = (path, 0) ∧ ¬ ∃ e', w.manager.Entry s b e')

theorem registers_emplace {impl : BlobSessionImpl} (hs : w.manager.blobSessions[s]? = some impl)
    (path : Path) :
    Registers cfg s (add64 w.manager.blobId 1) path w
      {w with manager := w.manager.getNewBlobId.2.updateSession s fun i =>
        {i with blobs := i.blobs.insertIfNew (add64 w.manager.blobId 1) (path, 0)}} where
  id := rfl
  live := ⟨impl, hs⟩
  files := rfl
  blobId := rfl
  currentSize := rfl
  sessions := .of_updateSession s (fun _ => rfl) rfl rfl rfl
  recorded := by
    have h := BlobSessionManager.recordedTotal_updateSession
      (m := w.manager.getNewBlobId.2) hs fun i =>
        {i with blobs := i.blobs.insertIfNew (add64 w.manager.blobId 1) (path, 0)}
    have hsame : BlobSessionImpl.recordedSize
        {impl with blobs := impl.blobs.insertIfNew (add64 w.manager.blobId 1) (path, 0)} =
          impl.recordedSize := total_insertIfNew_zero _ _ _ _ rfl
    rw [hsame] at h
    exact Nat.add_right_cancel h
  entry r c e := by
    rw [BlobSessionManager.entry_updateSession]
    have hentry : ∀ c e, w.manager.Entry s c e ↔ impl.blobs[c]? = some e := by
      intro c e
      constructor
      · rintro ⟨i, hi, he⟩
        rw [Option.some.inj (hs.symm.trans hi)]
        exact he
      · exact fun he => ⟨impl, hs, he⟩
    have himpl : w.manager.getNewBlobId.2.blobSessions[s]? = some impl := hs
    have hother : w.manager.getNewBlobId.2.Entry r c e ↔ w.manager.Entry r c e := Iff.rfl
    by_cases hr : s = r
    · subst hr
      simp only [if_true, himpl, Option.some.injEq, exists_eq_left', get_insertIfNew, hentry]
      by_cases hc : add64 w.manager.blobId 1 = c
      · subst hc
        cases hb : impl.blobs[add64 w.manager.blobId 1]? <;> simp [eq_comm]
      · simp [hc, Ne.symm hc]
    · simp [hr, Ne.symm hr, hother]

theorem createBlobFile_spec {b : ℕ} {path : Path}
    (h : createBlobFile cfg s w = some ((b, path), w')) :
    path = uploadPath cfg b ∧ Registers cfg s b path w w' := by
  obtain ⟨impl, hs, he⟩ := Option.map_eq_some_iff.mp h
  cases he
  exact ⟨rfl, registers_emplace hs _⟩

theorem createBlobFile_of_live (cfg : Config) (h : w.manager.Live s) :
    ∃ r w', createBlobFile cfg s w = some (r, w') := by
  obtain ⟨impl, hs⟩ := h
  simp only [createBlobFile, hs, Option.map_some]
  exact ⟨_, _, rfl⟩

theorem add_ok {b : ℕ} {path : Path} (h : add cfg s path w = some (.ok b, w')) :
    w.files.present path = true ∧ Registers cfg s b (cfg.canonical path) w w' := by
  obtain ⟨impl, hs, he⟩ := Option.map_eq_some_iff.mp h
  by_cases hp : w.files.present path = true
  · simp only [hp, if_true] at he
    cases he
    exact ⟨hp, registers_emplace hs _⟩
  · simp [hp] at he

/-- What a deletion that finds an entry and succeeds does. -/
structure Erases (cfg : Config) (s : ℕ) (b : ℕ) (e : Path × ℕ)
    (w w' : World) : Prop where
  found : w.manager.Entry s b e
  currentSize : w'.manager.currentSize = release cfg.quota e.2 w.manager.currentSize
  blobId : w'.manager.blobId = w.manager.blobId
  sessions : KeepsSessions w.manager w'.manager
  recorded : w'.manager.recordedTotal + e.2 = w.manager.recordedTotal
  entry : ∀ r c e', w'.manager.Entry r c e' ↔ w.manager.Entry r c e' ∧ ¬ (r = s ∧ c = b)
  files : w'.files = if w.files.present e.1 then w.files.unlink e.1 else w.files

theorem Erases.names {b : ℕ} {e : Path × ℕ} (h : Erases cfg s b e w w') (q : Path) :
    w'.files.names q = if q = e.1 then none else w.files.names q := by
  rw [h.files]
  by_cases hp : w.files.present e.1 = true
  · rw [if_pos hp, FileSystem.names_unlink]
  · rw [if_neg hp]
    by_cases hq : q = e.1
    · subst hq
      rw [if_pos rfl]
      exact FileSystem.present_eq_false_iff.mp (Bool.eq_false_iff.mpr hp)
    · rw [if_neg hq]

theorem Erases.data {b : ℕ} {e : Path × ℕ} (h : Erases cfg s b e w w') :
    w'.files.data = w.files.data := by
  rw [h.files]
  split <;> rfl

theorem Erases.next {b : ℕ} {e : Path × ℕ} (h : Erases cfg s b e w w') :
    w'.files.next = w.files.next := by
  rw [h.files]
  split <;> rfl

theorem erases_erase (cfg : Config) {impl : BlobSessionImpl} {b : ℕ} {e : Path × ℕ}
    (hs : w.manager.blobSessions[s]? = some impl) (hb : impl.blobs[b]? = some e) :
    Erases cfg s b e w
      {manager := BlobSessionManager.updateSession
        {w.manager with currentSize := release cfg.quota e.2 w.manager.currentSize} s
        fun i => {i with blobs := i.blobs.erase b}
       files := if w.files.present e.1 then w.files.unlink e.1 else w.files} where
  found := ⟨impl, hs, hb⟩
  currentSize := rfl
  blobId := rfl
  sessions := .of_updateSession s (fun _ => rfl) rfl rfl rfl
  recorded := by
    have h := BlobSessionManager.recordedTotal_updateSession
      (m := {w.manager with currentSize := release cfg.quota e.2 w.manager.currentSize}) hs
      fun i => {i with blobs := i.blobs.erase b}
    have hone : BlobSessionImpl.recordedSize {impl with blobs := impl.blobs.erase b} + e.2 =
        impl.recordedSize := by
      have ht := total_erase Prod.snd impl.blobs b
      rwa [hb, weight_some] at ht
    change _ + _ = w.manager.recordedTotal + _ at h
    dsimp only at h ⊢
    omega
  entry r c e' := by
    rw [BlobSessionManager.entry_updateSession]
    simp only [BlobSessionManager.Entry]
    by_cases hr : s = r
    · subst hr
      simp only [if_true, hs, Option.some.injEq, exists_eq_left', get_erase, true_and]
      by_cases hc : b = c
      · simp [hc]
      · simp [hc, Ne.symm hc]
    · simp [hr, Ne.symm hr]
  files := rfl

theorem deleteBlobFile_cases {b : ℕ} {f : DeleteResult} {r : Except Exn Unit}
    (h : deleteBlobFile cfg s b f w = some (r, w')) :
    (w' = w ∧ r = .ok () ∧ w.manager.Live s ∧ ∀ e, ¬ w.manager.Entry s b e) ∨
    (∃ e, r = .ok () ∧ Erases cfg s b e w w') ∨
    (∃ e x, r = .error x ∧ f ≠ .succeeds ∧ w.manager.Entry s b e ∧
      w' = {w with manager := {w.manager with
        currentSize := release cfg.quota e.2 w.manager.currentSize}}) := by
  obtain ⟨impl, hs, he⟩ := Option.map_eq_some_iff.mp h
  cases hb : impl.blobs[b]? with
  | none =>
    simp only [hb] at he
    cases he
    refine Or.inl ⟨rfl, rfl, ⟨impl, hs⟩, fun e ⟨i, hi, hie⟩ => ?_⟩
    rw [← Option.some.inj (hs.symm.trans hi), hb] at hie
    cases hie
  | some e =>
    have hgone := erases_erase cfg hs hb
    have hentry : w.manager.Entry s b e := ⟨impl, hs, hb⟩
    simp only [hb] at he
    cases hp : w.files.present e.1 with
    | true =>
      rw [hp, if_pos rfl] at hgone
      cases f <;> simp only [hp] at he <;> cases he
      · exact Or.inr (Or.inl ⟨e, rfl, hgone⟩)
      · exact Or.inr (Or.inr ⟨e, _, rfl, by decide, hentry, rfl⟩)
      · exact Or.inr (Or.inr ⟨e, _, rfl, by decide, hentry, rfl⟩)
    | false =>
      rw [hp, if_neg (by decide)] at hgone
      cases f <;> simp only [hp] at he <;> cases he
      · exact Or.inr (Or.inl ⟨e, rfl, hgone⟩)
      · exact Or.inr (Or.inr ⟨e, _, rfl, by decide, hentry, rfl⟩)
      · exact Or.inr (Or.inl ⟨e, rfl, hgone⟩)

theorem deleteBlobFile_of_live (cfg : Config) (h : w.manager.Live s) (b : ℕ) (f : DeleteResult) :
    ∃ r w', deleteBlobFile cfg s b f w = some (r, w') := by
  obtain ⟨impl, hs⟩ := h
  simp only [deleteBlobFile, hs, Option.map_some]
  exact ⟨_, _, rfl⟩

/-- What a granted reservation for a registered blob does. -/
structure Charges (cfg : Config) (s : ℕ) (b : ℕ) (size : ℕ) (e : Path × ℕ)
    (w w' : World) : Prop where
  found : w.manager.Entry s b e
  reserved : (reserve cfg.quota size w.manager.currentSize).1 = true
  currentSize : w'.manager.currentSize = (reserve cfg.quota size w.manager.currentSize).2
  files : w'.files = w.files
  blobId : w'.manager.blobId = w.manager.blobId
  sessions : KeepsSessions w.manager w'.manager
  recorded : w'.manager.recordedTotal + e.2 = w.manager.recordedTotal + add64 e.2 size
  entry : ∀ r c e', w'.manager.Entry r c e' ↔
    if r = s ∧ c = b then e' = (e.1, add64 e.2 size) else w.manager.Entry r c e'

theorem charges_modify {impl : BlobSessionImpl} {b : ℕ} {e : Path × ℕ} {size : ℕ}
    (hs : w.manager.blobSessions[s]? = some impl) (hb : impl.blobs[b]? = some e)
    (hr : (reserve cfg.quota size w.manager.currentSize).1 = true) :
    Charges cfg s b size e w
      {manager := BlobSessionManager.updateSession
        {w.manager with currentSize := (reserve cfg.quota size w.manager.currentSize).2} s
        fun i => {i with blobs := i.blobs.modify b fun e => (e.1, add64 e.2 size)}
       files := w.files} where
  found := ⟨impl, hs, hb⟩
  reserved := hr
  currentSize := rfl
  files := rfl
  blobId := rfl
  sessions := .of_updateSession s (fun _ => rfl) rfl rfl rfl
  recorded := by
    have h := BlobSessionManager.recordedTotal_updateSession
      (m := {w.manager with currentSize := (reserve cfg.quota size w.manager.currentSize).2}) hs
      fun i => {i with blobs := i.blobs.modify b fun e => (e.1, add64 e.2 size)}
    have hone : BlobSessionImpl.recordedSize
        {impl with blobs := impl.blobs.modify b fun e => (e.1, add64 e.2 size)} + e.2 =
          impl.recordedSize + add64 e.2 size := by
      have ht := total_modify Prod.snd impl.blobs b fun e => (e.1, add64 e.2 size)
      rwa [hb, Option.map_some, weight_some, weight_some] at ht
    change _ + _ = w.manager.recordedTotal + _ at h
    dsimp only at h ⊢
    omega
  entry r c e' := by
    rw [BlobSessionManager.entry_updateSession]
    simp only [BlobSessionManager.Entry]
    by_cases hr : s = r
    · subst hr
      simp only [if_true, hs, Option.some.injEq, exists_eq_left', get_modify, true_and]
      by_cases hc : b = c
      · subst hc
        simp [hb, eq_comm]
      · simp [hc, Ne.symm hc]
    · simp [hr, Ne.symm hr]

theorem reserveSessionStore_cases {b : ℕ} {size : ℕ} {r : Except Exn Bool}
    (h : reserveSessionStore cfg s b size w = some (r, w')) :
    (r = .ok false ∧ w' = w ∧ w.manager.Live s ∧
      (reserve cfg.quota size w.manager.currentSize).1 = false) ∨
    (∃ e, r = .ok true ∧ Charges cfg s b size e w w') ∨
    (r = .error .mapAt ∧ w.manager.Live s ∧ (∀ e, ¬ w.manager.Entry s b e) ∧
      (reserve cfg.quota size w.manager.currentSize).1 = true ∧
      w' = {w with manager := {w.manager with
        currentSize := (reserve cfg.quota size w.manager.currentSize).2}}) := by
  obtain ⟨impl, hs, he⟩ := Option.map_eq_some_iff.mp h
  cases hr : (reserve cfg.quota size w.manager.currentSize).1 with
  | false =>
    simp only [hr] at he
    cases he
    exact Or.inl ⟨rfl, rfl, ⟨impl, hs⟩, rfl⟩
  | true =>
    cases hb : impl.blobs[b]? with
    | none =>
      simp only [hr, hb, if_true] at he
      cases he
      refine Or.inr (Or.inr ⟨rfl, ⟨impl, hs⟩, fun e ⟨i, hi, hie⟩ => ?_, rfl, rfl⟩)
      rw [← Option.some.inj (hs.symm.trans hi), hb] at hie
      cases hie
    | some e =>
      simp only [hr, hb, if_true] at he
      cases he
      exact Or.inr (Or.inl ⟨e, rfl, charges_modify hs hb hr⟩)

theorem reserveSessionStore_of_live (cfg : Config) (h : w.manager.Live s) (b : ℕ) (size : ℕ) :
    ∃ r w', reserveSessionStore cfg s b size w = some (r, w') := by
  obtain ⟨impl, hs⟩ := h
  simp only [reserveSessionStore, hs, Option.map_some]
  exact ⟨_, _, rfl⟩

theorem add_error {path : Path} {e : Exn} (h : add cfg s path w = some (.error e, w')) :
    w.manager.Live s ∧ w' = {w with manager := w.manager.getNewBlobId.2} := by
  obtain ⟨impl, hs, he⟩ := Option.map_eq_some_iff.mp h
  by_cases hp : w.files.present path = true
  · simp [hp] at he
  · simp only [hp] at he
    cases he
    exact ⟨⟨impl, hs⟩, rfl⟩

end World
end BlobRelay
