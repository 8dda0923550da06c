import BlobRelay.Reachability

/-! # What one upload does, as a whole

`scan` says from the messages and the usage counter alone which chunks an upload
gets in and how its reading ends. `receive` follows it, and `put_cases` lists the
exits of `Put` with the state each leaves behind. -/

namespace BlobRelay
open Foundation Foundation.FileStore

/-- How the reading of messages ends. -/
inductive Ending
  | complete
  | brokenOff
  | refused
  deriving DecidableEq

/-- The end of the reading and the chunks accepted before it. -/
def scan (quota : ℕ) : ℕ → List PutStreamingRequest → Ending × List Bytes
  | _, [] => (.complete, [])
  | cur, .chunk bytes :: rest =>
    let r := reserve quota bytes.length cur
    if r.1 then
      let tail := scan quota r.2 rest
      (tail.1, bytes :: tail.2)
    else (.refused, [])
  | _, .metadata _ :: _ => (.brokenOff, [])
  | _, .unset :: _ => (.brokenOff, [])

theorem scan_complete {quota cur : ℕ} {messages : List PutStreamingRequest} {chunks : List Bytes}
    (h : scan quota cur messages = (.complete, chunks)) : messages = chunks.map .chunk := by
  induction messages generalizing cur chunks with
  | nil =>
    cases h
    rfl
  | cons m rest ih =>
    cases m with
    | metadata m => cases h
    | unset => cases h
    | chunk bytes =>
      simp only [scan] at h
      split at h
      · rcases hrest : scan quota (reserve quota bytes.length cur).2 rest with ⟨ending, tail⟩
        rw [hrest] at h
        cases h
        rw [List.map_cons, ih hrest]
      · cases h

def totalLength (chunks : List Bytes) : ℕ := (chunks.map List.length).sum

@[simp] theorem totalLength_cons (bytes : Bytes) (chunks : List Bytes) :
    totalLength (bytes :: chunks) = bytes.length + totalLength chunks := by
  simp [totalLength]

theorem totalLength_eq (chunks : List Bytes) : totalLength chunks = chunks.flatten.length := by
  simp [totalLength, List.length_flatten]

/-- The counter after granted reservations of `n` bytes in total. -/
def charged (quota cur n : ℕ) : ℕ := if quota ≠ 0 then (cur + n) % 2^64 else cur

theorem reserve_charged {quota size cur : ℕ} (h : (reserve quota size cur).1 = true) :
    (reserve quota size cur).2 = charged quota cur size := by
  unfold reserve charged at *
  split
  · rename_i hq
    rw [if_pos hq] at h
    split
    · rename_i hgt
      rw [if_pos hgt] at h
      cases h
    · rfl
  · rfl

theorem charged_lt {quota cur n : ℕ} (h : cur < 2^64) : charged quota cur n < 2^64 := by
  unfold charged
  split
  · exact Nat.mod_lt _ (by norm_num)
  · exact h

theorem charged_zero {quota cur : ℕ} (h : cur < 2^64) : charged quota cur 0 = cur := by
  unfold charged
  split
  · exact Nat.mod_eq_of_lt h
  · rfl

theorem charged_charged (quota cur a b : ℕ) :
    charged quota (charged quota cur a) b = charged quota cur (a + b) := by
  unfold charged
  split
  · rw [Nat.mod_add_mod, Nat.add_assoc]
  · rfl

/-- Giving back what an entry records restores the counter, wrapped or not. -/
theorem release_charged {quota cur n : ℕ} (h : cur < 2^64) :
    release quota (n % 2^64) (charged quota cur n) = cur := by
  unfold release charged
  split
  · exact sub64_add64 h
  · rfl

variable {cfg : Config} {env : PutEnv} {w w' : World} {s b : ℕ}

/-! ### Reservations add up -/

/-- What reservations of `n` bytes in total do to the entry `e` of a blob. -/
structure ChargesAll (cfg : Config) (s b n : ℕ) (e : Path × ℕ) (m m' : BlobSessionManager) :
    Prop where
  currentSize : m'.currentSize = charged cfg.quota m.currentSize n
  blobId : m'.blobId = m.blobId
  sessions : KeepsSessions m m'
  recorded : m'.recordedTotal + e.2 = m.recordedTotal + (e.2 + n) % 2^64
  entry : ∀ r c e', m'.Entry r c e' ↔
    if r = s ∧ c = b then e' = (e.1, (e.2 + n) % 2^64) else m.Entry r c e'

theorem ChargesAll.zero {m : BlobSessionManager} {e : Path × ℕ} (he : m.Entry s b e)
    (hsize : e.2 < 2^64) (hcur : m.currentSize < 2^64) : ChargesAll cfg s b 0 e m m := by
  have hsame : (e.2 + 0) % 2^64 = e.2 := Nat.mod_eq_of_lt hsize
  refine ⟨(charged_zero hcur).symm, rfl, .refl m, by rw [hsame], fun r c e' => ?_⟩
  split
  · rename_i hrc
    obtain ⟨rfl, rfl⟩ := hrc
    rw [hsame]
    exact ⟨fun h => h.unique he, fun h => h ▸ he⟩
  · rfl

theorem ChargesAll.cons {m : BlobSessionManager} {e : Path × ℕ} {size n : ℕ}
    (h : World.Charges cfg s b size e w w')
    (h' : ChargesAll cfg s b n (e.1, add64 e.2 size) w'.manager m) :
    ChargesAll cfg s b (size + n) e w.manager m := by
  refine ⟨?_, h'.blobId.trans h.blobId, h.sessions.trans h'.sessions, ?_, fun r c e' => ?_⟩
  · rw [h'.currentSize, h.currentSize, reserve_charged h.reserved, charged_charged]
  · have hone := h.recorded
    have hrest := h'.recorded
    have hsum : (add64 e.2 size + n) % 2^64 = (e.2 + (size + n)) % 2^64 := by
      rw [add64, Nat.mod_add_mod, Nat.add_assoc]
    rw [hsum] at hrest
    dsimp only at hrest
    omega
  · rw [h'.entry]
    split
    · rw [add64, Nat.mod_add_mod, Nat.add_assoc]
    · rename_i hrc
      rw [h.entry, if_neg hrc]

/-! ### The loop -/

/-- The files after the chunks are written through `out` and it is closed. -/
def PutEnv.store (env : PutEnv) (k : ℕ) (out : OutStream) (chunks : List Bytes) (fs : Files) :
    Files :=
  let r := out.writeAll env.writes k chunks fs
  r.1.close env.closes r.2

/-- What `Put` does once the reading has ended and the file is closed. -/
def afterReading (cfg : Config) (env : PutEnv) (s b : ℕ) (path : Path) (blobSizeOpt : Option ℕ)
    (totalSize : ℕ) (w : World) : Ending → Option (PutOutcome × World)
  | .complete => some (finishPut cfg env s b path blobSizeOpt totalSize w)
  | .brokenOff => some (.returned PutStatus.notChunk none, w)
  | .refused =>
    match World.deleteBlobFile cfg s b env.deletes w with
    | none => none
    | some (.error e, w) => some (putCatch e, w)
    | some (.ok (), w) => some (.returned PutStatus.exhausted none, w)

theorem receive_spec {path : Path} {blobSizeOpt : Option ℕ} {k : ℕ} {out : OutStream}
    {totalSize size : ℕ} {messages : List PutStreamingRequest} {ending : Ending}
    {chunks : List Bytes} (hscan : scan cfg.quota w.manager.currentSize messages = (ending, chunks))
    (he : w.manager.Entry s b (path, size)) (hsize : size < 2^64)
    (hcur : w.manager.currentSize < 2^64) (htotal : totalSize < 2^64) :
    ∃ m', ChargesAll cfg s b (totalLength chunks) (path, size) w.manager m' ∧
      receive cfg env s b path blobSizeOpt k out totalSize messages w =
        afterReading cfg env s b path blobSizeOpt ((totalSize + totalLength chunks) % 2^64)
          ⟨m', env.store k out chunks w.files⟩ ending := by
  -- messages that end the reading here charge nothing
  have hnone : chunks = [] → ChargesAll cfg s b (totalLength chunks) (path, size)
      w.manager w.manager := by
    rintro rfl
    exact .zero he hsize hcur
  have hsame : (totalSize + totalLength []) % 2^64 = totalSize := Nat.mod_eq_of_lt htotal
  induction messages generalizing k out totalSize size w chunks with
  | nil =>
    cases hscan
    exact ⟨w.manager, hnone rfl, by rw [hsame]; rfl⟩
  | cons m rest ih =>
    cases m with
    | metadata m =>
      cases hscan
      exact ⟨w.manager, hnone rfl, rfl⟩
    | unset =>
      cases hscan
      exact ⟨w.manager, hnone rfl, rfl⟩
    | chunk bytes =>
      obtain ⟨r, w₁, hres⟩ := World.reserveSessionStore_of_live cfg he.live b bytes.length
      simp only [scan] at hscan
      rcases World.reserveSessionStore_cases hres with
        ⟨rfl, rfl, _, hr⟩ | ⟨e, rfl, hch⟩ | ⟨_, _, hgone, _⟩
      · rw [hr] at hscan
        cases hscan
        refine ⟨_, hnone rfl, ?_⟩
        simp only [receive, hres]
        rfl
      · obtain rfl := hch.found.unique he
        rw [if_pos hch.reserved, ← hch.currentSize] at hscan
        rcases hrest : scan cfg.quota w₁.manager.currentSize rest with ⟨ending', chunks'⟩
        rw [hrest] at hscan
        cases hscan
        have hcur₁ : w₁.manager.currentSize < 2^64 := by
          rw [hch.currentSize]
          exact reserve_lt hcur
        have he₁ : w₁.manager.Entry s b (path, add64 size bytes.length) :=
          (hch.entry s b _).mpr (by simp)
        rcases hwrite : out.write (env.writes k) bytes w₁.files with ⟨out₁, fs₁⟩
        have hloop : ∃ m', ChargesAll cfg s b (totalLength chunks') (path, add64 size bytes.length)
            w₁.manager m' ∧
            receive cfg env s b path blobSizeOpt (k + 1) out₁ (add64 totalSize bytes.length) rest
              {w₁ with files := fs₁} =
            afterReading cfg env s b path blobSizeOpt
              ((add64 totalSize bytes.length + totalLength chunks') % 2^64)
              ⟨m', env.store (k + 1) out₁ chunks' fs₁⟩ ending' := by
          refine ih (w := {w₁ with files := fs₁}) hrest he₁ (add64_lt _ _) hcur₁ (add64_lt _ _)
            (fun hnil => ?_) (Nat.mod_eq_of_lt (add64_lt _ _))
          rw [hnil]
          exact .zero he₁ (add64_lt _ _) hcur₁
        obtain ⟨m', hall, heq⟩ := hloop
        rw [totalLength_cons]
        refine ⟨m', .cons hch hall, ?_⟩
        simp only [receive, hres, hwrite]
        rw [heq, add64, Nat.mod_add_mod, Nat.add_assoc]
        simp only [PutEnv.store, OutStream.writeAll, ← hch.files, hwrite]
      · exact absurd he (hgone _)

/-! ### The whole upload -/

/-- The state after an upload into `s` that got `chunks` in and closed its file. -/
structure Uploaded (cfg : Config) (env : PutEnv) (s : ℕ) (chunks : List Bytes) (w w' : World) :
    Prop where
  live : w.manager.Live s
  blobId : w'.manager.blobId = w.manager.blobId + 1
  sessions : KeepsSessions w.manager w'.manager
  currentSize : w'.manager.currentSize =
    charged cfg.quota w.manager.currentSize (totalLength chunks)
  recorded : w'.manager.recordedTotal = w.manager.recordedTotal + totalLength chunks % 2^64
  entry : ∀ r c e, w'.manager.Entry r c e ↔ w.manager.Entry r c e ∨
    (r = s ∧ c = w.manager.blobId + 1 ∧
      e = (uploadPath cfg (w.manager.blobId + 1), totalLength chunks % 2^64))
  absent : w.files.names (uploadPath cfg (w.manager.blobId + 1)) = none
  files : w'.files = env.store 0 ⟨w.files.next, true⟩ chunks
    (w.files.create (uploadPath cfg (w.manager.blobId + 1)))

/-- The exits of `Put` run from `w`. -/
inductive PutExit (cfg : Config) (env : PutEnv) (w : World) :
    List PutStreamingRequest → PutOutcome → World → Prop
  | rejected {messages : List PutStreamingRequest} {status : Status} : status.code ≠ .ok →
      (∀ m rest, messages = .metadata m :: rest → checkApiVersion m.apiVersion = true →
        ¬ w.manager.Live m.sessionId) →
      PutExit cfg env w messages (.returned status none) w
  | cannotOpen {m : PutMetadata} {rest : List PutStreamingRequest} {w' : World} :
      checkApiVersion m.apiVersion = true → env.opens = false →
      World.Registers cfg m.sessionId (w.manager.blobId + 1)
        (uploadPath cfg (w.manager.blobId + 1)) w w' →
      PutExit cfg env w (.metadata m :: rest) (.returned PutStatus.cannotOpen none) w'
  | brokenOff {m : PutMetadata} {rest : List PutStreamingRequest} {chunks : List Bytes}
      {w' : World} : checkApiVersion m.apiVersion = true → env.opens = true →
      scan cfg.quota w.manager.currentSize rest = (.brokenOff, chunks) →
      Uploaded cfg env m.sessionId chunks w w' →
      PutExit cfg env w (.metadata m :: rest) (.returned PutStatus.notChunk none) w'
  | refused {m : PutMetadata} {rest : List PutStreamingRequest} {chunks : List Bytes}
      {e : Path × ℕ} {w₁ w' : World} : checkApiVersion m.apiVersion = true → env.opens = true →
      scan cfg.quota w.manager.currentSize rest = (.refused, chunks) →
      Uploaded cfg env m.sessionId chunks w w₁ →
      World.Erases cfg m.sessionId (w.manager.blobId + 1) e w₁ w' →
      PutExit cfg env w (.metadata m :: rest) (.returned PutStatus.exhausted none) w'
  | refusedFails {m : PutMetadata} {rest : List PutStreamingRequest} {chunks : List Bytes}
      {e : Path × ℕ} {w₁ : World} {x : Exn} : checkApiVersion m.apiVersion = true →
      env.opens = true → scan cfg.quota w.manager.currentSize rest = (.refused, chunks) →
      Uploaded cfg env m.sessionId chunks w w₁ → env.deletes ≠ .succeeds →
      w₁.manager.Entry m.sessionId (w.manager.blobId + 1) e →
      PutExit cfg env w (.metadata m :: rest) (putCatch x)
        {w₁ with manager := {w₁.manager with
          currentSize := release cfg.quota e.2 w₁.manager.currentSize}}
  | mismatch {m : PutMetadata} {rest : List PutStreamingRequest} {chunks : List Bytes}
      {w₁ : World} : checkApiVersion m.apiVersion = true → env.opens = true →
      scan cfg.quota w.manager.currentSize rest = (.complete, chunks) →
      sizeMismatches m.blobSize (totalLength chunks % 2^64) = true →
      Uploaded cfg env m.sessionId chunks w w₁ → env.removes = true →
      PutExit cfg env w (.metadata m :: rest) (.returned PutStatus.sizeMismatch none)
        {w₁ with files := w₁.files.unlink (uploadPath cfg (w.manager.blobId + 1))}
  | mismatchFails {m : PutMetadata} {rest : List PutStreamingRequest} {chunks : List Bytes}
      {w₁ : World} : checkApiVersion m.apiVersion = true → env.opens = true →
      scan cfg.quota w.manager.currentSize rest = (.complete, chunks) →
      sizeMismatches m.blobSize (totalLength chunks % 2^64) = true →
      Uploaded cfg env m.sessionId chunks w w₁ → env.removes = false →
      PutExit cfg env w (.metadata m :: rest) (.thrown (.filesystemError "remove")) w₁
  | answered {m : PutMetadata} {rest : List PutStreamingRequest} {chunks : List Bytes}
      {w' : World} : checkApiVersion m.apiVersion = true → env.opens = true →
      scan cfg.quota w.manager.currentSize rest = (.complete, chunks) →
      sizeMismatches m.blobSize (totalLength chunks % 2^64) = false →
      Uploaded cfg env m.sessionId chunks w w' →
      PutExit cfg env w (.metadata m :: rest)
        (putResponse cfg m.sessionId (w.manager.blobId + 1)) w'

theorem uploaded_of_charges {path : Path} {chunks : List Bytes} {w₁ : World}
    {m' : BlobSessionManager} (hw : WorldInv cfg w) (hroom : Headroom w)
    (hreg : World.Registers cfg s b path w w₁) (hpath : path = uploadPath cfg b)
    (hall : ChargesAll cfg s b (totalLength chunks) (path, 0) w₁.manager m') :
    Uploaded cfg env s chunks w
      ⟨m', env.store 0 ⟨w.files.next, true⟩ chunks (w.files.create (uploadPath cfg b))⟩ := by
  have hid : b = w.manager.blobId + 1 := hreg.id.trans (add64_of_lt hroom.1)
  subst hid
  subst hpath
  have hnew : ∀ r e, ¬ w.manager.Entry r (w.manager.blobId + 1) e := by
    intro r e he
    have hle := (hw.blobIds r _ e he).2
    omega
  refine ⟨hreg.live, hall.blobId.trans hreg.blobId, hreg.sessions.trans hall.sessions, ?_, ?_, ?_,
    ?_, rfl⟩
  · rw [hall.currentSize, hreg.currentSize]
  · have hrec := hall.recorded
    rw [hreg.recorded, Nat.zero_add] at hrec
    exact hrec
  · intro r c e
    rw [hall.entry, hreg.entry, Nat.zero_add]
    by_cases hrc : r = s ∧ c = w.manager.blobId + 1
    · obtain ⟨rfl, rfl⟩ := hrc
      simp [hnew]
    · rw [if_neg hrc]
      have hleft : ¬ (r = s ∧ c = w.manager.blobId + 1 ∧
          e = (uploadPath cfg (w.manager.blobId + 1), 0) ∧
          ¬ ∃ e', w.manager.Entry s (w.manager.blobId + 1) e') := fun h => hrc ⟨h.1, h.2.1⟩
      have hright : ¬ (r = s ∧ c = w.manager.blobId + 1 ∧
          e = (uploadPath cfg (w.manager.blobId + 1), totalLength chunks % 2^64)) :=
        fun h => hrc ⟨h.1, h.2.1⟩
      simp only [hleft, hright]
  · by_contra hne
    have hle := (hw.uploads _ hne).2
    omega

theorem afterReading_spec {m : PutMetadata} {rest : List PutStreamingRequest}
    {chunks : List Bytes} {ending : Ending} {w₁ : World} (hv : checkApiVersion m.apiVersion = true)
    (hopen : env.opens = true)
    (hscan : scan cfg.quota w.manager.currentSize rest = (ending, chunks))
    (hup : Uploaded cfg env m.sessionId chunks w w₁) :
    ∃ o w', afterReading cfg env m.sessionId (w.manager.blobId + 1)
        (uploadPath cfg (w.manager.blobId + 1)) m.blobSize (totalLength chunks % 2^64) w₁ ending =
        some (o, w') ∧
      PutExit cfg env w (.metadata m :: rest) o w' := by
  cases ending with
  | complete =>
    unfold afterReading finishPut
    cases hsize : sizeMismatches m.blobSize (totalLength chunks % 2^64) with
    | false => exact ⟨_, _, rfl, .answered hv hopen hscan hsize hup⟩
    | true =>
      cases hrem : env.removes with
      | false => exact ⟨_, _, rfl, .mismatchFails hv hopen hscan hsize hup hrem⟩
      | true => exact ⟨_, _, rfl, .mismatch hv hopen hscan hsize hup hrem⟩
  | brokenOff => exact ⟨_, _, rfl, .brokenOff hv hopen hscan hup⟩
  | refused =>
    have hentry := (hup.entry m.sessionId (w.manager.blobId + 1) _).mpr (Or.inr ⟨rfl, rfl, rfl⟩)
    obtain ⟨r, w₂, hdel⟩ := World.deleteBlobFile_of_live cfg hentry.live (w.manager.blobId + 1)
      env.deletes
    simp only [afterReading, hdel]
    rcases World.deleteBlobFile_cases hdel with
      ⟨_, _, _, hgone⟩ | ⟨e, rfl, her⟩ | ⟨e, x, rfl, hfail, he, rfl⟩
    · exact absurd hentry (hgone _)
    · exact ⟨_, _, rfl, .refused hv hopen hscan hup her⟩
    · exact ⟨_, _, rfl, .refusedFails hv hopen hscan hup hfail he⟩

theorem putInto_spec (hw : WorldInv cfg w) (hroom : Headroom w) {m : PutMetadata}
    (rest : List PutStreamingRequest) (hv : checkApiVersion m.apiVersion = true)
    (hl : w.manager.Live m.sessionId) :
    ∃ o w', putInto cfg env m.sessionId m.blobSize rest w = some (o, w') ∧
      PutExit cfg env w (.metadata m :: rest) o w' := by
  obtain ⟨⟨b, path⟩, w₁, hc⟩ := World.createBlobFile_of_live cfg hl
  obtain ⟨hpath, hreg⟩ := World.createBlobFile_spec hc
  have hid : b = w.manager.blobId + 1 := hreg.id.trans (add64_of_lt hroom.1)
  cases hopen : env.opens with
  | false =>
    refine ⟨.returned PutStatus.cannotOpen none, w₁, ?_, ?_⟩
    · simp only [putInto, hc, openBlobFile, hopen]
      rfl
    · rw [hpath, hid] at hreg
      exact .cannotOpen hv hopen hreg
  | true =>
    rcases hscan : scan cfg.quota w.manager.currentSize rest with ⟨ending, chunks⟩
    have hentry : w₁.manager.Entry m.sessionId b (path, 0) := by
      refine (hreg.entry _ _ _).mpr (Or.inr ⟨rfl, rfl, rfl, fun ⟨e, he⟩ => ?_⟩)
      have hle := (hw.blobIds _ _ _ he).2
      omega
    have hcur : w₁.manager.currentSize < 2^64 := hreg.currentSize ▸ hw.currentSize_lt
    obtain ⟨m', hall, hloop⟩ : ∃ m', ChargesAll cfg m.sessionId b (totalLength chunks) (path, 0)
        w₁.manager m' ∧
        receive cfg env m.sessionId b path m.blobSize 0 ⟨w.files.next, true⟩ 0 rest
          {w₁ with files := w.files.create path} =
        afterReading cfg env m.sessionId b path m.blobSize ((0 + totalLength chunks) % 2^64)
          ⟨m', env.store 0 ⟨w.files.next, true⟩ chunks (w.files.create path)⟩ ending :=
      receive_spec (w := {w₁ with files := w.files.create path})
        (by rw [← hscan, ← hreg.currentSize]) hentry (by norm_num) hcur (by norm_num)
    have hup : Uploaded cfg env m.sessionId chunks w
        ⟨m', env.store 0 ⟨w.files.next, true⟩ chunks (w.files.create (uploadPath cfg b))⟩ :=
      uploaded_of_charges hw hroom hreg hpath hall
    obtain ⟨o, w', hend, hexit⟩ := afterReading_spec hv hopen hscan hup
    refine ⟨o, w', ?_, hexit⟩
    have hstream : openBlobFile env.opens path w₁.files =
        some (⟨w.files.next, true⟩, w.files.create path) := by
      have habsent := hup.absent
      rw [← hid, ← hpath] at habsent
      rw [hreg.files, hopen, openBlobFile, if_pos rfl, FileSystem.openWrite_of_absent habsent]
      rfl
    simp only [putInto, hc, hstream, hloop]
    rw [Nat.zero_add, hpath, hid]
    rw [hid] at hend
    exact hend

/-- `Put` alone always comes to an end, at one of its exits. -/
theorem put_spec (hw : WorldInv cfg w) (hroom : Headroom w) (env : PutEnv)
    (messages : List PutStreamingRequest) :
    ∃ o w', put cfg env messages w = some (o, w') ∧ PutExit cfg env w messages o w' := by
  cases messages with
  | nil => exact ⟨_, _, rfl, .rejected (by decide) nofun⟩
  | cons first rest =>
    cases first with
    | chunk bytes => exact ⟨_, _, rfl, .rejected (by decide) nofun⟩
    | unset => exact ⟨_, _, rfl, .rejected (by decide) nofun⟩
    | metadata m =>
      by_cases hv : checkApiVersion m.apiVersion = true
      · by_cases hl : w.manager.Live m.sessionId
        · obtain ⟨o, w', hput, hexit⟩ := putInto_spec hw hroom rest hv hl
          obtain ⟨impl, hs⟩ := hl
          refine ⟨o, w', ?_, hexit⟩
          simp only [put, if_pos hv, BlobSessionManager.getSessionImpl_of_some hs]
          exact hput
        · refine ⟨putCatch noSession, w, ?_, .rejected (by decide) fun m' rest' hm _ => ?_⟩
          · simp only [put, if_pos hv, BlobSessionManager.getSessionImpl_of_not_live hl]
          · cases hm
            exact hl
      · refine ⟨.returned (PutStatus.apiVersion m.apiVersion) none, w, ?_,
          .rejected (by simp [PutStatus.apiVersion]) fun m' rest' hm hv' => ?_⟩
        · simp only [put, if_neg hv]
        · cases hm
          exact absurd hv' hv

theorem put_exit (hw : WorldInv cfg w) (hroom : Headroom w) {messages : List PutStreamingRequest}
    {o : PutOutcome} (h : put cfg env messages w = some (o, w')) :
    PutExit cfg env w messages o w' := by
  obtain ⟨o', w'', heq, hexit⟩ := put_spec hw hroom env messages
  rw [h] at heq
  cases heq
  exact hexit

/-! ### The file of an upload -/

namespace Uploaded
variable {chunks : List Bytes}

theorem names (h : Uploaded cfg env s chunks w w') :
    w'.files.names = (w.files.create (uploadPath cfg (w.manager.blobId + 1))).names := by
  rw [h.files]
  simp [PutEnv.store]

theorem name_self (h : Uploaded cfg env s chunks w w') :
    w'.files.names (uploadPath cfg (w.manager.blobId + 1)) = some (.regular w.files.next) := by
  rw [h.names]
  exact (FileSystem.openWrite_self (FileSystem.openWrite_of_absent h.absent)).1

theorem sameAt (h : Uploaded cfg env s chunks w w') {q : Path}
    (hq : q ≠ uploadPath cfg (w.manager.blobId + 1)) : w.files.SameAt w'.files q := by
  have hopen := FileSystem.openWrite_of_absent h.absent
  have hname : (w.files.create (uploadPath cfg (w.manager.blobId + 1))).names q ≠
      some (.regular w.files.next) := by
    rw [FileSystem.openWrite_names_of_ne hopen hq]
    intro hn
    exact absurd (w.files.bounded q _ hn) (lt_irrefl _)
  rw [h.files, PutEnv.store]
  refine (FileSystem.sameAt_openWrite hopen hq).trans ?_
  refine (OutStream.sameAt_writeAll _ _ _ _ _ hname).trans (OutStream.sameAt_close _ _ _ ?_)
  rw [OutStream.ino_writeAll, OutStream.names_writeAll]
  exact hname

theorem contents (h : Uploaded cfg env s chunks w w') (hwrites : ∀ k, env.writes k = none)
    (hclose : env.closes = none) :
    w'.files.contents (uploadPath cfg (w.manager.blobId + 1)) = some chunks.flatten := by
  rw [FileSystem.contents_of_regular h.name_self, h.files, PutEnv.store]
  obtain ⟨hout, hdata⟩ := OutStream.writeAll_none env.writes 0 ⟨w.files.next, true⟩ rfl chunks
    (w.files.create (uploadPath cfg (w.manager.blobId + 1))) hwrites
  rw [hout, hclose]
  simp only [OutStream.close, if_true, Option.some.injEq]
  rw [hdata]
  simp [FileSystem.create]

theorem safe (h : Uploaded cfg env s chunks w w') (hroom : Headroom w) : Safe cfg w w' := by
  have hopen := FileSystem.openWrite_of_absent h.absent
  have hb := h.blobId
  refine ⟨⟨by omega, ?_, ?_, ?_⟩, fun inv => ⟨?_, ?_, ?_, ?_, ?_, ?_, ?_, ?_⟩⟩
  · intro r c e he
    rcases (h.entry r c e).mp he with hold | ⟨_, rfl, _⟩
    · exact Or.inl ⟨e, hold, rfl⟩
    · exact Or.inr (by omega)
  · intro q i hq
    rw [h.names] at hq
    exact FileSystem.openWrite_names hopen hq
  · rw [h.files]
    simp [PutEnv.store, FileSystem.create]
  · intro r hr
    rw [h.sessions.sessionId]
    exact inv.sessionIds r ((h.sessions.live r).mp hr)
  · intro r c e he
    rcases (h.entry r c e).mp he with hold | ⟨_, rfl, _⟩
    · have hle := inv.blobIds r c e hold
      omega
    · omega
  · intro r r' c e e' he he'
    rcases (h.entry r c e).mp he with hold | ⟨hr, hc, _⟩
    · rcases (h.entry r' c e').mp he' with hold' | ⟨_, hc', _⟩
      · exact inv.disjoint r r' c e e' hold hold'
      · have hle := (inv.blobIds r c e hold).2
        omega
    · rcases (h.entry r' c e').mp he' with hold' | ⟨hr', _⟩
      · have hle := (inv.blobIds r' c e' hold').2
        omega
      · exact hr.trans hr'.symm
  · intro k hk
    by_cases hkb : k = w.manager.blobId + 1
    · omega
    · rw [h.names, FileSystem.openWrite_names_of_ne hopen
        fun hp => hkb (uploadPath_injective cfg hp)] at hk
      have hle := inv.uploads k hk
      omega
  · intro t r hr
    rw [h.sessions.index] at hr
    exact (h.sessions.owner r _).mpr (inv.index t r hr)
  · have hlt := hroom.1
    omega
  · rw [h.sessions.sessionId]
    exact inv.sessionId_lt
  · rw [h.currentSize]
    exact charged_lt inv.currentSize_lt

end Uploaded
end BlobRelay
