import BlobRelay.ClientDownload
import BlobRelay.SmokeTest

/-! # The smoke test of downloads (smoke_test/support.h, client/main.cpp)

One round of the command-line client's `get`: a session of a transaction, a file that the
support service writes and registers with `add`, its download under the datastore's tag, the
comparison, and the disposal, which takes the registered file away. -/

namespace BlobRelay
open Foundation Foundation.FileStore

namespace SmokeTest

/-! ### `CreateBlobForDownLoad` -/

namespace SupportStatus

def noBlobFile : Status := ⟨.internal, "can not create a blob file for download test"⟩

end SupportStatus

/-- `static_cast<std::streamsize>(size)`. -/
def requestedSize (size : ℕ) : ℤ := if size < 2^63 then size else size - 2^64

/-- The writes of the `while` loop from the position `p` on. -/
def referenceWrites (requested : ℤ) : ℕ → ℕ → Option (List Bytes)
  | 0, _ => none
  | fuel + 1, p =>
    if p < requested then
      let n := min (requested - p).toNat Client.reference.length
      (referenceWrites requested fuel (p + n)).map (Client.reference.take n :: ·)
    else some []

/-- Enough rounds: each takes a byte. -/
def writesFuel (requested : ℤ) : ℕ := requested.toNat + 1

/-- The name that the service gives its `fileId`-th file. -/
def sourcePath (pid fileId : ℕ) : Path := ["/tmp", toString pid ++ "-" ++ toString fileId]

/-- `catch (std::runtime_error &ex)`, which the `out_of_range` of a missing session passes. -/
def supportCatch {α : Type} : Exn → Reply α
  | .stdException what => .returned ⟨.notFound, what⟩ none
  | e => .thrown e

/-- The registration and the answer, after the file is written. -/
def registerBlob (cfg : Config) (s : SessionId) (path : Path) (w : World) :
    Option (Reply BlobReference × World) :=
  match w.manager.getSessionImpl s with
  | .error e => some (supportCatch e, w)
  | .ok impl =>
    (w.add cfg s path).map fun r =>
      match r.1 with
      | .error e => (supportCatch e, r.2)
      | .ok bid =>
        match impl.getTag cfg s bid with
        | .error e => (supportCatch e, r.2)
        | .ok tag => (.returned SupportStatus.ok (some ⟨0, bid, tag⟩), r.2)

/-- The writes to the file succeed. -/
def createBlobForDownLoad (cfg : Config) (pid fileId : ℕ) (s : SessionId) (size : ℕ) (w : World) :
    Option (Reply BlobReference × World) :=
  match openBlobFile true (sourcePath pid fileId) w.files with
  | none => some (.returned SupportStatus.noBlobFile none, w)
  | some (out, fs) =>
    (referenceWrites (requestedSize size) (writesFuel (requestedSize size)) 0).bind fun chunks =>
      let r := OutStream.writeAll (fun _ => none) 0 out chunks fs
      registerBlob cfg s (sourcePath pid fileId) {w with files := r.1.close none r.2}

/-! ### The round -/

def savedPath (jid : ℕ) : Path := ["download_" ++ toString jid]

/-- Fault 4: the file is removed before it is asked for. -/
def removeSource (fault : ℕ) (s : SessionId) (b : BlobId) (w : World) : Except Exn Unit × World :=
  if fault = 4 then
    match call [] (getFilePath w.manager s b) with
    | .error e => (.error e, w)
    | .ok path => (.ok (), {w with files := w.files.unlink path})
  else (.ok (), w)

/-- The download, the comparison and the removal of the saved file. -/
def fetchBody (cfg : Config) (env : GetEnv) (saving : Client.Saving) (fault jid : ℕ) (s : SessionId)
    (blob : BlobReference) (w : World) : Option (Except Exn Unit × World) :=
  match BlobRelay.get cfg env (Client.getRequest fault s blob.objectId blob.tag) w with
  | none => none
  | some (o, written) =>
    match Client.get saving (savedPath jid) written o w.files with
    | (.error e, fs) => some (.error e, {w with files := fs})
    | (.ok (), fs) =>
      match compareFile (savedPath jid) {w with files := fs} with
      | none => none
      | some (.error e, w) => some (.error e, w)
      | some (.ok (), w) => some (.ok (), {w with files := w.files.unlink (savedPath jid)})

/-- The body of `get` in main.cpp. -/
def getBody (cfg : Config) (pid fileId fault jid size : ℕ) (s : SessionId) (w : World) :
    Option (Except Exn Unit × World) :=
  match createBlobForDownLoad cfg pid fileId s size w with
  | none => none
  | some (reply, w) =>
    match call ⟨0, 0, 0⟩ reply with
    | .error e => some (.error e, w)
    | .ok blob =>
      match removeSource fault s blob.objectId w with
      | (.error e, w) => some (.error e, w)
      | (.ok (), w) => fetchBody cfg .calm .calm fault jid s blob w

/-- One round of `get` in main.cpp. -/
def get (cfg : Config) (deletes : ℕ → DeleteResult) (pid fileId fault jid size : ℕ) (w : World) :
    Option (Round × World) :=
  let (s, w) := createSession (some jid) w
  (getBody cfg pid fileId fault jid size s w).bind (close cfg s deletes)

/-- The writes joined are the reference text repeated up to the size. -/
theorem referenceWrites_spec (requested : ℤ) {fuel : ℕ} (p : ℕ) (hfuel : (requested - p).toNat < fuel) :
    ∃ chunks, referenceWrites requested fuel p = some chunks ∧
      chunks.flatten = stretch Client.reference 0 (requested - p).toNat := by
  have hlen := Client.length_reference
  induction fuel generalizing p with
  | zero => omega
  | succ fuel ih =>
    unfold referenceWrites
    dsimp only
    by_cases hmore : (p : ℤ) < requested
    · rw [if_pos hmore]
      obtain ⟨chunks, hchunks, hflat⟩ :=
        ih (p + min (requested - p).toNat Client.reference.length) (by omega)
      refine ⟨_, by rw [hchunks, Option.map_some], ?_⟩
      rw [List.flatten_cons, hflat]
      by_cases hwhole : Client.reference.length ≤ (requested - p).toNat
      · have hsplit : (requested - p).toNat = Client.reference.length +
            (requested - (p + Client.reference.length : ℕ)).toNat := by omega
        rw [Nat.min_eq_right hwhole, List.take_length, hsplit, stretch_next]
      · have hnone : (requested - (p + (requested - p).toNat : ℕ)).toNat = 0 := by omega
        have hnil : stretch Client.reference 0 0 = [] := rfl
        rw [Nat.min_eq_left (by omega), hnone, hnil, List.append_nil, stretch_start (by omega)]
    · have hzero : (requested - p).toNat = 0 := by omega
      rw [if_neg hmore, hzero]
      exact ⟨[], rfl, rfl⟩

end SmokeTest

variable {cfg : Config} {w w' : World} {s fault jid size pid fileId : ℕ} {tag : BlobTag}

/-- What the world's invariant says of the files it says of their upload paths. -/
theorem WorldInv.refile (h : WorldInv cfg w) {fs : Files}
    (hnames : ∀ k, fs.names (uploadPath cfg k) = w.files.names (uploadPath cfg k)) :
    WorldInv cfg {w with files := fs} := by
  refine ⟨h.sessionIds, h.blobIds, h.disjoint, fun k hk => ?_, h.index, h.blobId_lt, h.sessionId_lt,
    h.currentSize_lt⟩
  exact h.uploads k (by rw [← hnames]; exact hk)

/-- A file written through one stream: its contents, and all others as they were. -/
theorem writeAll_new {fs : Files} {path : Path} (habsent : fs.names path = none)
    (chunks : List Bytes) :
    ∃ out fs₁, openBlobFile true path fs = some (out, fs₁) ∧
      ∀ fs₂, fs₂ = (OutStream.writeAll (fun _ => none) 0 out chunks fs₁).1.close none
          (OutStream.writeAll (fun _ => none) 0 out chunks fs₁).2 →
        fs₂.contents path = some chunks.flatten ∧ ∀ p, p ≠ path → fs.SameAt fs₂ p := by
  have hopen := FileSystem.openWrite_of_absent habsent
  obtain ⟨hname, hempty, _⟩ := FileSystem.openWrite_self hopen
  refine ⟨⟨fs.next, true⟩, fs.create path, by simp [openBlobFile, hopen], ?_⟩
  intro fs₂ hfs
  obtain ⟨hout, hdata⟩ := OutStream.writeAll_none (fun _ => none) 0 ⟨fs.next, true⟩ rfl chunks
    (fs.create path) fun _ => rfl
  rw [hout] at hfs
  have hclosed : fs₂ = (OutStream.writeAll (fun _ => none) 0 ⟨fs.next, true⟩ chunks
      (fs.create path)).2 := hfs
  subst hclosed
  constructor
  · rw [FileSystem.contents_of_regular (by rw [OutStream.names_writeAll]; exact hname), hdata, hempty,
      List.nil_append]
  · intro p hp
    refine (FileSystem.sameAt_openWrite hopen hp).trans (OutStream.sameAt_writeAll _ _ _ _ _ ?_)
    rw [FileSystem.openWrite_names_of_ne hopen hp]
    intro hn
    exact absurd (fs.bounded p _ hn) (lt_irrefl _)

namespace SmokeTest

/-- The table after the file is registered. -/
theorem createBlobForDownLoad_spec (size : ℕ) (hroom : w.manager.blobId + 1 < 2^64)
    (howner : w.manager.Owner s (some jid))
    (habsent : w.files.names (sourcePath pid fileId) = none)
    (hcanonical : cfg.canonical (sourcePath pid fileId) = sourcePath pid fileId)
    (htag : cfg.api.getTag (w.manager.blobId + 1) jid = .ok tag) :
    ∃ w₁, createBlobForDownLoad cfg pid fileId s size w = some
        (.returned SupportStatus.ok (some ⟨0, w.manager.blobId + 1, tag⟩), w₁) ∧
      World.Registers cfg s (w.manager.blobId + 1) (sourcePath pid fileId) w
        {w₁ with files := w.files} ∧
      w₁.files.contents (sourcePath pid fileId) =
        some (stretch Client.reference 0 (requestedSize size).toNat) ∧
      ∀ p, p ≠ sourcePath pid fileId → w.files.SameAt w₁.files p := by
  have hfuel : (requestedSize size - (0 : ℕ)).toNat < writesFuel (requestedSize size) := by
    unfold writesFuel
    omega
  obtain ⟨chunks, hchunks, hflat⟩ := referenceWrites_spec (requestedSize size) 0 hfuel
  rw [Nat.cast_zero, Int.sub_zero] at hflat
  obtain ⟨out, fs₁, hopen, hwritten⟩ := writeAll_new habsent chunks
  obtain ⟨hcontents, hothers⟩ := hwritten _ rfl
  obtain ⟨impl, hs, ht⟩ := howner
  have hid : add64 w.manager.blobId 1 = w.manager.blobId + 1 := add64_of_lt hroom
  have hreg : World.Registers cfg s (add64 w.manager.blobId 1) (sourcePath pid fileId) w _ :=
    World.registers_emplace hs (sourcePath pid fileId)
  rw [hid] at hreg
  unfold createBlobForDownLoad
  rw [hopen]
  dsimp only
  rw [hchunks, Option.bind_some]
  generalize (OutStream.writeAll (fun _ => none) 0 out chunks fs₁).1.close none
    (OutStream.writeAll (fun _ => none) 0 out chunks fs₁).2 = fs₂ at hcontents hothers
  have hpresent := FileSystem.present_of_contents hcontents
  have hkey : impl.getTag cfg s (w.manager.blobId + 1) = .ok tag := by
    rw [getTag_eq, ht]
    exact htag
  rw [hflat] at hcontents
  refine ⟨⟨_, fs₂⟩, ?_, hreg, hcontents, hothers⟩
  unfold registerBlob
  simp only [BlobSessionManager.getSessionImpl_of_some hs, World.add, hs, Option.map_some, hpresent,
    if_true, BlobSessionManager.getNewBlobId, hid, hkey, hcanonical]
  rfl

end SmokeTest

/-- The client's `get` writes to the saved file only. -/
theorem Client.get_elsewhere (env : Client.Saving) (path : Path) {p : Path}
    (responses : List GetStreamingResponse) (o : GetOutcome) (fs : Files) (hp : p ≠ path) :
    fs.SameAt (Client.get env path responses o fs).2 p := by
  unfold Client.get
  split
  · exact .refl fs p
  · rename_i out fs₁ hopen
    obtain ⟨_, i, hwrite, rfl⟩ := openBlobFile_some hopen
    have hopened := FileSystem.sameAt_openWrite hwrite hp
    have hother : fs₁.names p ≠ some (.regular i) := by
      intro hn
      exact hp (fs₁.linkedOnce p path i hn (FileSystem.openWrite_self hwrite).1)
    split
    · exact hopened.trans (OutStream.sameAt_close _ _ _ hother)
    · exact hopened.trans (OutStream.sameAt_close _ _ _ hother)
    · rename_i blobSize rest
      have hwritten := hopened.trans (OutStream.sameAt_writeAll env.writes 0 ⟨i, true⟩
        (rest.map Client.chunkOf) fs₁ hother)
      have hclosed := OutStream.sameAt_close (p := p)
        (OutStream.writeAll env.writes 0 ⟨i, true⟩ (rest.map Client.chunkOf) fs₁).1 env.closes
        (OutStream.writeAll env.writes 0 ⟨i, true⟩ (rest.map Client.chunkOf) fs₁).2 (by
          rw [OutStream.ino_writeAll, OutStream.names_writeAll]
          exact hother)
      have hall := hwritten.trans hclosed
      dsimp only
      split
      · exact hall
      · split
        · exact hall
        · exact hall

namespace SmokeTest

/-- The request of a round goes past the tag check and names the blob. -/
def Asks (cfg : Config) (fault : ℕ) (tag : BlobTag) : Prop :=
  fault ≠ 1 ∧ fault ≠ 5 ∧ (fault = 3 → cfg.devAcceptMockTag = true ∧ add64 tag 1 = mockTag)

instance (cfg : Config) (fault : ℕ) (tag : BlobTag) : Decidable (Asks cfg fault tag) :=
  inferInstanceAs (Decidable (_ ∧ _ ∧ (_ → _)))

/-- The session of a round, with the one file registered in it. -/
structure Offers (cfg : Config) (jid s b : ℕ) (path : Path) (tag : BlobTag) (w : World) :
    Prop where
  world : WorldInv cfg w
  owner : w.manager.Owner s (some jid)
  next : ¬ w.manager.Live (add64 s 1)
  entry : ∀ c e, w.manager.Entry s c e ↔ c = b ∧ e = (path, 0)
  issued : cfg.api.getTag b jid = .ok tag
  fits : s < 2^64 ∧ b < 2^64 ∧ tag < 2^64

theorem granted_iff {b : ℕ} {path p : Path} (h : Offers cfg jid s b path tag w) :
    Granted cfg w (Client.getRequest fault s b tag) p ↔ Asks cfg fault tag ∧ p = path := by
  obtain ⟨hs, hb, ht⟩ := h.fits
  by_cases h1 : fault = 1
  · -- the next session
    refine ⟨fun hg => ?_, fun hg => absurd h1 hg.1.1⟩
    have hlive := hg.context
    rw [Client.getRequest, if_pos h1] at hlive
    exact absurd hlive h.next
  have hsession : (Client.getRequest fault s b tag).contextId = some (.sessionId s) := by
    rw [Client.getRequest, if_neg h1, add64_of_lt hs, Nat.add_zero]
  by_cases h5 : fault = 5
  · refine ⟨fun hg => ?_, fun hg => absurd h5 hg.1.2.1⟩
    rcases hg.blob with ⟨_, r, n, hr, he⟩ | ⟨hstore, _⟩
    · rw [hsession] at hr
      obtain rfl := Option.some.inj hr
      have hid := ((h.entry _ _).mp he).1
      rw [Client.getRequest, if_pos h5] at hid
      exact absurd hid (add64_one_ne b)
    · cases hstore
  have hid : (Client.getRequest fault s b tag).blob.objectId = b := by
    show add64 b (if fault = 5 then 1 else 0) = b
    rw [if_neg h5, add64_of_lt hb, Nat.add_zero]
  have hgiven : (Client.getRequest fault s b tag).blob.tag =
      if fault = 3 then add64 tag 1 else tag := by
    show add64 tag (if fault = 3 then 1 else 0) = _
    split
    · rfl
    · exact Nat.mod_eq_of_lt ht
  have hkey : TagAccepted cfg w.manager (Client.getRequest fault s b tag) ↔
      (fault = 3 → cfg.devAcceptMockTag = true ∧ add64 tag 1 = mockTag) := by
    unfold TagAccepted
    rw [hsession, hid, hgiven]
    constructor
    · rintro ⟨k, expected, ⟨t, howner, rfl⟩, hexpected, hcheck⟩ h3
      obtain rfl := howner.unique h.owner
      obtain rfl := Except.ok.inj (hexpected.symm.trans h.issued)
      rw [if_pos h3] at hcheck
      rcases hcheck with hsame | hmock
      · exact absurd hsame (add64_one_ne _)
      · exact hmock
    · intro hmock
      refine ⟨jid, tag, ⟨some jid, h.owner, rfl⟩, h.issued, ?_⟩
      by_cases h3 : fault = 3
      · rw [if_pos h3]
        exact Or.inr (hmock h3)
      · rw [if_neg h3]
        exact Or.inl rfl
  constructor
  · intro hg
    refine ⟨⟨h1, h5, hkey.mp hg.tag⟩, ?_⟩
    rcases hg.blob with ⟨_, r, n, hr, he⟩ | ⟨hstore, _⟩
    · rw [hsession] at hr
      obtain rfl := Option.some.inj hr
      exact congrArg Prod.fst ((h.entry _ _).mp he).2
    · cases hstore
  · rintro ⟨⟨_, _, hmock⟩, rfl⟩
    refine ⟨hsession ▸ h.owner.live, Or.inl ⟨rfl, s, 0, by rw [hsession]; rfl, ?_⟩, hkey.mpr hmock⟩
    rw [hid]
    exact (h.entry b _).mpr ⟨rfl, rfl⟩

/-- The end of a download that leaves the state but for the saved file. -/
structure FetchEnds (cfg : Config) (fault jid s : ℕ) (blob : BlobReference) (w : World)
    (r : Except Exn Unit) (fs : Files) : Prop where
  body : fetchBody cfg .calm .calm fault jid s blob w = some (r, {w with files := fs})
  elsewhere : ∀ p, p ≠ savedPath jid → w.files.SameAt fs p
  cleared : r = .ok () → fs.names (savedPath jid) = none

theorem fetch_refused (blob : BlobReference) {o : GetOutcome}
    (hget : BlobRelay.get cfg .calm (Client.getRequest fault s blob.objectId blob.tag) w = some (o, []))
    (ho : ¬ o.IsOk) : ∃ e fs, FetchEnds cfg fault jid s blob w (.error e) fs := by
  have hfails : (Client.get .calm (savedPath jid) [] o w.files).1 ≠ .ok () :=
    (Client.get_nothing .calm ho).1
  have helsewhere : ∀ p, p ≠ savedPath jid →
      w.files.SameAt (Client.get .calm (savedPath jid) [] o w.files).2 p :=
    fun p hp => Client.get_elsewhere .calm (savedPath jid) [] o w.files hp
  rcases hclient : Client.get .calm (savedPath jid) [] o w.files with ⟨r, fs⟩
  rw [hclient] at hfails helsewhere
  cases r with
  | ok _ => exact absurd rfl hfails
  | error e =>
    refine ⟨e, fs, ?_, helsewhere, fun heq => by cases heq⟩
    simp only [fetchBody, hget, hclient]

theorem fetch_accepted (blob : BlobReference) {o : GetOutcome} {chunks : List Bytes} {n : ℕ}
    (hget : BlobRelay.get cfg .calm (Client.getRequest fault s blob.objectId blob.tag) w =
      some (o, .metadata (some n) :: chunks.map .chunk))
    (ho : o.IsOk) (hchunks : chunks.flatten = stretch Client.reference 0 n)
    (hsave : w.files.names (savedPath jid) = none) :
    ∃ r fs, FetchEnds cfg fault jid s blob w r fs ∧ (r = .ok () ↔ ¬ Client.CutByBorder 0 n) := by
  have hlen : n = chunks.flatten.length := by rw [hchunks, length_stretch]
  have hopen : (w.files.openWrite (savedPath jid)).isSome = true := by
    rw [FileSystem.openWrite_of_absent hsave]
    rfl
  have haccepted := (Client.get_calm chunks hopen).mpr ⟨ho, hlen⟩
  have helsewhere : ∀ p, p ≠ savedPath jid → w.files.SameAt (Client.get .calm (savedPath jid)
      (.metadata (some n) :: chunks.map .chunk) o w.files).2 p :=
    fun p hp => Client.get_elsewhere .calm (savedPath jid) _ o w.files hp
  rcases hclient : Client.get .calm (savedPath jid) (.metadata (some n) :: chunks.map .chunk) o
    w.files with ⟨r, fs⟩
  rw [hclient] at haccepted helsewhere
  obtain rfl : r = .ok () := haccepted
  obtain ⟨_, bytes, hsaved, hstart, hbytes⟩ := (Client.get_framed .calm chunks hclient).2 rfl
  rw [hstart.eq_of_length (hbytes.trans hlen), hchunks] at hsaved
  obtain ⟨r, hcompare, hiff⟩ := compareFile_stretch (w := {w with files := fs}) hsaved
  cases r with
  | error e =>
    refine ⟨.error e, fs, ⟨?_, helsewhere, fun heq => by cases heq⟩, hiff⟩
    simp only [fetchBody, hget, hclient, hcompare]
  | ok _ =>
    refine ⟨.ok (), fs.unlink (savedPath jid), ⟨?_, fun p hp => ?_, fun _ => ?_⟩, hiff⟩
    · simp only [fetchBody, hget, hclient, hcompare]
    · exact (helsewhere p hp).trans (FileSystem.sameAt_unlink fs hp)
    · exact FileSystem.names_unlink_self fs _

theorem fetchBody_spec (fault : ℕ) {b n : ℕ} {path : Path} (h : Offers cfg jid s b path tag w)
    (hchunk : 1 ≤ cfg.streamChunkSize) (hsave : w.files.names (savedPath jid) = none)
    (hfile : ∀ bytes, w.files.contents path = some bytes → bytes = stretch Client.reference 0 n) :
    ∃ r fs, FetchEnds cfg fault jid s ⟨0, b, tag⟩ w r fs ∧
      (r = .ok () ↔ Asks cfg fault tag ∧ w.files.contents path ≠ none ∧
        ¬ Client.CutByBorder 0 n) := by
  have hversion : checkApiVersion (Client.getRequest fault s b tag).apiVersion = true := rfl
  have hiff : ∀ p, authorise cfg w (Client.getRequest fault s b tag) = .ok p ↔
      Granted cfg w (Client.getRequest fault s b tag) p := by
    intro p
    refine (authorise_ok_iff h.world).trans (and_iff_left ?_)
    intro hstore
    cases hstore
  have hrefused : ∀ o : GetOutcome, ¬ o.IsOk → ¬ (Asks cfg fault tag ∧
      w.files.contents path ≠ none ∧ ¬ Client.CutByBorder 0 n) →
      BlobRelay.get cfg .calm (Client.getRequest fault s b tag) w = some (o, []) →
      ∃ r fs, FetchEnds cfg fault jid s ⟨0, b, tag⟩ w r fs ∧ (r = .ok () ↔ Asks cfg fault tag ∧
        w.files.contents path ≠ none ∧ ¬ Client.CutByBorder 0 n) := by
    intro o ho hno hget
    obtain ⟨e, fs, hends⟩ := fetch_refused ⟨0, b, tag⟩ hget ho
    refine ⟨.error e, fs, hends, ?_⟩
    constructor
    · intro heq
      cases heq
    · exact fun hyes => absurd hyes hno
  cases hauth : authorise cfg w (Client.getRequest fault s b tag) with
  | error e =>
    apply hrefused (getExit e) (getExit_not_ok (fails_authorise e hauth))
    · intro hyes
      have hok := (hiff path).mpr ((granted_iff h).mpr ⟨hyes.1, rfl⟩)
      rw [hauth] at hok
      cases hok
    · simp only [BlobRelay.get, hversion, if_true, hauth]
  | ok p =>
    obtain ⟨hasks, rfl⟩ := (granted_iff h).mp ((hiff p).mp hauth)
    have hsend : BlobRelay.get cfg .calm (Client.getRequest fault s b tag) w =
        sendBlob cfg .calm w.files p := by
      simp only [BlobRelay.get, hversion, if_true, hauth]
    rcases Option.eq_none_or_eq_some (w.files.contents p) with hcontents | ⟨bytes, hcontents⟩
    · obtain ⟨o, hnone, ho⟩ := sendBlob_none cfg .calm hcontents
      exact hrefused o ho (fun hyes => hyes.2.1 hcontents) (hsend.trans hnone)
    · obtain rfl := hfile bytes hcontents
      have halloc : GetEnv.calm.allocates = true := rfl
      obtain ⟨written, hsome, chunks, rfl, _, hall⟩ := sendBlob_some cfg GetEnv.calm_answered halloc hcontents
      rw [length_stretch] at hsome
      obtain ⟨r, fs, hends, hcut⟩ := fetch_accepted ⟨0, b, tag⟩ (hsend.trans hsome) rfl
        (hall rfl hchunk) hsave
      refine ⟨r, fs, hends, hcut.trans ?_⟩
      exact ⟨fun hno => ⟨hasks, by rw [hcontents]; exact Option.some_ne_none _, hno⟩, fun h => h.2.2⟩

theorem savedPath_ne : savedPath jid ≠ sourcePath pid fileId :=
  fun h => absurd (congrArg List.length h) (by simp [savedPath, sourcePath])

theorem inDirectory_uploadPath_ne {path : Path} (h : inDirectory cfg.directory path = false) (k : ℕ) :
    uploadPath cfg k ≠ path := by
  rintro rfl
  rw [uploadPath_inDirectory] at h
  cases h

/-- Fault 4 takes the registered file away; nothing else does. -/
theorem removeSource_spec {b n : ℕ} {path : Path} (fault : ℕ) (hw : WorldInv cfg w)
    (he : w.manager.Entry s b (path, 0))
    (hfile : w.files.contents path = some (stretch Client.reference 0 n)) :
    ∃ w₁, removeSource fault s b w = (.ok (), w₁) ∧ w₁.manager = w.manager ∧ WorldInv cfg w₁ ∧
      (∀ p, p ≠ path → w.files.SameAt w₁.files p) ∧
      (∀ bytes, w₁.files.contents path = some bytes → bytes = stretch Client.reference 0 n) ∧
      (w₁.files.contents path ≠ none ↔ fault ≠ 4) := by
  by_cases h4 : fault = 4
  · have hgone : (w.files.unlink path).contents path = none :=
      FileSystem.contents_absent (FileSystem.names_unlink_self _ _)
    refine ⟨{w with files := w.files.unlink path}, ?_, rfl, (safe_unlink path).inv hw,
      fun p hp => FileSystem.sameAt_unlink _ hp, fun bytes hb => ?_, ?_⟩
    · rw [removeSource, if_pos h4, getFilePath_entry he]
    · rw [hgone] at hb
      cases hb
    · exact iff_of_false (fun hno => hno hgone) fun hno => hno h4
  · refine ⟨w, by rw [removeSource, if_neg h4], rfl, hw, fun p _ => .refl _ p, fun bytes hb => ?_, ?_⟩
    · exact (Option.some.inj (hfile.symm.trans hb)).symm
    · exact iff_of_true (fun hno => by rw [hfile] at hno; cases hno) h4

end SmokeTest

theorem World.Registers.refile {b : ℕ} {path : Path} (h : World.Registers cfg s b path w w')
    (fs : Files) : World.Registers cfg s b path {w with files := fs} {w' with files := fs} :=
  ⟨h.id, h.live, rfl, h.blobId, h.currentSize, h.sessions, h.recorded, h.entry⟩

theorem Confined.registered {b : ℕ} {path : Path} {m : BlobSessionManager} {fs : Files}
    (hw : WorldInv cfg w) (hroom : Headroom w) (hnone : ∀ c e, ¬ w.manager.Entry s c e)
    (hreg : World.Registers cfg s b path w {w with manager := m})
    (hpath : ∀ k, uploadPath cfg k ≠ path)
    (hnames : ∀ k, fs.names (uploadPath cfg k) = w.files.names (uploadPath cfg k)) :
    Confined cfg s {w with files := fs.unlink path} ⟨m, fs⟩ := by
  have hstart : WorldInv cfg {w with files := fs.unlink path} :=
    hw.refile fun k => (FileSystem.names_unlink_of_ne fs (hpath k)).trans (hnames k)
  have hmade := (Confined.start hstart hnone).registers hroom (hreg.refile _)
    (FileSystem.names_unlink_self fs path)
  have hid : b = w.manager.blobId + 1 := hreg.id.trans (add64_of_lt hroom.1)
  have he : m.Entry s b (path, 0) := by
    refine (hreg.entry s b _).mpr (Or.inr ⟨rfl, rfl, rfl, ?_⟩)
    rintro ⟨e, he⟩
    exact hnone b e he
  refine hmade.refile he ?_ fun p hp => ?_
  · exact ((safe_registers hroom.1 hreg).inv hw).refile hnames
  · have hsame := FileSystem.sameAt_unlink fs hp
    exact ⟨hsame.1.symm, hsame.2.symm⟩

namespace SmokeTest

/-- The body of a round of `get` works on its session, its registered file and the saved file. -/
theorem getBody_spec {σ : World} (fault size : ℕ) (hw : WorldInv cfg σ)
    (hroom : σ.manager.blobId + 1 < 2^64 ∧ σ.manager.sessionId + 2 < 2^64)
    (hchunk : 1 ≤ cfg.streamChunkSize)
    (htag : cfg.api.getTag (σ.manager.blobId + 1) jid = .ok tag) (hfits : tag < 2^64)
    (hcanonical : cfg.canonical (sourcePath pid fileId) = sourcePath pid fileId)
    (hsource : σ.files.names (sourcePath pid fileId) = none)
    (hsave : σ.files.names (savedPath jid) = none)
    (houtside : inDirectory cfg.directory (sourcePath pid fileId) = false ∧
      inDirectory cfg.directory (savedPath jid) = false) :
    ∃ r w', getBody cfg pid fileId fault jid size (add64 σ.manager.sessionId 1)
        {σ with manager := (σ.manager.createSession (some jid)).2} = some (r, w') ∧
      Confined cfg (add64 σ.manager.sessionId 1)
        ⟨(σ.manager.createSession (some jid)).2, w'.files.unlink (sourcePath pid fileId)⟩ w' ∧
      w'.manager.blobId = σ.manager.blobId + 1 ∧
      (∀ p, p ≠ sourcePath pid fileId → p ≠ savedPath jid → σ.files.SameAt w'.files p) ∧
      (r = .ok () → w'.files.names (savedPath jid) = none) ∧
      (r = .ok () ↔ Asks cfg fault tag ∧ fault ≠ 4 ∧
        ¬ Client.CutByBorder 0 (requestedSize size).toNat) := by
  have hnew := next_session_new hw (by omega)
  have hcreated := (safe_createSession (w := σ) (by omega) (some jid)).inv hw
  have howner : (σ.manager.createSession (some jid)).2.Owner (add64 σ.manager.sessionId 1)
      (some jid) := (BlobSessionManager.owner_createSession hnew).mpr (Or.inr ⟨rfl, rfl⟩)
  have hnone : ∀ c e, ¬ (σ.manager.createSession (some jid)).2.Entry
      (add64 σ.manager.sessionId 1) c e :=
    fun c e he => hnew ((BlobSessionManager.entry_createSession (some jid)).mp he).live
  have hroom₁ : Headroom {σ with manager := (σ.manager.createSession (some jid)).2} := by
    refine ⟨hroom.1, ?_⟩
    show add64 σ.manager.sessionId 1 + 1 < 2^64
    rw [add64_of_lt (by omega)]
    omega
  have hnext := next_session_new hcreated hroom₁.2
  obtain ⟨⟨m, fs₁⟩, hcreate, hreg, hcontents, hothers⟩ := createBlobForDownLoad_spec
    (w := {σ with manager := (σ.manager.createSession (some jid)).2}) size hroom.1 howner hsource
    hcanonical htag
  have hblob : (σ.manager.createSession (some jid)).2.blobId = σ.manager.blobId := rfl
  dsimp only at hcreate hreg hcontents hothers
  rw [hblob] at hcreate hreg
  have hupload := inDirectory_uploadPath_ne houtside.1
  have hnames₁ : ∀ k, fs₁.names (uploadPath cfg k) = σ.files.names (uploadPath cfg k) :=
    fun k => (hothers _ (hupload k)).1
  have hentry : ∀ c e, m.Entry (add64 σ.manager.sessionId 1) c e ↔
      c = σ.manager.blobId + 1 ∧ e = (sourcePath pid fileId, 0) := by
    intro c e
    refine (hreg.entry _ c e).trans ⟨fun h => ?_, fun h => ?_⟩
    · rcases h with hold | ⟨_, hc, he, _⟩
      · exact absurd hold (hnone c e)
      · exact ⟨hc, he⟩
    · refine Or.inr ⟨rfl, h.1, h.2, ?_⟩
      rintro ⟨e', he'⟩
      exact hnone _ e' he'
  have hw₁ : WorldInv cfg ⟨m, fs₁⟩ := ((safe_registers hroom₁.1 hreg).inv hcreated).refile hnames₁
  obtain ⟨⟨m₂, fs₂⟩, hremove, hm, hw₂, hothers₂, hfile, hpresent⟩ := removeSource_spec fault hw₁
    ((hentry _ _).mpr ⟨rfl, rfl⟩) hcontents
  obtain rfl : m₂ = m := hm
  dsimp only at hothers₂ hfile hpresent
  have hoffers : Offers cfg jid (add64 σ.manager.sessionId 1) (σ.manager.blobId + 1)
      (sourcePath pid fileId) tag ⟨m₂, fs₂⟩ := by
    refine ⟨hw₂, (hreg.sessions.owner _ _).mpr howner, ?_, hentry, htag, add64_lt _ _, by omega, hfits⟩
    exact fun hl => hnext ((hreg.sessions.live _).mp hl)
  have hsave₂ : fs₂.names (savedPath jid) = none :=
    (hothers₂ _ savedPath_ne).1.trans ((hothers _ savedPath_ne).1.trans hsave)
  obtain ⟨r, fs, hends, hiff⟩ := fetchBody_spec fault hoffers hchunk hsave₂ hfile
  have hbody : getBody cfg pid fileId fault jid size (add64 σ.manager.sessionId 1)
      {σ with manager := (σ.manager.createSession (some jid)).2} = some (r, ⟨m₂, fs⟩) := by
    have hcall : call ⟨0, 0, 0⟩ (.returned SupportStatus.ok
        (some (⟨0, σ.manager.blobId + 1, tag⟩ : BlobReference))) =
          .ok ⟨0, σ.manager.blobId + 1, tag⟩ := rfl
    simp only [getBody, hcreate, hcall, hremove]
    exact hends.body
  have hall : ∀ p, p ≠ sourcePath pid fileId → p ≠ savedPath jid → σ.files.SameAt fs p :=
    fun p hp hp' => (hothers p hp).trans ((hothers₂ p hp).trans (hends.elsewhere p hp'))
  refine ⟨r, ⟨m₂, fs⟩, hbody, ?_, hreg.blobId, hall, hends.cleared, hiff.trans ?_⟩
  · exact Confined.registered hcreated hroom₁ hnone hreg hupload
      fun k => (hall _ (hupload k) (inDirectory_uploadPath_ne houtside.2 k)).1
  · rw [hpresent]

/-- In any reachable state a round of the client's `get` comes to its end, and passes exactly
when its request still names the registered file under an accepted tag, the file is there, and
the comparison does not cut its last read at the border of two repetitions. Its session and
the registered file are gone then, and the datastore's transaction with them from the index;
only a round that fails can leave its saved file behind. -/
theorem get_round_iff (cfg : Config) {σ : System} (fault size jid pid fileId : ℕ) {tag : BlobTag}
    (hσ : Reachable cfg σ) (hroom : σ.shared.manager.sessionId + 2 < 2^64)
    (hchunk : 1 ≤ cfg.streamChunkSize)
    (htag : cfg.api.getTag (σ.shared.manager.blobId + 1) jid = .ok tag) (hfits : tag < 2^64)
    (hcanonical : cfg.canonical (sourcePath pid fileId) = sourcePath pid fileId)
    (hsource : σ.shared.files.names (sourcePath pid fileId) = none)
    (hsave : σ.shared.files.names (savedPath jid) = none)
    (houtside : inDirectory cfg.directory (sourcePath pid fileId) = false ∧
      inDirectory cfg.directory (savedPath jid) = false) :
    ∃ round w', get cfg (fun _ => .succeeds) pid fileId fault jid size σ.shared =
        some (round, w') ∧ round ≠ .terminated ∧
      (round = .passed ↔ Asks cfg fault tag ∧ fault ≠ 4 ∧
        ¬ Client.CutByBorder 0 (requestedSize size).toNat) ∧
      w'.manager = {σ.shared.manager with
        sessionId := σ.shared.manager.sessionId + 1
        blobId := σ.shared.manager.blobId + 1
        blobSessionIds := σ.shared.manager.blobSessionIds.erase jid} ∧
      ∀ p, (p = savedPath jid → round = .passed) → σ.shared.files.SameAt w'.files p := by
  have hw := hσ.world
  have hid : add64 σ.shared.manager.sessionId 1 = σ.shared.manager.sessionId + 1 :=
    add64_of_lt (by omega)
  obtain ⟨r, w₁, hbody, hconf, hblob, hothers, hcleared, hiff⟩ := getBody_spec fault size hw
    ⟨hσ.1.1, hroom⟩ hchunk htag hfits hcanonical hsource hsave houtside
  have hnew := next_session_new hw (by omega)
  obtain ⟨w', hdispose, hmanager, hfiles⟩ := disposed_leaves_nothing
    {σ.shared with files := w₁.files.unlink (sourcePath pid fileId)} hnew hw.currentSize_lt hconf
  obtain ⟨hends, hpassed⟩ := roundOf_ok r
  refine ⟨_, w', ?_, hends, hpassed.trans hiff, ?_, fun p hp => ?_⟩
  · show (getBody cfg pid fileId fault jid size _ _).bind _ = _
    exact (congrArg (Option.bind · _) hbody).trans (close_ok hdispose)
  · rw [hmanager, hid, hblob]
    rfl
  · have hlast := hfiles p
    by_cases hsrc : p = sourcePath pid fileId
    · -- removed with its entry, and absent at the start
      subst hsrc
      have hgone := hlast.1.trans (FileSystem.names_unlink_self w₁.files (sourcePath pid fileId))
      exact ⟨hgone.trans hsource.symm,
        (FileSystem.contents_absent hgone).trans (FileSystem.contents_absent hsource).symm⟩
    · have hunlinked := (FileSystem.sameAt_unlink w₁.files hsrc).trans hlast
      by_cases hsaved : p = savedPath jid
      · subst hsaved
        have hgone := hunlinked.1.trans (hcleared (hpassed.mp (hp rfl)))
        exact ⟨hgone.trans hsave.symm,
          (FileSystem.contents_absent hgone).trans (FileSystem.contents_absent hsave).symm⟩
      · exact (hothers p hsrc hsaved).trans hunlinked

/-- Mock tags are accepted, and the datastore's tags are one short of them. -/
def nearMockConfig : Config :=
  {smallConfig with
    devAcceptMockTag := true
    api := {smallConfig.api with getTag := fun _ _ => .ok (mockTag - 1)}}

/-- A round that passes; and one that passes although its tag is one too high. -/
theorem get_round_iff_nearMock : ∃ w' w'' : World,
    get smallConfig (fun _ => .succeeds) 12 1 0 7 40 smallStart.shared = some (.passed, w') ∧
    w'.manager.blobSessionIds[7]? = none ∧
    get nearMockConfig (fun _ => .succeeds) 12 1 3 7 40 smallStart.shared = some (.passed, w'') := by
  have hsource : smallStart.shared.files.names (sourcePath 12 1) = none := rfl
  have hsave : smallStart.shared.files.names (savedPath 7) = none := rfl
  obtain ⟨round, w', hget, _, hiff, hmanager, _⟩ := get_round_iff smallConfig
    0 40 7 12 1 (.of_runs smallStart_initial (rfl : runs _ [] _ = _) (by decide))
    (by decide) (by decide) rfl (by decide) rfl hsource hsave ⟨rfl, rfl⟩
  obtain ⟨round', w'', hget', _, hiff', _⟩ := get_round_iff nearMockConfig
    3 40 7 12 1 (.of_runs ⟨⟨rfl, emptyDisk, rfl⟩, rfl⟩ (rfl : runs _ [] smallStart = _) (by decide))
    (by decide) (by decide) rfl (by decide) rfl hsource hsave ⟨rfl, rfl⟩
  obtain rfl := hiff.mpr (by decide)
  obtain rfl := hiff'.mpr (by decide)
  refine ⟨w', w'', hget, ?_, hget'⟩
  rw [hmanager]
  exact (OrderedMap.get_erase _ _ _).trans (if_pos rfl)

end SmokeTest
end BlobRelay
