import BlobRelay.Admission
import BlobRelay.LocalService

/-! # Uploading by path against uploading by stream

`local_service::Put` registers the copied file with size zero, asks no quota and
leaves the tag out of its answer. The exact inputs on which it nevertheless ends
as the streaming `Put` of the same content are stated and proved. -/

namespace BlobRelay
open Foundation Foundation.FileStore

/-- Two states that no later call can tell apart: only inode numbers may differ. -/
structure SameState (w w' : World) : Prop where
  blobId : w'.manager.blobId = w.manager.blobId
  sessions : KeepsSessions w.manager w'.manager
  entry : ∀ s b e, w'.manager.Entry s b e ↔ w.manager.Entry s b e
  currentSize : w'.manager.currentSize = w.manager.currentSize
  files : ∀ p, w.files.Alike w'.files p

theorem SameState.refl (w : World) : SameState w w :=
  ⟨rfl, .refl _, fun _ _ _ => Iff.rfl, rfl, fun _ => ⟨rfl, rfl⟩⟩

/-- What `copy` answers when the next local upload copies `source`. -/
def copied (cfg : Config) (env : CopyEnv) (source : Path) (w : World) : Except Exn Unit :=
  (copy env source (uploadPath cfg (w.manager.blobId + 1)) w.files).1

/-- The local upload ends as a streaming upload of the same content would, however
that is cut into chunks and whether or not its size is declared; and when the file
cannot be copied no entry is left behind. -/
def UploadsAsStreaming (cfg : Config) (env : CopyEnv) (request : PutLocalRequest) (w : World) :
    Prop :=
  ∃ o w', localPut cfg env request w = some (o, w') ∧
    (copied cfg env request.path w = .ok () →
      ∀ content, w.files.contents request.path = some content →
      ∀ (penv : PutEnv) (blobSize : Option ℕ) (cs : List Bytes), penv.Favourable →
        (∀ n, blobSize = some n → n = content.length) → cs.flatten = content →
        ∃ w'', put cfg penv (.metadata ⟨request.apiVersion, request.sessionId, blobSize⟩ ::
            cs.map .chunk) w = some (o, w'') ∧ SameState w'' w') ∧
    (copied cfg env request.path w ≠ .ok () →
      ∀ s b e, w'.manager.Entry s b e → w.manager.Entry s b e)

/-- When it does: the version is refused, or the file is copied, is empty, its tag
comes out as the default value, and the usage is within the quota. -/
def UploadsAlike (cfg : Config) (env : CopyEnv) (request : PutLocalRequest) (w : World) : Prop :=
  blobRelayApiVersion < request.apiVersion ∨
    (copied cfg env request.path w = .ok () ∧
      ∀ content, w.files.contents request.path = some content →
        content = [] ∧
        BlobSessionImpl.computeTag cfg request.sessionId (w.manager.blobId + 1) = .ok 0 ∧
        (cfg.quota ≠ 0 → w.manager.currentSize ≤ cfg.quota))

variable {cfg : Config} {env : CopyEnv} {request : PutLocalRequest} {w : World}

/-- A local upload of a supported version into a live session registers a blob
without size and copies. -/
theorem localPut_spec (env : CopyEnv) (hw : WorldInv cfg w) (hroom : Headroom w)
    (hv : request.apiVersion ≤ blobRelayApiVersion) (hl : w.manager.Live request.sessionId) :
    ∃ w₁, World.Registers cfg request.sessionId (w.manager.blobId + 1)
        (uploadPath cfg (w.manager.blobId + 1)) w w₁ ∧
      w₁.manager.Entry request.sessionId (w.manager.blobId + 1)
        (uploadPath cfg (w.manager.blobId + 1), 0) ∧
      localPut cfg env request w = some
        (match copied cfg env request.path w with
          | .ok () => .returned LocalStatus.ok (some (localBlob (w.manager.blobId + 1)))
          | .error e => .thrown e,
        ⟨w₁.manager,
          (copy env request.path (uploadPath cfg (w.manager.blobId + 1)) w.files).2⟩) := by
  obtain ⟨⟨b, path⟩, w₁, hc⟩ := World.createBlobFile_of_live cfg hl
  obtain ⟨rfl, hreg⟩ := World.createBlobFile_spec hc
  obtain rfl : b = w.manager.blobId + 1 := hreg.id.trans (add64_of_lt hroom.1)
  refine ⟨w₁, hreg, (hreg.entry _ _ _).mpr (Or.inr ⟨rfl, rfl, rfl, fun ⟨e, he⟩ => ?_⟩), ?_⟩
  · have hle := (hw.blobIds _ _ _ he).2
    omega
  · obtain ⟨impl, hs⟩ := hl
    simp only [localPut, if_pos (checkApiVersion_iff.mpr hv),
      BlobSessionManager.getSessionImpl_of_some hs, hc, hreg.files, copied]
    rcases copy env request.path (uploadPath cfg (w.manager.blobId + 1)) w.files with ⟨e | u, files⟩
    · rfl
    · rfl

theorem localPut_unsupported (hv : blobRelayApiVersion < request.apiVersion) :
    localPut cfg env request w =
      some (.returned (PutStatus.apiVersion request.apiVersion) none, w) := by
  simp only [localPut, if_neg (checkApiVersion_not_iff.mpr hv)]
  rfl

/-! ### The two uploads of an empty file -/

theorem flatten_nil_length {cs : List Bytes} (h : cs.flatten = []) : totalLength cs = 0 := by
  rw [totalLength_eq, h, List.length_nil]

theorem passes_empty {quota usage : ℕ} {cs : List Bytes} (hflat : cs.flatten = [])
    (hfit : quota ≠ 0 → usage ≤ quota) : Passes quota usage (cs.map .chunk) := by
  by_cases hq : quota = 0
  · intro before m after code heq hstop
    cases hstop with
    | exceeds hne _ => exact hne hq
    | notChunk hm =>
      have hstop : Stops quota usage before m .invalidArgument := .notChunk hm
      cases stops_chunks heq hstop
  · refine (passes_chunks_iff hq).mpr (Or.inr ?_)
    rw [hflat]
    exact hfit hq

/-- Of a regular file `copy` makes the file the upload is named after, when it succeeds. -/
theorem copied_ok {content : Bytes} (hw : WorldInv cfg w)
    (hsource : w.files.contents request.path = some content)
    (hok : copied cfg env request.path w = .ok ()) :
    (copy env request.path (uploadPath cfg (w.manager.blobId + 1)) w.files).2 =
      w.files.createWith (uploadPath cfg (w.manager.blobId + 1)) content := by
  have htarget : w.files.names (uploadPath cfg (w.manager.blobId + 1)) = none := by
    by_contra hne
    have hle := (hw.uploads _ hne).2
    omega
  obtain ⟨i, hname, _⟩ := FileSystem.contents_regular hsource
  have hcopy : copy env request.path (uploadPath cfg (w.manager.blobId + 1)) w.files =
      (if (w.files.copyFile (env.copies 0) request.path
          (uploadPath cfg (w.manager.blobId + 1))).1 then .ok ()
        else .error (.filesystemError "cannot copy"),
      (w.files.copyFile (env.copies 0) request.path
        (uploadPath cfg (w.manager.blobId + 1))).2) := by
    simp only [copy, hname, copyLeaf, htarget]
  rw [copied, hcopy] at hok
  rw [hcopy]
  cases hr : env.copies 0 with
  | succeeds => rw [FileSystem.copyFile_succeeds hsource htarget]
  | notOpened =>
    rw [hr] at hok
    simp [FileSystem.copyFile, hsource, htarget] at hok
  | breaksOff kept =>
    rw [hr] at hok
    simp [FileSystem.copyFile, hsource, htarget] at hok

theorem sameState_empty {s : ℕ} {penv : PutEnv} {chunks : List Bytes} {w₁ w'' : World}
    (hw : WorldInv cfg w) (henv : penv.Favourable) (hflat : chunks.flatten = [])
    (hup : Uploaded cfg penv s chunks w w'')
    (hreg : World.Registers cfg s (w.manager.blobId + 1)
      (uploadPath cfg (w.manager.blobId + 1)) w w₁) :
    SameState w'' ⟨w₁.manager, w.files.createWith (uploadPath cfg (w.manager.blobId + 1)) []⟩ := by
  have hnew : ¬ ∃ e, w.manager.Entry s (w.manager.blobId + 1) e := by
    rintro ⟨e, he⟩
    have hle := (hw.blobIds _ _ _ he).2
    omega
  refine ⟨hreg.blobId.trans hup.blobId.symm, hup.sessions.symm.trans hreg.sessions, ?_, ?_, ?_⟩
  · intro r c e
    rw [hreg.entry, hup.entry, flatten_nil_length hflat, Nat.zero_mod]
    simp only [hnew, not_false_eq_true, and_true]
  · rw [hreg.currentSize, hup.currentSize, flatten_nil_length hflat,
      charged_zero hw.currentSize_lt]
  · intro p
    by_cases hp : p = uploadPath cfg (w.manager.blobId + 1)
    · subst hp
      have hfile := hup.contents henv.writes henv.closes
      rw [hflat] at hfile
      have hcopy : (w.files.createWith (uploadPath cfg (w.manager.blobId + 1)) []).contents
          (uploadPath cfg (w.manager.blobId + 1)) = some [] := by
        rw [FileSystem.contents_createWith, if_pos rfl]
      exact ⟨(FileSystem.present_of_contents hfile).trans
        (FileSystem.present_of_contents hcopy).symm, hfile.trans hcopy.symm⟩
    · obtain ⟨hname, hcontents⟩ := hup.sameAt hp
      have hname' :=
        FileSystem.names_createWith w.files (uploadPath cfg (w.manager.blobId + 1)) p []
      rw [if_neg hp] at hname'
      refine ⟨?_, ?_⟩
      · simp only [FileSystem.present, hname, hname']
      · rw [hcontents, FileSystem.contents_createWith, if_neg hp]

/-! ### Exactly when -/

theorem uploadsAsStreaming_of_alike (hw : WorldInv cfg w) (hroom : Headroom w)
    (hl : w.manager.Live request.sessionId) (h : UploadsAlike cfg env request w) :
    UploadsAsStreaming cfg env request w := by
  rcases Nat.lt_or_ge blobRelayApiVersion request.apiVersion with hv | hv
  · exact ⟨_, w, localPut_unsupported hv,
      fun _ _ _ _ _ _ _ _ _ => ⟨w, put_unsupported hv, .refl w⟩, fun _ _ _ _ he => he⟩
  · rcases h with hbad | ⟨hok, hempty⟩
    · omega
    · obtain ⟨w₁, hreg, _, hlocal⟩ := localPut_spec env hw hroom hv hl
      rw [hok] at hlocal
      refine ⟨_, _, hlocal, fun _ content hsource penv blobSize cs henv hsize hcs => ?_,
        fun hbad => absurd hok hbad⟩
      obtain ⟨rfl, htag, hfit⟩ := hempty content hsource
      rw [copied_ok hw hsource hok]
      have hlt : w.manager.currentSize + cs.flatten.length < 2^64 := by
        rw [hcs]
        exact hw.currentSize_lt
      obtain ⟨chunks, o, w'', hflat, hput, hexit⟩ := put_passes
        (m := ⟨request.apiVersion, request.sessionId, blobSize⟩) hw hroom henv hv hl
        (passes_empty hcs hfit) (noWrap_chunks hlt)
      rw [payload_chunks, hcs] at hflat hexit
      rcases hexit with ⟨⟨n, hn, hne⟩, _⟩ | ⟨_, rfl, hup⟩
      · exact absurd (hsize n hn) hne
      · have hanswer : putResponse cfg request.sessionId (w.manager.blobId + 1) =
            .returned LocalStatus.ok (some (localBlob (w.manager.blobId + 1))) := by
          simp only [putResponse, htag]
          rfl
        exact ⟨w'', hanswer ▸ hput, sameState_empty hw henv hflat hup hreg⟩

theorem alike_of_uploadsAsStreaming (hw : WorldInv cfg w) (hroom : Headroom w)
    (hl : w.manager.Live request.sessionId)
    (hlt : ∀ content, w.files.contents request.path = some content → content.length < 2^64)
    (h : UploadsAsStreaming cfg env request w) : UploadsAlike cfg env request w := by
  rcases Nat.lt_or_ge blobRelayApiVersion request.apiVersion with hv | hv
  · exact Or.inl hv
  · right
    obtain ⟨w₁, hreg, hentry, hlocal⟩ := localPut_spec env hw hroom hv hl
    obtain ⟨o, w', hput', hsame, hnone⟩ := h
    obtain ⟨rfl, rfl⟩ := Prod.mk.inj (Option.some.inj (hput'.symm.trans hlocal))
    have hok : copied cfg env request.path w = .ok () := by
      by_contra hbad
      have hle := (hw.blobIds _ _ _ (hnone hbad _ _ _ hentry)).2
      omega
    refine ⟨hok, fun content hsource => ?_⟩
    obtain ⟨w'', hstream, hstate⟩ := hsame hok content hsource .calm none [content] calm_favourable
      nofun (by simp)
    rw [hok] at hstream
    -- the stream is not refused, so its one chunk fits
    cases hr : (reserve cfg.quota content.length w.manager.currentSize).1 with
    | false =>
      have hscan : scan cfg.quota w.manager.currentSize ([content].map .chunk) =
          (.refused, []) := by
        simp only [List.map_cons, List.map_nil, scan, hr, Bool.false_eq_true, if_false]
      obtain ⟨o, v, hput, hexit⟩ := put_ends
        (m := ⟨request.apiVersion, request.sessionId, none⟩) hw hroom calm_favourable hv hl hscan
      obtain ⟨rfl, rfl⟩ := Prod.mk.inj (Option.some.inj (hstream.symm.trans hput))
      cases hexit.1
    | true =>
      have hscan : scan cfg.quota w.manager.currentSize ([content].map .chunk) =
          (.complete, [content]) := by
        simp only [List.map_cons, List.map_nil, scan, hr, if_true]
      obtain ⟨o, v, hput, hexit⟩ := put_ends
        (m := ⟨request.apiVersion, request.sessionId, none⟩) hw hroom calm_favourable hv hl hscan
      obtain ⟨rfl, rfl⟩ := Prod.mk.inj (Option.some.inj (hstream.symm.trans hput))
      rcases hexit with ⟨_, hbad⟩ | ⟨_, hanswer, hup⟩
      · cases hbad
      · have hzero : content.length = 0 := by
          have hrecorded := ((hstate.entry _ _ _).mp hentry).unique hup.new_entry
          have hsize : 0 = totalLength [content] % 2^64 := congrArg Prod.snd hrecorded
          have hlen := hlt content hsource
          rw [totalLength_eq, List.flatten_singleton, Nat.mod_eq_of_lt hlen] at hsize
          exact hsize.symm
        refine ⟨List.eq_nil_of_length_eq_zero hzero, ?_, fun hq => ?_⟩
        · rcases putResponse_cases cfg request.sessionId (w.manager.blobId + 1) with
            ⟨tag, htag, hr⟩ | ⟨what, hr⟩
          · rw [hr] at hanswer
            obtain rfl : (0 : ℕ) = tag := by
              have hblob := (PutOutcome.returned.inj hanswer).2
              exact congrArg BlobReference.tag (Option.some.inj hblob)
            exact htag
          · rw [hr] at hanswer
            cases hanswer
        · rw [hzero, reserve, if_pos hq, add64_of_lt hw.currentSize_lt] at hr
          by_contra hgt
          rw [if_pos (by omega)] at hr
          cases hr

/-- In every reachable state, for every live session and every source: the local
upload ends as the streaming one exactly when `UploadsAlike` says so. -/
theorem local_upload_iff {σ : Service} (hσ : ServiceReachable cfg σ)
    (hl : σ.shared.manager.Live request.sessionId)
    (hlt : ∀ content, σ.shared.files.contents request.path = some content →
      content.length < 2^64) :
    UploadsAsStreaming cfg env request σ.shared ↔ UploadsAlike cfg env request σ.shared :=
  ⟨alike_of_uploadsAsStreaming hσ.world hσ.1 hl hlt, uploadsAsStreaming_of_alike hσ.world hσ.1 hl⟩

/-- A session, and a client's file beside the store directory. -/
def clientFile (bytes : Bytes) : List SystemMove :=
  [.env (.createSession none), .env (.outsideWrite ["client"] bytes)]

theorem local_upload_differs : ¬ ∀ (cfg : Config) (env : CopyEnv) (σ : Service)
    (request : PutLocalRequest) (content : Bytes), ServiceReachable cfg σ →
    request.apiVersion ≤ blobRelayApiVersion → σ.shared.manager.Live request.sessionId →
    σ.shared.files.contents request.path = some content → content.length < 2^64 →
    UploadsAsStreaming cfg env request σ.shared := by
  intro h
  obtain ⟨σ, hrun, hend⟩ := (Option.any_eq_true
    (fun σ : System => decide (Headroom σ.shared) && σ.shared.manager.blobSessions[1]?.isSome &&
      σ.shared.files.contents ["client"] == some [1, 2, 3]) _).mp
    (by decide : (runs smallConfig (clientFile [1, 2, 3]) smallStart).any _ = true)
  simp only [Bool.and_eq_true, decide_eq_true_eq, beq_iff_eq] at hend
  obtain ⟨⟨hroom, hlive⟩, hfile⟩ := hend
  obtain ⟨impl, hs⟩ := Option.isSome_iff_exists.mp hlive
  have hσ : ServiceReachable smallConfig (Service.ofSystem σ) :=
    (Reachable.of_runs smallStart_initial hrun hroom).service
  have hsame := h smallConfig .calm (Service.ofSystem σ) ⟨1, 1, ["client"]⟩ [1, 2, 3] hσ
    (by decide) ⟨impl, hs⟩ hfile (by decide)
  have halike : UploadsAlike smallConfig .calm ⟨1, 1, ["client"]⟩ (Service.ofSystem σ).shared :=
    alike_of_uploadsAsStreaming hσ.world hσ.1 ⟨impl, hs⟩ (fun content hc => by
      obtain rfl := Option.some.inj (hfile.symm.trans hc)
      decide) hsame
  rcases halike with hbad | ⟨_, hempty⟩
  · exact absurd hbad (by decide)
  · exact absurd (hempty [1, 2, 3] hfile).1 (by decide)

theorem local_upload_iff_empty : ∃ σ, ServiceReachable smallConfig σ ∧
    σ.shared.files.contents ["client"] = some [] ∧
    ¬ UploadsAsStreaming smallConfig .calm ⟨1, 1, ["client"]⟩ σ.shared := by
  obtain ⟨σ, hrun, hend⟩ := (Option.any_eq_true
    (fun σ : System => decide (Headroom σ.shared) && σ.shared.manager.blobSessions[1]?.isSome &&
      decide (σ.shared.manager.blobId = 0) &&
      σ.shared.files.contents ["client"] == some []) _).mp
    (by decide : (runs smallConfig (clientFile []) smallStart).any _ = true)
  simp only [Bool.and_eq_true, decide_eq_true_eq, beq_iff_eq] at hend
  obtain ⟨⟨⟨hroom, hlive⟩, hid⟩, hfile⟩ := hend
  obtain ⟨impl, hs⟩ := Option.isSome_iff_exists.mp hlive
  have hσ : ServiceReachable smallConfig (Service.ofSystem σ) :=
    (Reachable.of_runs smallStart_initial hrun hroom).service
  refine ⟨Service.ofSystem σ, hσ, hfile, fun hsame => ?_⟩
  have hiff : UploadsAsStreaming smallConfig .calm ⟨1, 1, ["client"]⟩ (Service.ofSystem σ).shared ↔
      UploadsAlike smallConfig .calm ⟨1, 1, ["client"]⟩ (Service.ofSystem σ).shared :=
    local_upload_iff hσ ⟨impl, hs⟩ fun content hc => by
      obtain rfl := Option.some.inj (hfile.symm.trans hc)
      decide
  rcases hiff.mp hsame with hbad | ⟨_, hempty⟩
  · exact absurd hbad (by decide)
  · have htag := (hempty [] hfile).2.1
    change BlobSessionImpl.computeTag smallConfig 1 (σ.shared.manager.blobId + 1) = .ok 0 at htag
    rw [hid] at htag
    have hnonzero : BlobSessionImpl.computeTag smallConfig 1 (0 + 1) ≠ .ok 0 := by decide
    exact hnonzero htag

end BlobRelay
