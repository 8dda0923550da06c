import BlobRelay.Admission
import BlobRelay.Client
import BlobRelay.Confinement

/-! # The smoke test (smoke_test/support.h, client/session.h, client/main.cpp)

One round of the command-line client's `put`: it creates a session, uploads a blob, asks for
the path, compares the file there and disposes the session. Client and service run on one
host and share its files. -/

namespace BlobRelay
open Foundation Foundation.FileStore

namespace SmokeTest

/-! ### The support service -/

/-- How a handler ends: a status, with what was set in the response. -/
inductive Reply (α : Type)
  | returned (status : Status) (response : Option α)
  | thrown (e : Exn)

namespace SupportStatus

def ok : Status := ⟨.ok, ""⟩
def noFile : Status := ⟨.notFound, "can not find the blob file"⟩

end SupportStatus

/-- `CreateSession`, with the id in its response. -/
def createSession (transactionIdOpt : Option TransactionId) (w : World) : SessionId × World :=
  ((w.manager.createSession transactionIdOpt).1,
    {w with manager := (w.manager.createSession transactionIdOpt).2})

def disposeSession (cfg : Config) (s : SessionId) (deletes : ℕ → DeleteResult) (w : World) :
    Option (Reply Unit × World) :=
  (BlobSession.dispose cfg s deletes w).map fun r =>
    (match r.1 with
      | .ok () => .returned SupportStatus.ok none
      | .error e => .thrown e, r.2)

/-- The `out_of_range` of a missing session is not a `runtime_error`. -/
def getFilePath (m : BlobSessionManager) (s : SessionId) (b : BlobId) : Reply Path :=
  match m.getSessionImpl s with
  | .error e => .thrown e
  | .ok impl =>
    match impl.find b with
    | some path => .returned SupportStatus.ok (some path)
    | none => .returned SupportStatus.noFile none

/-! ### The client's `session` -/

/-- A call through the stub: a status other than OK is thrown with its message, and what
the response does not set reads as the default. -/
def call {α : Type} (default : α) : Reply α → Except Exn α
  | .returned status response =>
    if status.code ≠ .ok then .error (.stdException status.message)
    else .ok (response.getD default)
  | .thrown _ => .error (.stdException Client.handlerThrew)

/-- How a round ends. What `~session` throws leaves a destructor. -/
inductive Round
  | passed
  | failed (e : Exn)
  | terminated
  deriving DecidableEq

def inconsistentContents : Exn := .stdException "inconsistent file contents"

def roundOf (disposed body : Except Exn Unit) : Round :=
  match disposed, body with
  | .error _, _ => .terminated
  | .ok (), .ok () => .passed
  | .ok (), .error e => .failed e

/-- The session goes out of scope, whether the body has thrown or not. -/
def close (cfg : Config) (s : SessionId) (deletes : ℕ → DeleteResult)
    (body : Except Exn Unit × World) : Option (Round × World) :=
  (disposeSession cfg s deletes body.2).map fun r => (roundOf (call () r.1) body.1, r.2)

/-- `client.compare(path)`, and the exception when it says no. -/
def compareFile (path : Path) (w : World) : Option (Except Exn Unit × World) :=
  (Client.compare (w.files.contents path)).map fun same =>
    (if same then .ok () else .error inconsistentContents, w)

/-- The body of `put` in main.cpp. -/
def putBody (cfg : Config) (env : PutEnv) (fault size : ℕ) (s : SessionId) (w : World) :
    Option (Except Exn Unit × World) :=
  match Client.putRequests fault s size with
  | none => none
  | some messages =>
    match BlobRelay.put cfg env messages w with
    | none => none
    | some (o, w) =>
      match Client.putResult o with
      | .error e => some (.error e, w)
      | .ok blobId =>
        match call [] (getFilePath w.manager s blobId) with
        | .error e => some (.error e, w)
        | .ok path => compareFile path w

/-- One round of `put` in main.cpp. -/
def put (cfg : Config) (env : PutEnv) (deletes : ℕ → DeleteResult) (fault size : ℕ) (w : World) :
    Option (Round × World) :=
  let (s, w) := createSession none w
  (putBody cfg env fault size s w).bind (close cfg s deletes)

end SmokeTest

variable {cfg : Config} {env : PutEnv} {w w' : World} {fault size s : ℕ}

/-! ### The upload of a round -/

theorem passes_unlimited (usage : ℕ) (cs : List Bytes) : Passes 0 usage (cs.map .chunk) := by
  induction cs generalizing usage with
  | nil =>
    intro before m after code heq
    simp at heq
  | cons bytes cs ih => exact passes_cons.mpr ⟨bytes, rfl, fun h => absurd rfl h, ih _⟩

/-- When the quota lets an upload of chunks in. -/
theorem passes_chunks_fit (quota usage : ℕ) {cs : List Bytes} (hcs : cs ≠ []) :
    Passes quota usage (cs.map .chunk) ↔ quota = 0 ∨ usage + cs.flatten.length ≤ quota := by
  by_cases hq : quota = 0
  · subst hq
    exact ⟨fun _ => Or.inl rfl, fun _ => passes_unlimited usage cs⟩
  · rw [passes_chunks_iff hq]
    exact or_congr_left ⟨fun h => absurd h hcs, fun h => absurd h hq⟩

namespace SmokeTest

theorem putResult_error {status : Status} (blob : Option BlobReference) (h : status.code ≠ .ok) :
    ∃ e, Client.putResult (.returned status blob) = .error e :=
  ⟨_, by rw [Client.putResult, if_pos h]⟩

theorem getFilePath_entry {m : BlobSessionManager} {b : BlobId} {e : Path × ℕ}
    (he : m.Entry s b e) : call [] (getFilePath m s b) = .ok e.1 := by
  obtain ⟨impl, hs, hb⟩ := he
  simp only [getFilePath, BlobSessionManager.getSessionImpl_of_some hs, BlobSessionImpl.find, hb,
    Option.map_some]
  rfl

theorem compareFile_stretch {path : Path} {n : ℕ}
    (h : w.files.contents path = some (stretch Client.reference 0 n)) :
    ∃ r, compareFile path w = some (r, w) ∧ (r = .ok () ↔ ¬ Client.CutByBorder 0 n) := by
  have hlen := length_stretch Client.reference 0 n
  have hcompare : Client.compare (some (stretch Client.reference 0 n)) =
      some (decide (Client.Accepted 0 (stretch Client.reference 0 n))) :=
    Client.compareReads_eq List.length_replicate (Nat.lt_succ_self _)
  have haccepted : Client.Accepted 0 (stretch Client.reference 0 n) ↔ ¬ Client.CutByBorder 0 n := by
    unfold Client.Accepted
    rw [hlen]
    exact and_iff_right rfl
  unfold compareFile
  rw [h, hcompare, Option.map_some]
  refine ⟨_, rfl, ?_⟩
  by_cases hcut : Client.CutByBorder 0 n
  · rw [decide_eq_false fun ha => haccepted.mp ha hcut]
    constructor
    · intro heq
      cases heq
    · exact fun hno => absurd hcut hno
  · rw [decide_eq_true (haccepted.mpr hcut)]
    exact ⟨fun _ => hcut, fun _ => rfl⟩

theorem putRequests_spec (fault s size : ℕ) :
    ∃ cs : List Bytes, cs ≠ [] ∧ cs.flatten = stretch Client.reference 0 size ∧
      Client.putRequests fault s size =
        some (.metadata (Client.putMetadata fault s size) :: cs.map .chunk) := by
  have hfuel : size - 0 < Client.sendFuel size := Nat.lt_succ_of_le (Nat.sub_le _ _)
  obtain ⟨cs, hsend, hcs, hflat⟩ := Client.sendChunks_spec size hfuel
  exact ⟨cs, hcs, hflat, by rw [Client.putRequests, hsend, Option.map_some]⟩

theorem putMetadata_sessionId (h : fault ≠ 1) (hs : s < 2^64) :
    (Client.putMetadata fault s size).sessionId = s := by
  rw [Client.putMetadata, if_neg h, add64_of_lt hs, Nat.add_zero]

theorem putMetadata_blobSize (fault s : ℕ) (hsize : size < 2^64) :
    (∀ k, (Client.putMetadata fault s size).blobSize = some k → k = size) ↔ fault ≠ 6 := by
  unfold Client.putMetadata
  by_cases h : fault = 6
  · simp only [h, if_true, Option.some.injEq, forall_eq', add64, ne_eq, not_true, iff_false]
    omega
  · simp only [h, if_false, Option.some.injEq, forall_eq', add64, ne_eq, not_false_iff, iff_true]
    omega

section Body
variable {w₁ : World} {messages : List PutStreamingRequest}
  (hmessages : Client.putRequests fault s size = some messages)
include hmessages

theorem putBody_error {status : Status} {blob : Option BlobReference}
    (hput : BlobRelay.put cfg env messages w = some (.returned status blob, w₁))
    (hcode : status.code ≠ .ok) : ∃ e, putBody cfg env fault size s w = some (.error e, w₁) := by
  obtain ⟨e, he⟩ := putResult_error blob hcode
  unfold putBody
  simp only [hmessages, hput, he]
  exact ⟨e, rfl⟩

theorem putBody_uploaded {blob : BlobReference} {e : Path × ℕ}
    (hput : BlobRelay.put cfg env messages w = some (.returned PutStatus.ok (some blob), w₁))
    (he : w₁.manager.Entry s blob.objectId e) :
    putBody cfg env fault size s w = compareFile e.1 w₁ := by
  have hresult : Client.putResult (.returned PutStatus.ok (some blob)) = .ok blob.objectId := rfl
  unfold putBody
  simp only [hmessages, hput, hresult, getFilePath_entry he]

end Body

/-- The body has worked on its session only, and ends well exactly when `passes`. -/
def BodyEnds (cfg : Config) (env : PutEnv) (fault size s : ℕ) (w₀ w : World) (passes : Prop) : Prop :=
  ∃ r w', putBody cfg env fault size s w = some (r, w') ∧ Confined cfg s w₀ w' ∧
    (r = .ok () ↔ passes)

theorem BodyEnds.error {w₀ w₁ : World} {e : Exn} {passes : Prop}
    (hbody : putBody cfg env fault size s w = some (.error e, w₁)) (hconf : Confined cfg s w₀ w₁)
    (hno : ¬ passes) : BodyEnds cfg env fault size s w₀ w passes := by
  refine ⟨.error e, w₁, hbody, hconf, ?_⟩
  constructor
  · intro heq
    cases heq
  · exact fun hyes => absurd hyes hno

section Upload
variable {w₀ : World} (hconf : Confined cfg s w₀ w) (hroom : Headroom w) (henv : env.Favourable)
  (hmac : cfg.tagGenerator.Yields)
include hconf hroom henv hmac

/-- No session has the id that fault 1 asks for. -/
theorem putBody_otherSession {passes : Prop} (h1 : fault = 1) (hnext : ¬ w.manager.Live (add64 s 1))
    (hlt : w.manager.currentSize + size < 2^64) (hno : ¬ passes) :
    BodyEnds cfg env fault size s w₀ w passes := by
  obtain ⟨cs, _, hflat, hmessages⟩ := putRequests_spec fault s size
  have hlen : cs.flatten.length = size := by rw [hflat, length_stretch]
  have hsession : (Client.putMetadata fault s size).sessionId = add64 s 1 := by
    rw [Client.putMetadata, if_pos h1]
  obtain ⟨status, blob, w₁, hput, hcode, hsame, _⟩ := put_decided hconf.world hroom henv hmac
    (fun m rest heq => by
      obtain ⟨_, rfl⟩ := List.cons.inj heq
      exact noWrap_chunks (by rw [hlen]; exact hlt))
    (.notLive le_rfl (hsession ▸ hnext))
  have hw : w₁ = w := by
    apply hsame
    intro m rest heq _
    obtain ⟨hm, _⟩ := List.cons.inj heq
    rw [← PutStreamingRequest.metadata.inj hm, hsession]
    exact hnext
  subst hw
  obtain ⟨e, hbody⟩ := putBody_error hmessages hput (by rw [hcode]; decide)
  exact .error hbody hconf hno

theorem putBody_spec (fault : ℕ) (hw₀ : WorldInv cfg w₀) (hl : w.manager.Live s) (hnext : ¬ w.manager.Live (add64 s 1))
    (hs : s < 2^64) (hlt : w.manager.currentSize + size < 2^64) :
    BodyEnds cfg env fault size s w₀ w (fault ≠ 1 ∧ fault ≠ 6 ∧
      (cfg.quota = 0 ∨ w.manager.currentSize + size ≤ cfg.quota) ∧
      ¬ Client.CutByBorder 0 size) := by
  by_cases h1 : fault = 1
  · exact putBody_otherSession hconf hroom henv hmac h1 hnext hlt fun h => h.1 h1
  obtain ⟨cs, hcs, hflat, hmessages⟩ := putRequests_spec fault s size
  have hlen : cs.flatten.length = size := by rw [hflat, length_stretch]
  have hsession : (Client.putMetadata fault s size).sessionId = s := putMetadata_sessionId h1 hs
  have hdeclared := putMetadata_blobSize fault s (by omega : size < 2^64)
  have hfit := passes_chunks_fit cfg.quota w.manager.currentSize hcs
  have hwrap : NoWrap cfg.quota w.manager.currentSize (cs.map .chunk) :=
    noWrap_chunks (by rw [hlen]; exact hlt)
  have hv : (Client.putMetadata fault s size).apiVersion ≤ blobRelayApiVersion := le_rfl
  rw [hlen] at hfit
  generalize Client.putMetadata fault s size = m at hsession hdeclared hmessages hv
  subst hsession
  have hexit : ∀ {o w₁}, BlobRelay.put cfg env (.metadata m :: cs.map .chunk) w = some (o, w₁) →
      Confined cfg m.sessionId w₀ w₁ := by
    intro o w₁ hput
    refine hconf.putExit hw₀ hroom henv.deletes ?_ (put_exit hconf.world hroom hput)
    exact fun r hr => (Option.some.inj hr).symm
  rcases passes_or_stopped cfg.quota w.manager.currentSize (cs.map .chunk) with
    hpass | ⟨before, x, after, code, heq, hpass, hstop⟩
  · obtain ⟨chunks, o, w₁, hall, hput, hend⟩ :=
      put_passes hconf.world hroom henv hv hl hpass hwrap
    rw [payload_chunks, hlen] at hend
    rcases hend with ⟨⟨n, hn, hne⟩, rfl⟩ | ⟨hsize, rfl, hup⟩
    · obtain ⟨e, hbody⟩ := putBody_error hmessages hput (by decide)
      exact .error hbody (hexit hput) fun h => hne (hdeclared.mpr h.2.1 n hn)
    · obtain ⟨tag, _, hanswer⟩ := putResponse_ok hmac m.sessionId (w.manager.blobId + 1)
      have hconf₁ := hexit hput
      rw [hanswer] at hput
      have hfile := hup.contents henv.writes henv.closes
      rw [hall, payload_chunks, hflat] at hfile
      obtain ⟨r, hr, hiff⟩ := compareFile_stretch hfile
      refine ⟨r, w₁, (putBody_uploaded hmessages hput hup.new_entry).trans hr, hconf₁, hiff.trans ?_⟩
      exact ⟨fun hcut => ⟨h1, hdeclared.mp hsize, hfit.mp hpass, hcut⟩, fun h => h.2.2.2⟩
  · obtain rfl := stops_chunks heq hstop
    have hrefused : ¬ (cfg.quota = 0 ∨ w.manager.currentSize + size ≤ cfg.quota) :=
      fun hfits => hfit.mpr hfits before x after _ heq hstop
    rw [heq] at hwrap hexit hmessages
    obtain ⟨status, w₁, hput, hcode, _⟩ :=
      put_stopped hconf.world hroom henv hv hl hpass hstop hwrap
    obtain ⟨e, hbody⟩ := putBody_error hmessages hput (by rw [hcode]; decide)
    exact .error hbody (hexit hput) fun h => hrefused h.2.2.1

end Upload

theorem roundOf_ok (body : Except Exn Unit) :
    roundOf (.ok ()) body ≠ .terminated ∧ (roundOf (.ok ()) body = .passed ↔ body = .ok ()) := by
  cases body with
  | ok _ => simp [roundOf]
  | error e => simp [roundOf]

theorem close_ok {body : Except Exn Unit} {w₁ : World}
    (h : BlobSession.dispose cfg s (fun _ => .succeeds) w = some (.ok (), w₁)) :
    close cfg s (fun _ => .succeeds) (body, w) = some (roundOf (.ok ()) body, w₁) := by
  unfold close disposeSession
  rw [h]
  rfl

/-- In any reachable state a round of the client's `put` comes to its end, and passes exactly
when no fault is asked for that shows, the blob fits into the quota, and the comparison does
not cut its last read at the border of two repetitions. However it ends, the service and the
files are left as they were, but for the two id counters. -/
theorem put_round_iff {σ : System} (fault size : ℕ) (hσ : Reachable cfg σ)
    (hroom : σ.shared.manager.sessionId + 2 < 2^64) (henv : env.Favourable)
    (hmac : cfg.tagGenerator.Yields) (hlt : σ.shared.manager.currentSize + size < 2^64) :
    ∃ round w', put cfg env (fun _ => .succeeds) fault size σ.shared = some (round, w') ∧
      round ≠ .terminated ∧
      (round = .passed ↔ fault ≠ 1 ∧ fault ≠ 6 ∧
        (cfg.quota = 0 ∨ σ.shared.manager.currentSize + size ≤ cfg.quota) ∧
        ¬ Client.CutByBorder 0 size) ∧
      w'.manager = {σ.shared.manager with
        sessionId := σ.shared.manager.sessionId + 1
        blobId := w'.manager.blobId} ∧
      ∀ p, σ.shared.files.SameAt w'.files p := by
  have hw := hσ.world
  have hid : add64 σ.shared.manager.sessionId 1 = σ.shared.manager.sessionId + 1 :=
    add64_of_lt (by omega)
  have hcreated := (safe_createSession (by omega) none).inv hw
  have hconf := Confined.created (t := none) hw (by omega)
  have hl : (σ.shared.manager.createSession none).2.Live (add64 σ.shared.manager.sessionId 1) :=
    (BlobSessionManager.live_createSession none).mpr (Or.inr rfl)
  have hroom₁ : Headroom {σ.shared with manager := (σ.shared.manager.createSession none).2} := by
    refine ⟨hσ.1.1, ?_⟩
    show add64 σ.shared.manager.sessionId 1 + 1 < 2^64
    omega
  have hnext := next_session_new hcreated hroom₁.2
  obtain ⟨r, w₁, hbody, hconf₁, hiff⟩ := putBody_spec hconf hroom₁ henv hmac fault
    hcreated hl hnext (add64_lt _ _) hlt
  obtain ⟨w', hdispose, hmanager, hfiles⟩ := disposed_leaves_nothing _
    (next_session_new hw (by omega)) hw.currentSize_lt hconf₁
  obtain ⟨hends, hpassed⟩ := roundOf_ok r
  refine ⟨_, w', ?_, hends, hpassed.trans hiff, ?_, hfiles⟩
  · show (putBody cfg env fault size _ _).bind _ = _
    exact (congrArg (Option.bind · _) hbody).trans (close_ok hdispose)
  · rw [hmanager, hid]
    rfl

/-- A blob that fills the quota passes; one of sixty bytes does not, although it is stored. -/
theorem put_round_iff_cut : ∃ w' : World,
    put smallConfig .calm (fun _ => .succeeds) 0 10 smallStart.shared = some (.passed, w') ∧
    w'.manager.currentSize = 0 ∧
    ∀ w'', put {smallConfig with quota := 0} .calm (fun _ => .succeeds) 0 60 smallStart.shared ≠
      some (.passed, w'') := by
  have hreach : ∀ quota, Reachable {smallConfig with quota := quota} smallStart := by
    intro quota
    exact .of_runs ⟨⟨rfl, emptyDisk, rfl⟩, rfl⟩ (rfl : runs _ [] smallStart = _) (by decide)
  obtain ⟨round, w', hput, _, hiff, hmanager, _⟩ := put_round_iff 0 10 (hreach 10) (by decide)
    calm_favourable (fun _ => ⟨_, rfl⟩) (by decide)
  obtain ⟨round', w₁, hput', _, hiff', _⟩ := put_round_iff 0 60 (hreach 0) (by decide)
    calm_favourable (fun _ => ⟨_, rfl⟩) (by decide)
  obtain rfl := hiff.mpr (by decide)
  refine ⟨w', hput, by rw [hmanager]; rfl, fun w'' hpassed => ?_⟩
  rw [hput'] at hpassed
  exact absurd (hiff'.mp (congrArg Prod.fst (Option.some.inj hpassed))) (by decide)

end SmokeTest
end BlobRelay
