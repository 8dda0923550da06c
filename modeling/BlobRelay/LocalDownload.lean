import BlobRelay.GetDecision
import BlobRelay.TransactionIndex
import BlobRelay.LocalService

/-! # Downloading by path against downloading by stream

`local_service::Get` answers from the datastore alone: it knows neither storage
ids nor mock tags, looks up no file, and finds no session by transaction. The
exact requests on which it still agrees with the streaming `Get` are stated and
proved. -/

namespace BlobRelay
open Foundation Foundation.FileStore

/-- The streaming request with the same context and the same reference. -/
def GetLocalRequest.streaming (request : GetLocalRequest) : GetStreamingRequest :=
  ⟨request.apiVersion, request.contextId, request.blob⟩

/-- The streaming `Get` answers OK and it is the file at `path` that it sends. -/
def SendsFrom (cfg : Config) (env : GetEnv) (request : GetStreamingRequest) (w : World)
    (path : Path) : Prop :=
  authorise cfg w request = .ok path ∧
    ∃ outcome written, get cfg env request w = some (outcome, written) ∧ outcome.IsOk

/-- The local download answers OK with exactly the path of the file that the
streaming one sends, and otherwise returns an error without a path. An exception that
leaves the handler is not an error it returns: the status that its client sees is then the
library's (`handlerThrew` in the client). -/
def DownloadsAsStreaming (cfg : Config) (request : GetLocalRequest) (w : World) : Prop :=
  (∀ (env : GetEnv) (path : Path), env.Answered → env.allocates = true →
    (localGet cfg request w = .returned LocalStatus.ok (some path) ↔
      SendsFrom cfg env request.streaming w path)) ∧
  ((∀ path, localGet cfg request w ≠ .returned LocalStatus.ok (some path)) →
    ∃ status, localGet cfg request w = .returned status none ∧ status.code ≠ .ok)

/-- The access rule of the streaming `Get` reaches no file. -/
def NothingGranted (cfg : Config) (w : World) (request : GetStreamingRequest) : Prop :=
  ∀ path bytes, Granted cfg w request path → w.files.contents path ≠ some bytes

/-- When it does: for a live session named by its id. Of a session with transaction and
the datastore's own tag, the datastore's path has to be that of the blob asked for and
have a file; with any other tag, and of a session without transaction, the access rule
must not reach a file. -/
inductive DownloadsAlike (cfg : Config) (request : GetLocalRequest) (w : World) : Prop
  | sameFile {s : ℕ} {t : TransactionId} {path : Path} {bytes : Bytes} :
      request.contextId = some (.sessionId s) → w.manager.Owner s (some t) →
      cfg.api.getTag request.blob.objectId t = .ok request.blob.tag →
      cfg.api.getPath request.blob.objectId = .ok path → w.files.contents path = some bytes →
      (request.blob.storageId = limestoneBlobStore ∨ (request.blob.storageId = sessionStorageId ∧
        ∃ n, w.manager.Entry s request.blob.objectId (path, n))) →
      DownloadsAlike cfg request w
  | otherTag {s : ℕ} {t : TransactionId} {tag : BlobTag} :
      request.contextId = some (.sessionId s) → w.manager.Owner s (some t) →
      cfg.api.getTag request.blob.objectId t = .ok tag → tag ≠ request.blob.tag →
      NothingGranted cfg w request.streaming → DownloadsAlike cfg request w
  | noTransaction {s : ℕ} :
      request.contextId = some (.sessionId s) → w.manager.Owner s none →
      NothingGranted cfg w request.streaming → DownloadsAlike cfg request w

variable {cfg : Config} {env : GetEnv} {request : GetLocalRequest} {w : World} {path : Path}

/-! ### What each of the two answers -/

theorem sendsFrom_iff {request : GetStreamingRequest} (hw : WorldInv cfg w)
    (hv : checkApiVersion request.apiVersion = true) (hasked : env.Answered)
    (halloc : env.allocates = true) :
    SendsFrom cfg env request w path ↔
      Granted cfg w request path ∧ ∃ bytes, w.files.contents path = some bytes := by
  constructor
  · rintro ⟨hauth, outcome, written, hget, hok⟩
    refine ⟨((authorise_ok_iff hw).mp hauth).1, ?_⟩
    simp only [get, hv, if_true, hauth] at hget
    cases hfile : w.files.contents path with
    | some bytes => exact ⟨bytes, rfl⟩
    | none =>
      obtain ⟨o, hsend, hbad⟩ := sendBlob_none cfg env hfile
      obtain ⟨rfl, _⟩ := Prod.mk.inj (Option.some.inj (hget.symm.trans hsend))
      exact absurd hok hbad
  · rintro ⟨hgranted, bytes, hfile⟩
    have hauth : authorise cfg w request = .ok path :=
      (authorise_ok_iff hw).mpr ⟨hgranted, fun _ => FileSystem.present_of_contents hfile⟩
    obtain ⟨written, hsend, _⟩ := sendBlob_some cfg hasked halloc hfile
    refine ⟨hauth, .returned GetStatus.ok, written, ?_, rfl⟩
    simp only [get, hv, if_true, hauth, hsend]

theorem nothingGranted_sends {request : GetStreamingRequest} (hw : WorldInv cfg w)
    (hv : checkApiVersion request.apiVersion = true) (hasked : env.Answered)
    (halloc : env.allocates = true) (h : NothingGranted cfg w request) : ¬ SendsFrom cfg env request w path := by
  rw [sendsFrom_iff hw hv hasked halloc]
  rintro ⟨hgranted, bytes, hfile⟩
  exact h path bytes hgranted hfile

theorem localGet_transaction (hv : checkApiVersion request.apiVersion = true) {t : TransactionId}
    (ho : w.manager.Owner request.sessionId (some t)) :
    localGet cfg request w = transactionPath cfg request.blob t := by
  obtain ⟨impl, hs, ht⟩ := ho
  simp only [localGet, hv, if_true, BlobSessionManager.getSessionImpl_of_some hs, ht]

theorem localGet_noTransaction (hv : checkApiVersion request.apiVersion = true)
    (ho : w.manager.Owner request.sessionId none) :
    localGet cfg request w = .returned LocalStatus.withoutTransaction none := by
  obtain ⟨impl, hs, ht⟩ := ho
  simp only [localGet, hv, if_true, BlobSessionManager.getSessionImpl_of_some hs, ht]

theorem localGet_not_live (hv : checkApiVersion request.apiVersion = true)
    (hl : ¬ w.manager.Live request.sessionId) :
    localGet cfg request w = .thrown noSession := by
  simp only [localGet, hv, if_true, BlobSessionManager.getSessionImpl_of_not_live hl]

theorem localRequest_session {s : ℕ} (h : request.contextId = some (.sessionId s)) :
    request.sessionId = s := by
  simp only [GetLocalRequest.sessionId, h]

/-- A live session of a local request is one its context names: ids begin at 1. -/
theorem localRequest_live (hw : WorldInv cfg w) (h : w.manager.Live request.sessionId) :
    request.contextId = some (.sessionId request.sessionId) := by
  have hpos := (hw.sessionIds _ h).1
  unfold GetLocalRequest.sessionId at hpos ⊢
  split
  · rename_i s hc
    exact hc
  · rename_i hother
    exfalso
    split at hpos
    · rename_i s hc
      exact hother s hc
    · omega

/-- Among the paths granted to a session that the datastore's tag lets in. -/
theorem granted_tag {s : ℕ} {t : TransactionId}
    (hc : request.contextId = some (.sessionId s)) (ho : w.manager.Owner s (some t))
    (htag : cfg.api.getTag request.blob.objectId t = .ok request.blob.tag) :
    Granted cfg w request.streaming path ↔ BlobPath cfg w.manager request.streaming path := by
  refine ⟨fun h => h.blob, fun h => ⟨?_, h, t, request.blob.tag, ?_, htag, Or.inl rfl⟩⟩
  · simp only [ContextResolves, GetLocalRequest.streaming, hc]
    exact ho.live
  · simp only [TagKey, GetLocalRequest.streaming, hc]
    exact ⟨some t, ho, rfl⟩

theorem blobPath_session {s : ℕ} (hc : request.contextId = some (.sessionId s)) :
    BlobPath cfg w.manager request.streaming path ↔
      (request.blob.storageId = sessionStorageId ∧
        ∃ n, w.manager.Entry s request.blob.objectId (path, n)) ∨
      (request.blob.storageId = limestoneBlobStore ∧
        cfg.api.getPath request.blob.objectId = .ok path) := by
  simp only [BlobPath, GetLocalRequest.streaming, hc, contextSession, Option.some.injEq,
    exists_and_left, exists_eq_left']

/-! ### Exactly when -/

theorem downloadsAsStreaming_of_alike (hw : WorldInv cfg w)
    (hv : checkApiVersion request.apiVersion = true) (h : DownloadsAlike cfg request w) :
    DownloadsAsStreaming cfg request w := by
  cases h with
  | @sameFile s t p bytes hc ho htag hp hfile hstore =>
    have hlocal : localGet cfg request w = .returned LocalStatus.ok (some p) := by
      rw [localGet_transaction hv (localRequest_session hc ▸ ho)]
      simp only [transactionPath, htag, hp, ne_eq, not_true_eq_false, if_false]
    refine ⟨fun env path hasked halloc => ?_, fun hno => absurd hlocal (hno p)⟩
    rw [sendsFrom_iff hw hv hasked halloc, granted_tag hc ho htag, blobPath_session hc, hlocal]
    constructor
    · intro heq
      cases heq
      exact ⟨hstore.elim (fun h1 => Or.inr ⟨h1, hp⟩) Or.inl, bytes, hfile⟩
    · rintro ⟨⟨h0, n, he⟩ | ⟨_, hpath⟩, _⟩
      · rcases hstore with h1 | ⟨_, n', he'⟩
        · exact absurd (h0.symm.trans h1) (by decide)
        · rw [(Prod.mk.inj (he'.unique he)).1]
      · rw [Except.ok.inj (hp.symm.trans hpath)]
  | @otherTag s t tag hc ho htag hne hnothing =>
    have hlocal : localGet cfg request w = .returned LocalStatus.wrongTag none := by
      rw [localGet_transaction hv (localRequest_session hc ▸ ho)]
      simp only [transactionPath, htag, ne_eq, hne, not_false_eq_true, if_true]
    refine ⟨fun env path hasked halloc => ?_, fun _ => ⟨_, hlocal, by decide⟩⟩
    rw [hlocal]
    exact ⟨nofun, fun hsends => absurd hsends (nothingGranted_sends hw hv hasked halloc hnothing)⟩
  | @noTransaction s hc ho hnothing =>
    have hlocal : localGet cfg request w = .returned LocalStatus.withoutTransaction none :=
      localGet_noTransaction hv (localRequest_session hc ▸ ho)
    refine ⟨fun env path hasked halloc => ?_, fun _ => ⟨_, hlocal, by decide⟩⟩
    rw [hlocal]
    exact ⟨nofun, fun hsends => absurd hsends (nothingGranted_sends hw hv hasked halloc hnothing)⟩

theorem alike_of_downloadsAsStreaming (hw : WorldInv cfg w)
    (hv : checkApiVersion request.apiVersion = true) (h : DownloadsAsStreaming cfg request w) :
    DownloadsAlike cfg request w := by
  obtain ⟨hiff, herror⟩ := h
  -- an exception is not an answer
  have hreturns : ∀ e, localGet cfg request w ≠ .thrown e := by
    intro e he
    obtain ⟨status, hstatus, _⟩ := herror fun path hpath => by
      rw [he] at hpath
      cases hpath
    rw [he] at hstatus
    cases hstatus
  have hnothing : ∀ status, localGet cfg request w = .returned status none →
      NothingGranted cfg w request.streaming := by
    intro status hlocal path bytes hgranted hfile
    have hok := (hiff .calm path GetEnv.calm_answered rfl).mpr
      ((sendsFrom_iff hw hv GetEnv.calm_answered rfl).mpr ⟨hgranted, bytes, hfile⟩)
    rw [hlocal] at hok
    cases hok
  have hl : w.manager.Live request.sessionId := by
    by_contra hl
    exact hreturns _ (localGet_not_live hv hl)
  have hc := localRequest_live hw hl
  obtain ⟨impl, hs⟩ := hl
  have ho : w.manager.Owner request.sessionId impl.transactionIdOpt := ⟨impl, hs, rfl⟩
  cases htrans : impl.transactionIdOpt with
  | none =>
    rw [htrans] at ho
    exact .noTransaction hc ho (hnothing _ (localGet_noTransaction hv ho))
  | some t =>
    rw [htrans] at ho
    have hlocal : localGet cfg request w = transactionPath cfg request.blob t :=
      localGet_transaction hv ho
    simp only [transactionPath] at hlocal
    cases htag : cfg.api.getTag request.blob.objectId t with
    | error e =>
      rw [htag] at hlocal
      exact absurd hlocal (hreturns e)
    | ok tag =>
      simp only [htag] at hlocal
      by_cases hne : tag ≠ request.blob.tag
      · rw [if_pos hne] at hlocal
        exact .otherTag hc ho htag hne (hnothing _ hlocal)
      · rw [if_neg hne] at hlocal
        rw [not_not] at hne
        subst hne
        cases hp : cfg.api.getPath request.blob.objectId with
        | error e =>
          rw [hp] at hlocal
          exact absurd hlocal (hreturns e)
        | ok p =>
          rw [hp] at hlocal
          obtain ⟨hgranted, bytes, hfile⟩ :=
            (sendsFrom_iff hw hv GetEnv.calm_answered rfl).mp
              ((hiff .calm p GetEnv.calm_answered rfl).mp hlocal)
          refine .sameFile hc ho htag hp hfile ?_
          rcases (blobPath_session hc).mp hgranted.blob with hsession | ⟨hdatastore, _⟩
          · exact Or.inr hsession
          · exact Or.inl hdatastore

/-- In every reachable state, for every request of a supported version: the local
download agrees with the streaming one exactly when `DownloadsAlike` says so. -/
theorem local_download_iff {σ : Service} (hσ : ServiceReachable cfg σ)
    (hv : checkApiVersion request.apiVersion = true) :
    DownloadsAsStreaming cfg request σ.shared ↔ DownloadsAlike cfg request σ.shared :=
  ⟨alike_of_downloadsAsStreaming hσ.world hv, downloadsAsStreaming_of_alike hσ.world hv⟩

/-- The reference is into the session's storage, and the session has no blobs. -/
theorem local_download_differs : ¬ ∀ (cfg : Config) (σ : Service) (request : GetLocalRequest),
    ServiceReachable cfg σ → checkApiVersion request.apiVersion = true →
    DownloadsAsStreaming cfg request σ.shared := by
  intro h
  have hsame := h smallConfig (Service.ofSystem (oneSession (some 5)))
    ⟨1, some (.sessionId 1), ⟨0, 7, 12⟩⟩ (oneSession_reachable (some 5)).service rfl
  have hlocal : localGet smallConfig ⟨1, some (.sessionId 1), ⟨0, 7, 12⟩⟩
      (oneSession (some 5)).shared = .returned LocalStatus.ok (some ["datastore", "7"]) := by
    decide
  have hstream : get smallConfig .calm ⟨1, some (.sessionId 1), ⟨0, 7, 12⟩⟩
      (oneSession (some 5)).shared = some (.returned GetStatus.noBlob, []) := by
    decide
  obtain ⟨_, outcome, written, hget, hok⟩ :=
    (hsame.1 .calm ["datastore", "7"] GetEnv.calm_answered rfl).mp hlocal
  obtain ⟨rfl, _⟩ := Prod.mk.inj (Option.some.inj (hget.symm.trans hstream))
  cases hok

theorem local_download_iff_datastore : ∃ σ, ServiceReachable smallConfig σ ∧
    DownloadsAsStreaming smallConfig ⟨1, some (.sessionId 1), ⟨1, 7, 12⟩⟩ σ.shared := by
  obtain ⟨σ, hrun, hend⟩ := (Option.any_eq_true
    (fun σ : System => decide (Headroom σ.shared) &&
      decide ((σ.shared.manager.blobSessions[1]?).map BlobSessionImpl.transactionIdOpt =
        some (some 5)) &&
      σ.shared.files.contents ["datastore", "7"] == some [1, 2, 3]) _).mp
    (by decide : (runs smallConfig (.env (.createSession (some 5)) :: datastoreFile)
      smallStart).any _ = true)
  simp only [Bool.and_eq_true, decide_eq_true_eq, beq_iff_eq] at hend
  obtain ⟨⟨hroom, howner⟩, hfile⟩ := hend
  have hσ : ServiceReachable smallConfig (Service.ofSystem σ) :=
    (Reachable.of_runs smallStart_initial hrun hroom).service
  have hiff : DownloadsAsStreaming smallConfig ⟨1, some (.sessionId 1), ⟨1, 7, 12⟩⟩
      (Service.ofSystem σ).shared ↔ DownloadsAlike smallConfig ⟨1, some (.sessionId 1), ⟨1, 7, 12⟩⟩
      (Service.ofSystem σ).shared := local_download_iff hσ rfl
  exact ⟨Service.ofSystem σ, hσ, hiff.mpr
    (.sameFile rfl (BlobSessionManager.owner_of_map howner) rfl rfl hfile (Or.inl rfl))⟩

end BlobRelay
