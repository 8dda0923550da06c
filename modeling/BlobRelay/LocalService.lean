import BlobRelay.Reachability

/-! # `local_service` (local_service.cpp)

Uploads and downloads that pass paths instead of bytes. Nothing in either handler
catches an exception. The local uploads run beside the other handlers: the
invariant of the world holds in every state the whole service can come to. -/

namespace BlobRelay
open Foundation Foundation.FileStore

/-! ### Messages and statuses -/

structure GetLocalRequest where
  apiVersion : ℕ
  contextId : Option ContextId
  blob : BlobReference
  deriving DecidableEq

/-- `session_id()` reads 0 when the context is something else. -/
def GetLocalRequest.sessionId (request : GetLocalRequest) : SessionId :=
  match request.contextId with
  | some (.sessionId s) => s
  | _ => 0

structure PutLocalRequest where
  apiVersion : ℕ
  sessionId : SessionId
  path : Path
  deriving DecidableEq

namespace LocalStatus

def ok : Status := ⟨.ok, ""⟩
def apiVersion (v : ℕ) : Status := ⟨.unavailable, apiVersionErrorMessage v⟩
def wrongTag : Status := ⟨.notFound, "can not find blob with the tag given"⟩
def withoutTransaction : Status := ⟨.notFound, "the session has no transaction"⟩

end LocalStatus

/-! ### Get -/

/-- The status, and the path in the response when it was set. -/
inductive GetLocalOutcome
  | returned (status : Status) (path : Option Path)
  | thrown (e : Exn)
  deriving DecidableEq

/-- The datastore's path for the blob, to whoever knows the datastore's tag. -/
def transactionPath (cfg : Config) (blob : BlobReference) (transactionId : TransactionId) :
    GetLocalOutcome :=
  match cfg.api.getTag blob.objectId transactionId with
  | .error e => .thrown e
  | .ok tag =>
    if tag ≠ blob.tag then .returned LocalStatus.wrongTag none
    else
      match cfg.api.getPath blob.objectId with
      | .error e => .thrown e
      | .ok path => .returned LocalStatus.ok (some path)

def localGet (cfg : Config) (request : GetLocalRequest) (w : World) : GetLocalOutcome :=
  if checkApiVersion request.apiVersion then
    match w.manager.getSessionImpl request.sessionId with
    | .error e => .thrown e
    | .ok impl =>
      match impl.transactionIdOpt with
      | some transactionId => transactionPath cfg request.blob transactionId
      | none => .returned LocalStatus.withoutTransaction none
  else .returned (LocalStatus.apiVersion request.apiVersion) none

/-! ### `std::filesystem::copy` -/

/-- What the surroundings decide in a call of `copy`: whether a directory can be
made, the names that the source directory's iterator yields, and how the copying
of each file ends. -/
structure CopyEnv where
  makesDirectory : Bool
  entries : List String
  copies : ℕ → CopyResult

def CopyEnv.calm : CopyEnv := ⟨true, [], fun _ => .succeeds⟩

/-- Into a directory a file is copied under its own name. -/
def copyLeaf (r : CopyResult) (source target : Path) (fs : Files) : Bool × Files :=
  match fs.names target with
  | some (.directory _) => fs.copyFile r source (target ++ source.getLast?.toList)
  | _ => fs.copyFile r source target

/-- The files of a directory, but not its subdirectories; the first that cannot be
copied ends it. -/
def copyEntries (copies : ℕ → CopyResult) (source target : Path) :
    ℕ → List String → Files → Bool × Files
  | _, [], fs => (true, fs)
  | k, name :: rest, fs =>
    match fs.names (source ++ [name]) with
    | some (.directory _) => copyEntries copies source target (k + 1) rest fs
    | _ =>
      let r := copyLeaf (copies k) (source ++ [name]) (target ++ [name]) fs
      if r.1 then copyEntries copies source target (k + 1) rest r.2 else r

def copyDirectory (env : CopyEnv) (source target : Path) (fs : Files) : Bool × Files :=
  match fs.names target with
  | none =>
    if env.makesDirectory then
      copyEntries env.copies source target 0 env.entries (fs.createDirectory target)
    else (false, fs)
  | some (.directory _) =>
    if source = target then (false, fs)
    else copyEntries env.copies source target 0 env.entries fs
  | some _ => (false, fs)

/-- `copy` without options. -/
def copy (env : CopyEnv) (source target : Path) (fs : Files) : Except Exn Unit × Files :=
  let r := match fs.names source with
    | some (.directory _) => copyDirectory env source target fs
    | _ => copyLeaf (env.copies 0) source target fs
  (if r.1 then .ok () else .error (.filesystemError "cannot copy"), r.2)

/-! ### Put -/

/-- The storage id is the constant 0 and the tag keeps its default. -/
def localBlob (blobId : ℕ) : BlobReference := ⟨0, blobId, 0⟩

def localPut (cfg : Config) (env : CopyEnv) (request : PutLocalRequest) (w : World) :
    Option (PutOutcome × World) :=
  if checkApiVersion request.apiVersion then
    match w.manager.getSessionImpl request.sessionId with
    | .error e => some (.thrown e, w)
    | .ok _ =>
      match w.createBlobFile cfg request.sessionId with
      | none => none
      | some ((blobId, path), w) =>
        match copy env request.path path w.files with
        | (.error e, files) => some (.thrown e, {w with files := files})
        | (.ok (), files) =>
          some (.returned LocalStatus.ok (some (localBlob blobId)), {w with files := files})
  else some (.returned (LocalStatus.apiVersion request.apiVersion) none, w)

/-! ### The service with both kinds of uploads -/

inductive LocalPutPc
  | called
  /-- `get_session_impl` returned a reference to the session. -/
  | located (s : ℕ)
  /-- The entry is registered; the file is copied next. -/
  | created (blobId : ℕ) (path : Path)
  | finished (outcome : PutOutcome)

/-- `localPut` cut at its mutex-held sections, the copying as one step. -/
def localPutStep (cfg : Config) (env : CopyEnv) (request : PutLocalRequest) (w : World) :
    LocalPutPc → Option (World × LocalPutPc)
  | .called =>
    if checkApiVersion request.apiVersion then
      match w.manager.getSessionImpl request.sessionId with
      | .error e => some (w, .finished (.thrown e))
      | .ok _ => some (w, .located request.sessionId)
    else some (w, .finished (.returned (LocalStatus.apiVersion request.apiVersion) none))
  | .located s =>
    match w.createBlobFile cfg s with
    | none => none
    | some ((blobId, path), w) => some (w, .created blobId path)
  | .created blobId path =>
    match copy env request.path path w.files with
    | (.error e, files) => some ({w with files := files}, .finished (.thrown e))
    | (.ok (), files) =>
      some ({w with files := files},
        .finished (.returned LocalStatus.ok (some (localBlob blobId))))
  | .finished _ => none

/-- A local upload that nobody interrupts is its steps, one after the other. -/
theorem localPut_run {cfg : Config} {env : CopyEnv} {request : PutLocalRequest} {w w' : World}
    {o : PutOutcome} (h : localPut cfg env request w = some (o, w')) :
    ∃ fs, Run (fun (f : CopyEnv) (x : World × LocalPutPc) => localPutStep cfg f request x.1 x.2)
      (fun _ _ => True) (w, .called) fs (w', .finished o) := by
  unfold localPut at h
  split at h
  · rename_i hv
    cases hs : w.manager.getSessionImpl request.sessionId with
    | error e =>
      rw [hs] at h
      cases h
      have hone : localPutStep cfg env request w .called = some (w, .finished (.thrown e)) := by
        simp only [localPutStep, hv, if_true, hs]
      exact ⟨[env], .cons trivial hone (.nil _)⟩
    | ok impl =>
      have hone : localPutStep cfg env request w .called =
          some (w, .located request.sessionId) := by
        simp only [localPutStep, hv, if_true, hs]
      rw [hs] at h
      dsimp only at h
      split at h
      · cases h
      · rename_i b path w₁ hc
        have htwo : localPutStep cfg env request w (.located request.sessionId) =
            some (w₁, .created b path) := by
          simp only [localPutStep, hc]
        have hthree : localPutStep cfg env request w₁ (.created b path) =
            some (w', .finished o) := by
          simp only [localPutStep]
          split at h
          · cases h
            rfl
          · cases h
            rfl
        exact ⟨[env, env, env], .cons trivial hone (.cons trivial htwo
          (.cons trivial hthree (.nil _)))⟩
  · rename_i hv
    cases h
    have hone : localPutStep cfg env request w .called =
        some (w, .finished (.returned (LocalStatus.apiVersion request.apiVersion) none)) := by
      simp only [localPutStep, if_neg hv]
    exact ⟨[env], .cons trivial hone (.nil _)⟩

structure LocalUpload where
  request : PutLocalRequest
  pc : LocalPutPc

abbrev ServiceHandler := Handler ⊕ LocalUpload

inductive ServiceCall
  | streaming (c : Call)
  | localPut (request : PutLocalRequest)

def ServiceCall.start : ServiceCall → ServiceHandler
  | .streaming c => .inl c.start
  | .localPut request => .inr ⟨request, .called⟩

def serviceHandlerStep (cfg : Config) (f : Fault × CopyEnv) (w : World) :
    ServiceHandler → Option (World × ServiceHandler)
  | .inl t => (handlerStep cfg f.1 w t).map fun r => (r.1, .inl r.2)
  | .inr u => (localPutStep cfg f.2 u.request w u.pc).map fun r => (r.1, .inr {u with pc := r.2})

abbrev Service := Pool World ServiceHandler
abbrev ServiceMove := Move EnvAction ServiceCall (Fault × CopyEnv)

def serviceStep (cfg : Config) : ServiceMove → Service → Option Service :=
  Pool.step (envStep cfg) ServiceCall.start (serviceHandlerStep cfg)

/-- States that a newly constructed service with the local service enabled can come
to, as long as neither 64-bit id counter has run out. -/
def ServiceReachable (cfg : Config) (σ : Service) : Prop :=
  Headroom σ.shared ∧ ∃ σ₀ ls, Constructed cfg σ₀.shared ∧ σ₀.threads = [] ∧
    Run (serviceStep cfg) (fun σ _ => Headroom σ.shared) σ₀ ls σ

variable {cfg : Config} {w w' : World}

/-! ### What a copy does to the files -/

/-- New names are the target or below it, and regular files among them have new
inodes. -/
structure GrowsAt (target : Path) (fs fs' : Files) : Prop where
  names : ∀ q n, fs'.names q = some n →
    fs.names q = some n ∨ (target <+: q ∧ ∀ i, n = .regular i → fs.next ≤ i)
  next : fs.next ≤ fs'.next

theorem GrowsAt.refl (target : Path) (fs : Files) : GrowsAt target fs fs :=
  ⟨fun _ _ h => Or.inl h, le_rfl⟩

theorem GrowsAt.trans {target : Path} {a b c : Files} (h : GrowsAt target a b)
    (h' : GrowsAt target b c) : GrowsAt target a c := by
  refine ⟨fun q n hc => ?_, h.next.trans h'.next⟩
  rcases h'.names q n hc with hb | ⟨hq, hn⟩
  · exact h.names q n hb
  · exact Or.inr ⟨hq, fun i hi => h.next.trans (hn i hi)⟩

theorem growsAt_copyFile {target q : Path} (r : CopyResult) (source : Path) (fs : Files)
    (hq : target <+: q) : GrowsAt target fs (fs.copyFile r source q).2 := by
  refine ⟨fun p n h => ?_, FileSystem.next_copyFile r source q fs⟩
  rcases FileSystem.names_copyFile r source q fs h with hold | ⟨rfl, rfl⟩
  · exact Or.inl hold
  · exact Or.inr ⟨hq, fun i hi => by cases hi; exact le_rfl⟩

theorem growsAt_copyLeaf {target q : Path} (r : CopyResult) (source : Path) (fs : Files)
    (hq : target <+: q) : GrowsAt target fs (copyLeaf r source q fs).2 := by
  unfold copyLeaf
  split
  · exact growsAt_copyFile r source fs (hq.trans (List.prefix_append q _))
  · exact growsAt_copyFile r source fs hq

theorem growsAt_copyEntries (copies : ℕ → CopyResult) (source target : Path) (k : ℕ)
    (names : List String) (fs : Files) :
    GrowsAt target fs (copyEntries copies source target k names fs).2 := by
  induction names generalizing k fs with
  | nil => exact .refl target fs
  | cons name rest ih =>
    have hleaf := growsAt_copyLeaf (copies k) (source ++ [name]) fs
      (List.prefix_append target [name])
    unfold copyEntries
    split
    · exact ih (k + 1) fs
    · dsimp only
      split
      · exact hleaf.trans (ih (k + 1) _)
      · exact hleaf

theorem growsAt_copyDirectory (env : CopyEnv) (source target : Path) (fs : Files) :
    GrowsAt target fs (copyDirectory env source target fs).2 := by
  have hmade : GrowsAt target fs (fs.createDirectory target) := by
    refine ⟨fun q n h => ?_, le_rfl⟩
    rw [FileSystem.names_createDirectory] at h
    split at h
    · rename_i hq
      refine Or.inr ⟨hq ▸ List.prefix_rfl, fun i hi => ?_⟩
      subst hi
      cases h
    · exact Or.inl h
  unfold copyDirectory
  split
  · split
    · exact hmade.trans (growsAt_copyEntries _ _ _ _ _ _)
    · exact .refl target fs
  · split
    · exact .refl target fs
    · exact growsAt_copyEntries _ _ _ _ _ _
  · exact .refl target fs

theorem growsAt_copy (env : CopyEnv) (source target : Path) (fs : Files) :
    GrowsAt target fs (copy env source target fs).2 := by
  simp only [copy]
  split
  · exact growsAt_copyDirectory env source target fs
  · exact growsAt_copyLeaf _ source fs List.prefix_rfl

/-- A copy to the path of an id already given out. -/
theorem safe_growsAt {b : ℕ} {fs : Files} (hb : 1 ≤ b ∧ b ≤ w.manager.blobId)
    (h : GrowsAt (uploadPath cfg b) w.files fs) : Safe cfg w {w with files := fs} := by
  refine ⟨⟨le_rfl, fun _ _ e he => Or.inl ⟨e, he, rfl⟩, fun q i hq => ?_, h.next⟩, fun inv => ?_⟩
  · rcases h.names q _ hq with hold | ⟨_, hnew⟩
    · exact Or.inl hold
    · exact Or.inr (hnew i rfl)
  · refine ⟨inv.sessionIds, inv.blobIds, inv.disjoint, fun k hk => ?_, inv.index, inv.blobId_lt,
      inv.sessionId_lt, inv.currentSize_lt⟩
    obtain ⟨n, hn⟩ := Option.ne_none_iff_exists'.mp hk
    rcases h.names _ n hn with hold | ⟨hpre, _⟩
    · exact inv.uploads k (by rw [hold]; simp)
    · -- all upload paths have the same length
      have hlen : (uploadPath cfg b).length = (uploadPath cfg k).length := by
        simp [uploadPath, blobFilePath]
      have hbk : b = k := uploadPath_injective cfg (hpre.eq_of_length hlen)
      exact hbk ▸ hb

/-! ### The invariant of the service -/

/-- A local upload that has its entry copies to the path of an id already given out. -/
def LocalInv (cfg : Config) (w : World) (u : LocalUpload) : Prop :=
  ∀ b path, u.pc = .created b path →
    path = uploadPath cfg b ∧ 1 ≤ b ∧ b ≤ w.manager.blobId

def ServiceThreadInv (cfg : Config) (w : World) : ServiceHandler → Prop
  | .inl t => ThreadInv cfg w t
  | .inr u => LocalInv cfg w u

def ServiceInv (cfg : Config) (σ : Service) : Prop :=
  Pool.Holds (WorldInv cfg) (ServiceThreadInv cfg) (fun _ _ => True) σ

theorem LocalInv.evolves {u : LocalUpload} (h : LocalInv cfg w u) (he : Evolves w w') :
    LocalInv cfg w' u := by
  intro b path hpc
  obtain ⟨hpath, hone, hle⟩ := h b path hpc
  exact ⟨hpath, hone, hle.trans he.blobId⟩

theorem ServiceThreadInv.evolves {t : ServiceHandler} (h : ServiceThreadInv cfg w t)
    (he : Evolves w w') : ServiceThreadInv cfg w' t := by
  cases t with
  | inl t => exact ThreadInv.evolves h he
  | inr u => exact LocalInv.evolves h he

theorem localPutStep_safe {env : CopyEnv} {request : PutLocalRequest} {pc pc' : LocalPutPc}
    (h : localPutStep cfg env request w pc = some (w', pc')) (hroom : Room w w')
    (ht : LocalInv cfg w ⟨request, pc⟩) :
    Safe cfg w w' ∧ LocalInv cfg w' ⟨request, pc'⟩ := by
  cases pc with
  | called =>
    simp only [localPutStep] at h
    split at h
    · split at h
      · cases h
        exact ⟨.refl cfg w, nofun⟩
      · cases h
        exact ⟨.refl cfg w, nofun⟩
    · cases h
      exact ⟨.refl cfg w, nofun⟩
  | located s =>
    simp only [localPutStep] at h
    split at h
    · cases h
    · rename_i b path w₁ hc
      cases h
      obtain ⟨hpath, hreg⟩ := World.createBlobFile_spec hc
      have hlt := hroom.of_registers hreg
      have hid : b = w.manager.blobId + 1 := hreg.id.trans (add64_of_lt hlt)
      refine ⟨safe_registers hlt hreg, fun b' path' hpc => ?_⟩
      cases hpc
      exact ⟨hpath, by omega, hreg.blobId.ge⟩
  | created b path =>
    obtain ⟨rfl, hb⟩ := ht b path rfl
    have hs : Safe cfg w {w with files := (copy env request.path (uploadPath cfg b) w.files).2} :=
      safe_growsAt hb (growsAt_copy env request.path (uploadPath cfg b) w.files)
    simp only [localPutStep] at h
    split at h
    · rename_i e files hcopy
      cases h
      rw [hcopy] at hs
      exact ⟨hs, nofun⟩
    · rename_i files hcopy
      cases h
      rw [hcopy] at hs
      exact ⟨hs, nofun⟩
  | finished o => cases h

theorem serviceHandlerStep_safe {f : Fault × CopyEnv} {t t' : ServiceHandler}
    (h : serviceHandlerStep cfg f w t = some (w', t')) (hroom : Room w w') (hw : WorldInv cfg w)
    (ht : ServiceThreadInv cfg w t) : Safe cfg w w' ∧ ServiceThreadInv cfg w' t' := by
  cases t with
  | inl t =>
    obtain ⟨⟨w₁, t₁⟩, hstep, heq⟩ := Option.map_eq_some_iff.mp h
    cases heq
    exact handlerStep_safe hstep hroom hw ht
  | inr u =>
    obtain ⟨⟨w₁, pc⟩, hstep, heq⟩ := Option.map_eq_some_iff.mp h
    cases heq
    exact localPutStep_safe hstep hroom ht

theorem serviceInv_step {σ σ' : Service} {l : ServiceMove} (hroom : Room σ.shared σ'.shared)
    (hσ : ServiceInv cfg σ) (h : serviceStep cfg l σ = some σ') : ServiceInv cfg σ' := by
  cases l with
  | env e =>
    obtain ⟨w₁, hw, rfl⟩ := Pool.step_env h
    have hs := envStep_safe hw hroom
    exact hσ.of_env (hs.inv hσ.shared) fun i t ht => (hσ.thread i t ht).evolves hs.evolves
  | call c =>
    obtain rfl := Pool.step_call h
    refine hσ.of_call ?_ fun _ _ _ => ⟨trivial, trivial⟩
    cases c with
    | streaming c => exact ThreadInv.of_none c.start_upload c.start_handle
    | localPut request => exact fun _ _ hpc => LocalPutPc.noConfusion hpc
  | run i f =>
    obtain ⟨t, w₁, t', ht, hstep, rfl⟩ := Pool.step_run h
    obtain ⟨hs, ht'⟩ := serviceHandlerStep_safe hstep hroom hσ.shared (hσ.thread i t ht)
    exact hσ.of_run (hs.inv hσ.shared) ht' fun j u _ hu =>
      ⟨(hσ.thread j u hu).evolves hs.evolves, trivial, trivial⟩

theorem ServiceReachable.world {σ : Service} (h : ServiceReachable cfg σ) :
    WorldInv cfg σ.shared := by
  obtain ⟨_, σ₀, ls, h₀, hthreads, hrun⟩ := h
  have hstart : ServiceInv cfg σ₀ := by
    refine ⟨(inv_initial (σ := ⟨σ₀.shared, []⟩) ⟨h₀, rfl⟩).shared, fun i t ht => ?_,
      fun _ _ _ _ _ _ _ => trivial⟩
    rw [hthreads] at ht
    cases ht
  exact (hrun.invariant (ServiceInv cfg)
    (fun _ _ _ hi ho hs => serviceInv_step (Headroom.room ho _) hi hs) hstart).shared

/-! ### Without local uploads -/

def Service.ofSystem (σ : System) : Service := ⟨σ.shared, σ.threads.map .inl⟩

def ServiceMove.ofSystem : SystemMove → ServiceMove
  | .env e => .env e
  | .call c => .call (.streaming c)
  | .run i f => .run i (f, .calm)

theorem serviceStep_ofSystem {σ σ' : System} {l : SystemMove}
    (h : systemStep cfg l σ = some σ') :
    serviceStep cfg (ServiceMove.ofSystem l) (Service.ofSystem σ) =
      some (Service.ofSystem σ') := by
  cases l with
  | env e =>
    obtain ⟨w₁, hw, rfl⟩ := Pool.step_env h
    simp only [serviceStep, ServiceMove.ofSystem, Service.ofSystem, Pool.step, hw, Option.map_some]
  | call c =>
    obtain rfl := Pool.step_call h
    simp only [serviceStep, ServiceMove.ofSystem, Service.ofSystem, Pool.step, List.map_append,
      List.map_cons, List.map_nil, ServiceCall.start]
  | run i f =>
    obtain ⟨t, w₁, t', ht, hstep, rfl⟩ := Pool.step_run h
    simp only [serviceStep, ServiceMove.ofSystem, Service.ofSystem, Pool.step, List.getElem?_map,
      ht, Option.map_some, Option.bind_some, serviceHandlerStep, hstep, List.map_set]

theorem Reachable.service {σ : System} (h : Reachable cfg σ) :
    ServiceReachable cfg (Service.ofSystem σ) := by
  obtain ⟨hroom, σ₀, ls, ⟨h₀, hthreads⟩, hrun⟩ := h
  have hnone : (Service.ofSystem σ₀).threads = [] := by
    rw [Service.ofSystem, hthreads, List.map_nil]
  exact ⟨hroom, Service.ofSystem σ₀, ls.map ServiceMove.ofSystem, h₀, hnone,
    hrun.simulate Service.ofSystem ServiceMove.ofSystem
      fun _ _ _ ho hs => ⟨ho, serviceStep_ofSystem hs⟩⟩

end BlobRelay
