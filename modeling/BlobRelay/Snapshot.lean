import BlobRelay.DownloadStream

/-! # What a download of a finished upload sends, whatever happens meanwhile

Once `Put` has returned, no handler has the file open for writing and no path but the
upload's shows it. Its name can still go (by `remove`, by `dispose`, from outside), its
bytes cannot change: a `Get` that returns OK has sent all of them or none. -/

namespace BlobRelay
open Foundation Foundation.FileStore

/-- The inode `k` behind the upload `u`, whose `Put` (thread `j`) has returned. -/
structure Sealed (cfg : Config) (j : ℕ) (u : Upload) (k : ℕ) (bytes : Bytes) (σ : System) :
    Prop where
  inv : Inv cfg σ
  ended : ∃ messages o, σ.threads[j]? = some (.put messages (.finished (some u) o))
  data : σ.shared.files.data k = bytes
  inUse : k < σ.shared.files.next
  name : ∀ i, σ.shared.files.names u.path = some (.regular i) → i = k
  ownName : ∀ q, σ.shared.files.names q = some (.regular k) → q = u.path
  unopened : ∀ (i : ℕ) t v out, σ.threads[i]? = some t → t.handle = some (v, out) → out.ino ≠ k

/-- The download before it has a path, then at this path, then reading what is there. -/
def Fetching (cfg : Config) (k : ℕ) (path : Path) (bytes : Bytes) : GetPc → Prop
  | .called => True
  | .ownerLookup _ _ => True
  | .ownerHeld _ _ => True
  | .resolving _ => True
  | .findHeld _ => True
  | .tagging _ p => p = path
  | .tagHeld _ p => p = path
  | .authorised p => p = path
  | .sizing p => p = path
  | .opening p written => p = path ∧ written = [.metadata (some bytes.length)]
  | .reading ins written => ∃ sent : List Bytes,
      written = .metadata (some bytes.length) :: sent.map .chunk ∧
        ((ins.ino = some k ∧ Progress cfg.streamChunkSize bytes ins sent) ∨
          (ins.ino = none ∧ sent = []))
  | .finished o written => o.IsOk → ∃ sent : List Bytes,
      written = .metadata (some bytes.length) :: sent.map .chunk ∧
        (Pieces cfg.streamChunkSize bytes sent ∨ sent = [])

variable {cfg : Config} {f : Fault} {request : GetStreamingRequest} {w w' : World} {k : ℕ}
  {path : Path} {bytes : Bytes} {pc pc' : GetPc} {u : Upload} {σ σ' : System} {i j : ℕ}

/-! ### What a step leaves of names and bytes -/

/-- The bytes of an inode in use change only through an open stream over it, or when
its path is opened. -/
theorem data_putStepped_of_ne {messages : List PutStreamingRequest} {pc pc' : PutPc}
    (h : PutStepped cfg f messages w pc w' pc') (hk : k < w.files.next)
    (hhandle : ∀ v out, (Handler.put messages pc).handle = some (v, out) → k ≠ out.ino)
    (hopens : ∀ p, pc.opens = some p → w.files.names p ≠ some (.regular k)) :
    w'.files.data k = w.files.data k := by
  have hclose : ∀ (out : OutStream) r (fs : Files), k ≠ out.ino →
      (out.close r fs).data k = fs.data k := by
    intro out r fs hne
    unfold OutStream.close
    split
    · cases r with
      | none => rfl
      | some kept => simp [FileSystem.setData, hne]
    · rfl
  cases h with
  | created hreg => rw [hreg.files]
  | opened hopen => exact FileSystem.data_openWrite hopen hk (hopens _ rfl)
  | closed => exact hclose _ _ _ (hhandle _ _ rfl)
  | @charged v out n bs rest e w₁ hch =>
    have hne : k ≠ out.ino := hhandle v out rfl
    show (out.write f.writes bs w₁.files).2.data k = w.files.data k
    rw [hch.files]
    unfold OutStream.write
    split
    · cases f.writes with
      | none => exact FileSystem.data_append_of_ne _ hne _
      | some kept => exact FileSystem.data_append_of_ne _ hne _
    · rfl
  | refused => exact hclose _ _ _ (hhandle _ _ rfl)
  | lost => exact hclose _ _ _ (hhandle _ _ rfl)
  | notChunk => exact hclose _ _ _ (hhandle _ _ rfl)
  | deleted her => rw [her.data]
  | _ => rfl

theorem shrinks_envStep {a : EnvAction} (h : envStep cfg a w = some w') (hk : k < w.files.next)
    (hdir : ∀ q, w.files.names q = some (.regular k) → inDirectory cfg.directory q = true) :
    w'.files.data k = w.files.data k ∧
      ∀ q, inDirectory cfg.directory q = true →
        w'.files.names q = w.files.names q ∨ w'.files.names q = none := by
  cases a with
  | createSession t =>
    cases h
    exact ⟨rfl, fun _ _ => Or.inl rfl⟩
  | add s p =>
    obtain ⟨⟨r, w₁⟩, hadd, hr⟩ := Option.map_eq_some_iff.mp h
    cases hr
    cases r with
    | ok b =>
      rw [(World.add_ok hadd).2.files]
      exact ⟨rfl, fun _ _ => Or.inl rfl⟩
    | error x =>
      obtain ⟨_, rfl⟩ := World.add_error hadd
      exact ⟨rfl, fun _ _ => Or.inl rfl⟩
  | outsideWrite p bs =>
    simp only [envStep, outsideWrite] at h
    split at h
    · cases h
    · rename_i hout
      obtain ⟨⟨i, fs⟩, hopen, rfl⟩ := Option.map_eq_some_iff.mp h
      have hne : w.files.names p ≠ some (.regular k) := fun hname => hout (hdir p hname)
      have hik : k ≠ i := by
        rintro rfl
        rcases FileSystem.openWrite_names hopen (FileSystem.openWrite_self hopen).1 with hold | hle
        · exact hne hold
        · omega
      refine ⟨(FileSystem.data_append_of_ne fs hik bs).trans
        (FileSystem.data_openWrite hopen hk hne), fun q hq => Or.inl ?_⟩
      show (fs.append i bs).names q = w.files.names q
      rw [FileSystem.names_append, FileSystem.openWrite_names_of_ne hopen]
      intro he
      exact hout (he ▸ hq)
  | outsideDelete p =>
    cases h
    refine ⟨rfl, fun q _ => ?_⟩
    dsimp only
    rw [FileSystem.names_unlink]
    split
    · exact Or.inr rfl
    · exact Or.inl rfl

/-! ### The file stays as it is -/

namespace Sealed

theorem path_eq (h : Sealed cfg j u k bytes σ) : u.path = uploadPath cfg u.blobId := by
  obtain ⟨messages, o, hj⟩ := h.ended
  exact ((h.inv.thread j _ hj).upload u rfl).path

theorem inDirectory_path (h : Sealed cfg j u k bytes σ) :
    inDirectory cfg.directory u.path = true := by
  rw [h.path_eq]
  exact uploadPath_inDirectory cfg _

/-- Every other upload has a path of its own. -/
theorem path_ne (h : Sealed cfg j u k bytes σ) {messages : List PutStreamingRequest} {pc : PutPc}
    {v : Upload} (hi : σ.threads[i]? = some (.put messages pc)) (hv : pc.upload = some v)
    (hmoves : ∀ u' o, pc ≠ .finished u' o) : v.path ≠ u.path := by
  obtain ⟨messages', o, hj⟩ := h.ended
  intro heq
  have hij : i ≠ j := by
    rintro rfl
    cases Option.some.inj (hi.symm.trans hj)
    exact hmoves _ _ rfl
  rw [((h.inv.thread i _ hi).upload v hv).path, h.path_eq] at heq
  exact h.inv.pair i j _ _ hij hi hj v u hv rfl (uploadPath_injective cfg heq)

/-- What is enough of a step, when the threads are as they were but for the one that moved. -/
theorem keeps (h : Sealed cfg j u k bytes σ) (hinv : Inv cfg σ')
    (hevolves : Evolves σ.shared σ'.shared)
    (hended : ∀ messages o, σ.threads[j]? = some (.put messages (.finished (some u) o)) →
      σ'.threads[j]? = some (.put messages (.finished (some u) o)))
    (hdata : σ'.shared.files.data k = σ.shared.files.data k)
    (hname : σ'.shared.files.names u.path = σ.shared.files.names u.path ∨
      σ'.shared.files.names u.path = none)
    (hunopened : ∀ (i : ℕ) t v out, σ'.threads[i]? = some t → t.handle = some (v, out) →
      out.ino ≠ k) : Sealed cfg j u k bytes σ' where
  inv := hinv
  ended := by
    obtain ⟨messages, o, hj⟩ := h.ended
    exact ⟨messages, o, hended messages o hj⟩
  data := hdata.trans h.data
  inUse := lt_of_lt_of_le h.inUse hevolves.next
  name i hi := by
    rcases hname with hsame | hgone
    · exact h.name i (hsame.symm.trans hi)
    · rw [hgone] at hi
      cases hi
  ownName q hq := by
    rcases hevolves.names q k hq with hold | hle
    · exact h.ownName q hold
    · have hlt := h.inUse
      omega
  unopened := hunopened

theorem unopened_put (h : Sealed cfg j u k bytes σ) (hevolves : Evolves σ.shared w')
    {messages : List PutStreamingRequest} {pc pc' : PutPc} {v : Upload} {out : OutStream}
    (hi : σ.threads[i]? = some (.put messages pc))
    (hstep : PutStepped cfg f messages σ.shared pc w' pc')
    (hv : (Handler.put messages pc').handle = some (v, out)) : out.ino ≠ k := by
  cases hstep with
  | @opened v' rest n fs hopen =>
    cases hv
    intro heq
    obtain ⟨hname, _, _⟩ := FileSystem.openWrite_self hopen
    dsimp only at heq
    rw [heq] at hname
    rcases hevolves.names _ _ hname with hold | hle
    · exact h.path_ne hi rfl nofun (h.ownName _ hold)
    · have hlt := h.inUse
      omega
  | @charged v' out' n bs rest e w₁ hch =>
    cases hv
    rw [OutStream.ino_write]
    exact h.unopened i _ _ _ hi rfl
  | _ => cases hv

theorem step (h : Sealed cfg j u k bytes σ) (hroom : Headroom σ.shared) {l : SystemMove}
    (hst : systemStep cfg l σ = some σ') : Sealed cfg j u k bytes σ' := by
  obtain ⟨hsafe, hinv⟩ := inv_step (hroom.room _) h.inv hst
  have hended : ∀ messages o, σ.threads[j]? = some (.put messages (.finished (some u) o)) →
      σ'.threads[j]? = some (.put messages (.finished (some u) o)) :=
    fun messages o hj => finished_stays hst hj rfl
  cases l with
  | env a =>
    obtain ⟨w₁, hw, rfl⟩ := Pool.step_env hst
    obtain ⟨hdata, hnames⟩ := shrinks_envStep hw h.inUse fun q hq => by
      rw [h.ownName q hq]
      exact h.inDirectory_path
    exact h.keeps hinv hsafe.evolves hended hdata (hnames _ h.inDirectory_path) h.unopened
  | call c =>
    obtain rfl := Pool.step_call hst
    refine h.keeps hinv hsafe.evolves hended rfl (Or.inl rfl) fun i t v out hi hv => ?_
    rcases Pool.getElem_snoc hi with ⟨_, rfl⟩ | ⟨_, hi⟩
    · rw [c.start_handle] at hv
      cases hv
    · exact h.unopened i t v out hi hv
  | run m f =>
    obtain ⟨t, w₁, t', ht, hstep, rfl⟩ := Pool.step_run hst
    -- the others have the streams they had
    have hothers : (∀ v out, t'.handle = some (v, out) → out.ino ≠ k) →
        ∀ (i : ℕ) t₁ v out, (σ.threads.set m t')[i]? = some t₁ → t₁.handle = some (v, out) →
          out.ino ≠ k := by
      intro hself i t₁ v out hi hv
      rcases Pool.getElem_set hi with ⟨_, rfl⟩ | ⟨_, hi⟩
      · exact hself v out hv
      · exact h.unopened i t₁ v out hi hv
    have hdeleted : ∀ {s b}, DeleteStepped cfg f σ.shared s b w₁ →
        w₁.files.data k = σ.shared.files.data k ∧
          (w₁.files.names u.path = σ.shared.files.names u.path ∨
            w₁.files.names u.path = none) := by
      intro s b hdel
      cases hdel with
      | same => exact ⟨rfl, Or.inl rfl⟩
      | deleted her => exact ⟨by rw [her.data], namesShrink_erases her none _ nofun⟩
      | deleteFails => exact ⟨rfl, Or.inl rfl⟩
    cases t with
    | put messages pc =>
      obtain ⟨pc', rfl, hput⟩ := handlerStep_put hstep
      refine h.keeps hinv hsafe.evolves hended ?_ ?_
        (hothers fun v out hv => h.unopened_put hsafe.evolves ht hput hv)
      · refine data_putStepped_of_ne hput h.inUse (fun v out hv => ?_) fun p hp hname => ?_
        · exact Ne.symm (h.unopened m _ v out ht hv)
        · cases pc with
          | created v rest =>
            cases hp
            exact h.path_ne ht rfl nofun (h.ownName _ hname)
          | _ => cases hp
      · refine namesShrink_putStepped hput _ fun hp => ?_
        cases pc with
        | created v rest => exact h.path_ne ht rfl nofun (Option.some.inj hp)
        | _ => cases hp
    | get request pc =>
      obtain ⟨rfl, pc', rfl, _⟩ := handlerStep_get hstep
      exact h.keeps hinv hsafe.evolves hended rfl (Or.inl rfl) (hothers nofun)
    | remove s ids pc =>
      obtain ⟨⟨pc', rfl⟩, hdel⟩ := handlerStep_remove hstep
      exact h.keeps hinv hsafe.evolves hended (hdeleted hdel).1 (hdeleted hdel).2 (hothers nofun)
    | dispose s pc =>
      obtain ⟨⟨pc', rfl⟩, ⟨_, hdel⟩ | ⟨_, _, rfl⟩⟩ := handlerStep_dispose hstep
      · exact h.keeps hinv hsafe.evolves hended (hdeleted hdel).1 (hdeleted hdel).2 (hothers nofun)
      · exact h.keeps hinv hsafe.evolves hended rfl (Or.inl rfl) (hothers nofun)

theorem contents_eq (h : Sealed cfg j u k bytes σ) {bs : Bytes}
    (hbs : σ.shared.files.contents u.path = some bs) : bs = bytes := by
  obtain ⟨i, hname, rfl⟩ := FileSystem.contents_regular hbs
  rw [h.name i hname]
  exact h.data

/-- The file behind a finished upload, in any reachable state in which it is still there. -/
theorem of_finished (hinv : Inv cfg σ) {messages : List PutStreamingRequest} {o : PutOutcome}
    (hj : σ.threads[j]? = some (.put messages (.finished (some u) o)))
    (hbytes : σ.shared.files.contents u.path = some bytes) :
    ∃ k, Sealed cfg j u k bytes σ := by
  obtain ⟨k, hname, hdata⟩ := FileSystem.contents_regular hbytes
  have hpath := ((hinv.thread j _ hj).upload u rfl).path
  refine ⟨k, hinv, ⟨messages, o, hj⟩, hdata, σ.shared.files.bounded _ _ hname, fun i hi => ?_,
    fun q hq => σ.shared.files.linkedOnce q _ k hq hname, fun i t v out ht hv hk => ?_⟩
  · rw [hname] at hi
    cases hi
    rfl
  · -- the stream's upload would have the same path, so the same id
    have hown := ((hinv.thread i t ht).handle v out hv).ownName u.path (hk ▸ hname)
    have hupload : t.upload = some v := by
      cases t with
      | put ms pc => cases pc <;> cases hv; rfl
      | _ => cases hv
    have hij : i ≠ j := by
      rintro rfl
      cases Option.some.inj (ht.symm.trans hj)
      cases hv
    rw [hpath, ((hinv.thread i t ht).upload v hupload).path] at hown
    exact hinv.pair i j t _ hij ht hj v u hupload rfl (uploadPath_injective cfg hown).symm

end Sealed

/-! ### The download that moves -/

theorem fetching_finished {o : GetOutcome} {written : List GetStreamingResponse} (ho : ¬ o.IsOk) :
    Fetching cfg k path bytes (.finished o written) :=
  fun hok => absurd hok ho

theorem fetching_ownerCheck (ctx : GetContext) (v : Option TransactionId) (t : TransactionId) :
    Fetching cfg k path bytes (.ofExcept (fun _ => .resolving ctx) (ownerCheck v t)) := by
  cases hcheck : ownerCheck v t with
  | ok _ => trivial
  | error e => exact fetching_finished (getExit_not_ok (fails_ownerCheck v t e hcheck))

theorem fetching_openRead (h : Sealed cfg j u k bytes σ) (opens : Bool) :
    Fetching cfg k u.path bytes
      (.reading (openRead σ.shared.files opens u.path) [.metadata (some bytes.length)]) := by
  refine ⟨[], rfl, ?_⟩
  cases opens with
  | false =>
    rw [openRead_closed (Or.inl rfl)]
    exact Or.inr ⟨rfl, rfl⟩
  | true =>
    unfold openRead
    split
    · rename_i i hname _
      rw [h.name i hname]
      exact Or.inl ⟨rfl, .start _ _ _⟩
    · exact Or.inr ⟨rfl, rfl⟩

theorem fetching_ended {ins : InStream} {sent : List Bytes}
    (hprogress : Progress cfg.streamChunkSize bytes ins sent) (hino : ins.ino = some k)
    (hdata : w.files.data k = bytes) (hread : (ins.read cfg.streamChunkSize w.files).1 = []) :
    Pieces cfg.streamChunkSize bytes sent ∨ sent = [] := by
  rcases Nat.eq_zero_or_pos cfg.streamChunkSize with hzero | hchunk
  · right
    refine List.eq_nil_iff_forall_not_mem.mpr fun c hc => ?_
    obtain ⟨hne, hle⟩ := hprogress.bounded c hc
    rw [hzero] at hle
    exact hne (List.length_eq_zero_iff.mp (Nat.le_zero.mp hle))
  · exact Or.inl (hprogress.done (Or.inl hchunk) hino hdata hread)

theorem fetching_getStepped (hs : Sealed cfg j u k bytes σ)
    (hstorage : request.blob.storageId = sessionStorageId)
    (hid : request.blob.objectId = u.blobId)
    (h : GetStepped cfg f request σ.shared pc pc') (hpc : Fetching cfg k u.path bytes pc) :
    Fetching cfg k u.path bytes pc' := by
  cases h with
  | raised => exact fetching_finished (getCatch_not_ok _)
  | denied hcode => exact fetching_finished hcode
  | @contextRead ctx =>
    unfold GetPc.afterContext
    split <;> trivial
  | ownerFound => trivial
  | ownerChecked => exact fetching_ownerCheck _ _ _
  | sessionFound => trivial
  | datastorePath hdatastore =>
    rw [hstorage] at hdatastore
    cases hdatastore
  | blobFound he =>
    rw [hid] at he
    obtain ⟨messages, o, hj⟩ := hs.ended
    exact (((hs.inv.thread j _ hj).upload u rfl).owned _ _ he).2
  | tagSession => exact hpc
  | tagged => exact hpc
  | sessionTagged => exact hpc
  | present => exact hpc
  | @sized p n hn =>
    obtain rfl : p = u.path := hpc
    obtain ⟨bs, hbs, rfl⟩ := Option.map_eq_some_iff.mp hn
    rw [hs.contents_eq hbs]
    exact ⟨rfl, rfl⟩
  | opened =>
    obtain ⟨rfl, rfl⟩ := hpc
    exact fetching_openRead hs _
  | @sent ins written hne =>
    obtain ⟨sent, rfl, ⟨hino, hprogress⟩ | ⟨hino, _⟩⟩ := hpc
    · obtain ⟨hino', _, hnext⟩ := hprogress.more hino hs.data hne
      refine ⟨sent ++ [(ins.read cfg.streamChunkSize σ.shared.files).1], ?_, Or.inl ⟨hino', hnext⟩⟩
      rw [List.map_append, List.map_singleton, List.cons_append]
    · refine absurd ?_ hne
      simp only [InStream.read, hino]
  | ended hread =>
    obtain ⟨sent, rfl, ⟨hino, hprogress⟩ | ⟨_, rfl⟩⟩ := hpc
    · exact fun _ => ⟨sent, rfl, fetching_ended hprogress hino hs.data hread⟩
    · exact fun _ => ⟨[], rfl, Or.inr rfl⟩

/-! ### Every run -/

/-- Thread `i` has not resolved a path yet. -/
def GetPc.beforeLookup : GetPc → Bool
  | .called => true
  | .ownerLookup _ _ => true
  | .ownerHeld _ _ => true
  | .resolving _ => true
  | .findHeld _ => true
  | _ => false

theorem fetching_beforeLookup (h : pc.beforeLookup = true) : Fetching cfg k path bytes pc := by
  cases pc <;> trivial

theorem fetching_run {ls : List SystemMove}
    (hstorage : request.blob.storageId = sessionStorageId)
    (hid : request.blob.objectId = u.blobId)
    (hrun : Run (systemStep cfg) (fun σ _ => Headroom σ.shared) σ ls σ')
    (hs : Sealed cfg j u k bytes σ)
    (hi : ∃ pc, σ.threads[i]? = some (.get request pc) ∧ Fetching cfg k u.path bytes pc) :
    ∃ pc, σ'.threads[i]? = some (.get request pc) ∧ Fetching cfg k u.path bytes pc := by
  refine (hrun.invariant (fun σ => Sealed cfg j u k bytes σ ∧
    ∃ pc, σ.threads[i]? = some (.get request pc) ∧ Fetching cfg k u.path bytes pc) ?_ ⟨hs, hi⟩).2
  intro σ l σ' ⟨hs, pc, hi, hpc⟩ hroom hst
  refine ⟨hs.step hroom hst, ?_⟩
  rcases Pool.step_at hst hi with ⟨_, hstays⟩ | ⟨f, t', rfl, hown, hmoved⟩
  · exact ⟨pc, hstays, hpc⟩
  · obtain ⟨_, pc', rfl, hget⟩ := handlerStep_get hown
    exact ⟨pc', hmoved, fetching_getStepped hs hstorage hid hget hpc⟩

/-- A download that looks its blob up after the blob's `Put` has returned, in any
interleaving with any calls, faults and deletions: if it returns OK it has announced the
size of the file, and has sent the whole file or nothing. -/
theorem download_all_or_nothing {messages : List PutStreamingRequest} {put : PutOutcome}
    {o : GetOutcome} {written : List GetStreamingResponse} {ls : List SystemMove}
    (hσ : Reachable cfg σ)
    (hj : σ.threads[j]? = some (.put messages (.finished (some u) put)))
    (hbytes : σ.shared.files.contents u.path = some bytes)
    (hi : σ.threads[i]? = some (.get request pc)) (hpc : pc.beforeLookup = true)
    (hstorage : request.blob.storageId = sessionStorageId)
    (hid : request.blob.objectId = u.blobId)
    (hrun : Run (systemStep cfg) (fun σ _ => Headroom σ.shared) σ ls σ')
    (hend : σ'.threads[i]? = some (.get request (.finished o written))) (hok : o.IsOk) :
    ∃ chunks : List Bytes, written = .metadata (some bytes.length) :: chunks.map .chunk ∧
      (Pieces cfg.streamChunkSize bytes chunks ∨ chunks = []) := by
  obtain ⟨k, hs⟩ := Sealed.of_finished hσ.inv hj hbytes
  obtain ⟨pc', hi', hfetching⟩ :=
    fetching_run hstorage hid hrun hs ⟨pc, hi, fetching_beforeLookup hpc⟩
  cases hi'.symm.trans hend
  exact hfetching hok

/-- The blob is removed while it is read; the download still sends all of it. -/
theorem download_all_or_nothing_removed : ∃ (σ' : System) (chunks : List Bytes),
    σ'.threads[1]? = some (.get downloadRequest (.finished (.returned GetStatus.ok)
      (.metadata (some 4) :: chunks.map .chunk))) ∧
      σ'.shared.files.contents (uploadPath smallConfig 1) = none ∧
        (Pieces 2 [1, 2, 3, 4] chunks ∨ chunks = []) := by
  let u : Upload := ⟨1, 1, uploadPath smallConfig 1, none⟩
  let ended : PutPc := .finished (some u) (.returned PutStatus.ok (some ⟨0, 1, 257⟩))
  obtain ⟨σ, hσ, hend⟩ := (Option.any_eq_true
    (fun σ : System => decide (Headroom σ.shared) &&
      σ.threads[0]?.bind Handler.uploading == some (twoChunks, ended) &&
      σ.shared.files.contents (uploadPath smallConfig 1) == some [1, 2, 3, 4] &&
      σ.threads[1]?.bind Handler.download == some (downloadRequest, .called) &&
      (runs smallConfig (removedAfter 8 3) σ).any fun σ' =>
        σ'.threads[1]?.bind Handler.download ==
          some (downloadRequest, .finished (.returned GetStatus.ok)
            [.metadata (some 4), .chunk [1, 2], .chunk [3, 4]]) &&
        σ'.shared.files.contents (uploadPath smallConfig 1) == none) _).mp
    (by decide : (runs smallConfig untilCalled smallStart).any _ = true)
  simp only [Bool.and_eq_true, decide_eq_true_eq, beq_iff_eq] at hend
  obtain ⟨⟨⟨⟨hroom, hended⟩, hbytes⟩, hcalled⟩, hrest⟩ := hend
  obtain ⟨σ', hσ', hlast⟩ := (Option.any_eq_true _ _).mp hrest
  simp only [Bool.and_eq_true, beq_iff_eq] at hlast
  have hget := eq_get_of_download hlast.1
  obtain ⟨chunks, hwritten, hall⟩ := download_all_or_nothing (u := u)
    (.of_runs smallStart_initial hσ hroom) (eq_put_of_uploading hended) hbytes
    (eq_get_of_download hcalled) rfl rfl rfl
    (.of_exec hσ' fun _ _ _ hc => of_decide_eq_true hc) hget rfl
  exact ⟨σ', chunks, hwritten ▸ hget, hlast.2, hall⟩

end BlobRelay
