import BlobRelay.Client
import BlobRelay.Snapshot
import BlobRelay.Responses

/-! # A download from the service to the client's file

The service does not say whether it has sent all it has announced; the client compares
the two. What it accepts is then the blob, whatever ran beside the download and however
the client's own writes ended. -/

namespace BlobRelay
open Foundation Foundation.FileStore

namespace Client

theorem finish_ok_iff (o : GetOutcome) : finish o = .ok () ↔ o.IsOk := by
  cases o with
  | returned status =>
    show (if status.code ≠ .ok then _ else _) = _ ↔ status.code = .ok
    by_cases hcode : status.code = .ok
    · rw [if_neg (not_not.mpr hcode)]
      exact ⟨fun _ => hcode, fun _ => rfl⟩
    · rw [if_pos hcode]
      exact ⟨nofun, fun hok => absurd hok hcode⟩
  | thrown e => exact ⟨nofun, nofun⟩

theorem failedAt_ne (line : ℕ) (message : String) :
    (.error (failedAt "get" line message) : Except Exn Unit) ≠ .error notMetadata := by
  intro h
  have htext := Exn.stdException.inj (Except.error.inj h)
  have hfirst := congrArg (fun s => s.toList.head?) htext
  simp [errorAt] at hfirst

theorem finish_ne (o : GetOutcome) : finish o ≠ .error notMetadata := by
  cases o with
  | returned status =>
    show (if status.code ≠ .ok then _ else _) ≠ _
    split
    · exact failedAt_ne 150 status.message
    · exact nofun
  | thrown e => exact failedAt_ne 150 handlerThrew

theorem map_chunkOf (chunks : List Bytes) : (chunks.map .chunk).map chunkOf = chunks := by
  rw [List.map_map]
  exact List.map_id chunks

variable {env : Saving} {path : Path} {o : GetOutcome} {fs fs' : Files} {r : Except Exn Unit}

/-- The file after a download whose first message is the metadata. -/
theorem saved (env : Saving) (chunks : List Bytes) {out : OutStream}
    (hopen : openBlobFile env.opens path fs = some (out, fs')) :
    ∃ bytes : Bytes, bytes <+: chunks.flatten ∧ (env.writes = Saving.calm.writes →
        env.closes = none → bytes = chunks.flatten) ∧
      ((OutStream.writeAll env.writes 0 out chunks fs').1.close env.closes
        (OutStream.writeAll env.writes 0 out chunks fs').2).contents path = some bytes := by
  obtain ⟨_, i, hwrite, rfl⟩ := openBlobFile_some hopen
  obtain ⟨hname, hempty, _⟩ := FileSystem.openWrite_self hwrite
  have hsaved := OutStream.writeAll_close_prefix env.writes env.closes 0 ⟨i, true⟩ chunks fs'
  rw [hempty, List.nil_append] at hsaved
  refine ⟨_, hsaved, fun hwrites hcloses => ?_, FileSystem.contents_of_regular ?_⟩
  · obtain ⟨hgood, hdata⟩ := OutStream.writeAll_none env.writes 0 ⟨i, true⟩ rfl chunks fs'
      fun j => congrFun hwrites j
    rw [hempty, List.nil_append] at hdata
    rw [hcloses, hgood]
    exact hdata
  · rw [OutStream.names_close, OutStream.names_writeAll]
    exact hname

/-- A download of metadata and chunks. -/
theorem get_framed (env : Saving) {size : ℕ} (chunks : List Bytes)
    (h : get env path (.metadata (some size) :: chunks.map .chunk) o fs = (r, fs')) :
    r ≠ .error notMetadata ∧
      (r = .ok () → o.IsOk ∧ ∃ bytes : Bytes, fs'.contents path = some bytes ∧
        bytes <+: chunks.flatten ∧ bytes.length = size) := by
  unfold get at h
  split at h
  · cases h
    exact ⟨nofun, nofun⟩
  · rename_i out fs₁ hopen
    obtain ⟨bytes, hsaved, _, hcontents⟩ := saved env chunks hopen
    have hsize : FileSystem.fileSize _ path = some bytes.length :=
      congrArg (Option.map List.length) hcontents
    dsimp only at h
    rw [map_chunkOf, hsize] at h
    dsimp only at h
    split at h
    · cases h
      exact ⟨nofun, nofun⟩
    · rename_i hsame
      cases h
      exact ⟨finish_ne o,
        fun hok => ⟨(finish_ok_iff o).mp hok, bytes, hcontents, hsaved, not_not.mp hsame⟩⟩

theorem get_calm {size : ℕ} (chunks : List Bytes) (hopen : (fs.openWrite path).isSome = true) :
    (get .calm path (.metadata (some size) :: chunks.map .chunk) o fs).1 = .ok () ↔
      o.IsOk ∧ size = chunks.flatten.length := by
  obtain ⟨⟨i, fs₁⟩, hwrite⟩ := Option.isSome_iff_exists.mp hopen
  have hopened : openBlobFile Saving.calm.opens path fs = some (⟨i, true⟩, fs₁) := by
    simp only [openBlobFile, Saving.calm, if_true, hwrite, Option.map_some]
  obtain ⟨bytes, _, hall, hcontents⟩ := saved .calm chunks hopened
  have hsize : FileSystem.fileSize _ path = some bytes.length :=
    congrArg (Option.map List.length) hcontents
  rw [hall rfl rfl] at hsize
  unfold get
  rw [hopened]
  dsimp only
  rw [map_chunkOf, hsize]
  dsimp only [Option.getD_some]
  rw [← finish_ok_iff]
  by_cases hsame : size = chunks.flatten.length
  · rw [if_neg (not_not.mpr hsame.symm)]
    exact (and_iff_left hsame).symm
  · rw [if_pos (Ne.symm hsame)]
    constructor
    · intro h
      cases h
    · exact fun h => absurd h.2 hsame

/-- A call that failed before it announced a size. -/
theorem get_nothing (env : Saving) (ho : ¬ o.IsOk) :
    (get env path [] o fs).1 ≠ .ok () ∧ (get env path [] o fs).1 ≠ .error notMetadata := by
  cases hopen : openBlobFile env.opens path fs with
  | none =>
    simp only [get, hopen]
    exact ⟨nofun, nofun⟩
  | some r =>
    simp only [get, hopen]
    exact ⟨fun h => ho ((finish_ok_iff o).mp h), finish_ne o⟩

end Client

variable {cfg : Config} {σ₀ σ σ' : System} {ls : List SystemMove} {i j : ℕ}
  {request : GetStreamingRequest} {o : GetOutcome} {written : List GetStreamingResponse}
  {path : Path} {fs fs' : Files}

/-- In every run the client finds the metadata where it expects it, however its own
writes end, and when they succeed it accepts exactly the downloads that the service
ended with OK and that carry as many bytes as announced. -/
theorem client_accepts_iff {ok : System → SystemMove → Prop} (env : Client.Saving)
    (h₀ : σ₀.threads = []) (hrun : Run (systemStep cfg) ok σ₀ ls σ)
    (hi : σ.threads[i]? = some (.get request (.finished o written)))
    (hopen : (fs.openWrite path).isSome = true) :
    (Client.get env path written o fs).1 ≠ .error Client.notMetadata ∧
      ((Client.get .calm path written o fs).1 = .ok () ↔ o.IsOk ∧ ∃ chunks : List Bytes,
        written = .metadata (some chunks.flatten.length) :: chunks.map .chunk) := by
  obtain ⟨hframed, hnochunk⟩ := responding_run h₀ hrun hi
  have hinjective : Function.Injective (List.map GetStreamingResponse.chunk) :=
    List.map_injective_iff.mpr fun _ _ h => GetStreamingResponse.chunk.inj h
  have hshape : ∀ (size : ℕ) (chunks : List Bytes),
      written = .metadata (some size) :: chunks.map .chunk →
        (Client.get env path written o fs).1 ≠ .error Client.notMetadata ∧
          ((Client.get .calm path written o fs).1 = .ok () ↔ o.IsOk ∧ ∃ chunks : List Bytes,
            written = .metadata (some chunks.flatten.length) :: chunks.map .chunk) := by
    rintro size chunks rfl
    refine ⟨(Client.get_framed env chunks rfl).1, (Client.get_calm chunks hopen).trans ?_⟩
    refine and_congr_right fun _ => ⟨?_, fun ⟨others, heq⟩ => ?_⟩
    · rintro rfl
      exact ⟨chunks, rfl⟩
    · obtain ⟨hsize, hchunks⟩ := List.cons.inj heq
      rw [hinjective hchunks]
      exact Option.some.inj (GetStreamingResponse.metadata.inj hsize)
  by_cases hok : o.IsOk
  · obtain ⟨size, chunks, hwritten, _⟩ := hframed hok
    exact hshape size chunks hwritten
  · rcases hnochunk hok with rfl | ⟨size, rfl⟩
    · refine ⟨(Client.get_nothing env hok).2, fun h => absurd h (Client.get_nothing .calm hok).1,
        fun h => absurd h.1 hok⟩
    · exact hshape size [] rfl

/-- The blob is removed before it is opened: OK with nothing sent, and the client refuses. -/
theorem client_accepts_iff_cutShort : ∃ σ : System,
    runs smallConfig (untilCalled ++ removedAfter 7 2) smallStart = some σ ∧
    σ.threads[1]? = some (.get downloadRequest (.finished (.returned GetStatus.ok)
      [.metadata (some 4)])) ∧
    (Client.get .calm ["saved"] [.metadata (some 4)] (.returned GetStatus.ok) emptyDisk).1 ≠
      .ok () := by
  obtain ⟨σ, hσ, hend⟩ := (Option.any_eq_true
    (fun σ : System => σ.threads[1]?.bind Handler.download ==
      some (downloadRequest, .finished (.returned GetStatus.ok) [.metadata (some 4)])) _).mp
    (by decide : (runs smallConfig (untilCalled ++ removedAfter 7 2) smallStart).any _ = true)
  have hget := eq_get_of_download (beq_iff_eq.mp hend)
  have hrun : Run (systemStep smallConfig) (fun σ _ => Headroom σ.shared) smallStart
      (untilCalled ++ removedAfter 7 2) σ := .of_exec hσ fun _ _ _ hc => of_decide_eq_true hc
  refine ⟨σ, hσ, hget, fun haccepted => ?_⟩
  have hopen : (emptyDisk.openWrite ["saved"]).isSome = true := by decide
  obtain ⟨_, chunks, hwritten⟩ :=
    (client_accepts_iff .calm rfl hrun hget hopen).2.mp haccepted
  obtain ⟨hsize, hnone⟩ := List.cons.inj hwritten
  rw [List.map_eq_nil_iff.mp hnone.symm] at hsize
  cases hsize

end BlobRelay
