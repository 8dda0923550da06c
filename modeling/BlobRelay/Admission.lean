import BlobRelay.Grammar
import BlobRelay.Tags

/-! # Admission by the total

The quota is asked chunk by chunk, but an upload of chunks is refused exactly when
its total does not fit: how the content is cut makes no difference. -/

namespace BlobRelay
open Foundation Foundation.FileStore

variable {cfg : Config} {env : PutEnv} {w w' : World} {m : PutMetadata} {cs : List Bytes}
  {quota usage : ℕ}

theorem passes_chunks_iff (hq : quota ≠ 0) :
    Passes quota usage (cs.map .chunk) ↔ cs = [] ∨ usage + cs.flatten.length ≤ quota := by
  induction cs generalizing usage with
  | nil => exact ⟨fun _ => Or.inl rfl, fun _ before m after code heq => by simp at heq⟩
  | cons bytes cs ih =>
    rw [List.map_cons, passes_cons, List.flatten_cons, List.length_append]
    constructor
    · rintro ⟨bs, heq, hfit, hrest⟩
      cases heq
      have hone := hfit hq
      rcases ih.mp hrest with rfl | hle
      · exact Or.inr (by simpa using hone)
      · exact Or.inr (by omega)
    · rintro (hnil | hle)
      · cases hnil
      · exact ⟨bytes, rfl, fun _ => by omega, ih.mpr (Or.inr (by omega))⟩

theorem noWrap_chunks (hlt : usage + cs.flatten.length < 2^64) :
    NoWrap quota usage (cs.map .chunk) := by
  intro before bytes after heq _
  have hall := congrArg (fun ms => (payload ms).length) heq
  have hsplit : ∀ ms : List PutStreamingRequest,
      payload (ms ++ .chunk bytes :: after) = payload ms ++ (bytes ++ payload after) := by
    intro ms
    induction ms with
    | nil => rfl
    | cons x ms ih => cases x <;> simp [payload, ih]
  rw [payload_chunks, hsplit] at hall
  simp only [List.length_append] at hall
  omega

/-- Chunks are all taken in or refused; nothing else ends their reading. -/
theorem stops_chunks {before after : List PutStreamingRequest} {x : PutStreamingRequest}
    {code : StatusCode} (heq : cs.map .chunk = before ++ x :: after)
    (hstop : Stops quota usage before x code) : code = .resourceExhausted := by
  cases hstop with
  | exceeds => rfl
  | notChunk hm =>
    have hmem : x ∈ cs.map PutStreamingRequest.chunk := by
      rw [heq]
      exact List.mem_append_right before List.mem_cons_self
    obtain ⟨bytes, _, rfl⟩ := List.mem_map.mp hmem
    cases hm

/-- An upload that the quota refuses, and one that it lets in. -/
def QuotaDecides (cfg : Config) (bytes : Bytes) (refused : Prop) (w : World) (code : StatusCode)
    (w' : World) : Prop :=
  (refused ∧ code = .resourceExhausted ∧ NoTrace cfg w w') ∨
    (¬ refused ∧ code = .ok ∧ w'.manager.currentSize = w.manager.currentSize + bytes.length ∧
      w'.files.contents (uploadPath cfg (w.manager.blobId + 1)) = some bytes)

theorem put_chunks (hw : WorldInv cfg w) (hroom : Headroom w) (hq : cfg.quota ≠ 0)
    (henv : env.Favourable) (hmac : cfg.tagGenerator.Yields)
    (hv : m.apiVersion ≤ blobRelayApiVersion)
    (hl : w.manager.Live m.sessionId) (hsize : ∀ n, m.blobSize = some n → n = cs.flatten.length)
    (hlt : w.manager.currentSize + cs.flatten.length < 2^64) :
    ∃ status blob w', put cfg env (.metadata m :: cs.map .chunk) w =
        some (.returned status blob, w') ∧
      QuotaDecides cfg cs.flatten
        (cs ≠ [] ∧ cfg.quota < w.manager.currentSize + cs.flatten.length) w status.code w' := by
  have hwrap : NoWrap cfg.quota w.manager.currentSize (cs.map .chunk) := noWrap_chunks hlt
  have hpasses : Passes cfg.quota w.manager.currentSize (cs.map .chunk) ↔
      cs = [] ∨ w.manager.currentSize + cs.flatten.length ≤ cfg.quota := passes_chunks_iff hq
  rcases passes_or_stopped cfg.quota w.manager.currentSize (cs.map .chunk) with
    hpass | ⟨before, x, after, code, heq, hpass, hstop⟩
  · have hfits : ¬ (cs ≠ [] ∧ cfg.quota < w.manager.currentSize + cs.flatten.length) := by
      rintro ⟨hne, hgt⟩
      rcases hpasses.mp hpass with rfl | hle
      · exact hne rfl
      · omega
    obtain ⟨chunks, o, w', hflat, hput, hexit⟩ := put_passes hw hroom henv hv hl hpass hwrap
    rw [payload_chunks] at hflat hexit
    rcases hexit with ⟨⟨n, hn, hne⟩, _⟩ | ⟨_, rfl, hup⟩
    · exact absurd (hsize n hn) hne
    · obtain ⟨tag, _, hanswer⟩ := putResponse_ok hmac m.sessionId (w.manager.blobId + 1)
      rw [hanswer] at hput
      refine ⟨_, _, w', hput, Or.inr ⟨hfits, rfl, ?_, ?_⟩⟩
      · rw [hup.currentSize, charged, if_pos hq, totalLength_eq, hflat, Nat.mod_eq_of_lt hlt]
      · rw [hup.contents henv.writes henv.closes, hflat]
  · obtain rfl := stops_chunks heq hstop
    have hrefused : cs ≠ [] ∧ cfg.quota < w.manager.currentSize + cs.flatten.length := by
      by_contra hnot
      have hall : Passes cfg.quota w.manager.currentSize (cs.map .chunk) := by
        refine hpasses.mpr ?_
        by_cases hnil : cs = []
        · exact Or.inl hnil
        · exact Or.inr (Nat.le_of_not_lt fun hgt => hnot ⟨hnil, hgt⟩)
      exact hall before x after _ heq hstop
    rw [heq] at hwrap ⊢
    obtain ⟨status, w', hput, hcode, hclean⟩ := put_stopped hw hroom henv hv hl hpass hstop hwrap
    exact ⟨status, none, w', hput, Or.inl ⟨hrefused, hcode, hclean rfl⟩⟩

theorem QuotaDecides.agree {bytes : Bytes} {refused : Prop} {code code' : StatusCode}
    {w'' : World} (h : QuotaDecides cfg bytes refused w code w')
    (h' : QuotaDecides cfg bytes refused w code' w'') :
    code' = code ∧ w''.manager.currentSize = w'.manager.currentSize ∧
      w''.files.contents (uploadPath cfg (w.manager.blobId + 1)) =
        w'.files.contents (uploadPath cfg (w.manager.blobId + 1)) := by
  rcases h with ⟨hrefused, hcode, hclean⟩ | ⟨hfits, hcode, husage, hfile⟩
  · rcases h' with ⟨_, hcode', hclean'⟩ | ⟨hfits', _⟩
    · have hpath := uploadPath_inDirectory cfg (w.manager.blobId + 1)
      exact ⟨hcode'.trans hcode.symm, hclean'.currentSize.trans hclean.currentSize.symm,
        (hclean'.files _ hpath).2.trans (hclean.files _ hpath).2.symm⟩
    · exact absurd hrefused hfits'
  · rcases h' with ⟨hrefused', _⟩ | ⟨_, hcode', husage', hfile'⟩
    · exact absurd hrefused' hfits
    · exact ⟨hcode'.trans hcode.symm, husage'.trans husage.symm, hfile'.trans hfile.symm⟩

/-- What is refused of one cutting is refused of the other. -/
theorem refused_cutting {cs' : List Bytes} (hflat : cs'.flatten = cs.flatten)
    (hcut : (cs = [] ↔ cs' = []) ∨ usage ≤ quota) :
    (cs' ≠ [] ∧ quota < usage + cs.flatten.length) ↔
      (cs ≠ [] ∧ quota < usage + cs.flatten.length) := by
  have hchunk : ∀ l : List Bytes, l.flatten = cs.flatten → usage ≤ quota →
      quota < usage + cs.flatten.length → l ≠ [] := by
    intro l hl hle hgt hnil
    rw [← hl, hnil, List.flatten_nil, List.length_nil] at hgt
    omega
  rcases hcut with hcut | hle
  · rw [ne_eq, ne_eq, hcut]
  · exact ⟨fun h => ⟨hchunk cs rfl hle h.2, h.2⟩, fun h => ⟨hchunk cs' hflat hle h.2, h.2⟩⟩

/-- In every reachable state: an upload of chunks is refused exactly when it has one and
its total does not fit, and then leaves no trace; otherwise it is let in and adds its
total. So two ways to cut one content come to the same end, unless the counter is past
the quota and only one of them has a chunk. -/
theorem quota_admission {σ : System} (hσ : Reachable cfg σ) (hq : cfg.quota ≠ 0)
    (hmac : cfg.tagGenerator.Yields) (hv : m.apiVersion ≤ blobRelayApiVersion)
    (hl : σ.shared.manager.Live m.sessionId)
    (hsize : ∀ n, m.blobSize = some n → n = cs.flatten.length)
    (hlt : σ.shared.manager.currentSize + cs.flatten.length < 2^64) (henv : env.Favourable) :
    ∃ status blob w', put cfg env (.metadata m :: cs.map .chunk) σ.shared =
        some (.returned status blob, w') ∧
      (status.code = .resourceExhausted ↔
        cs ≠ [] ∧ cfg.quota < σ.shared.manager.currentSize + cs.flatten.length) ∧
      (status.code = .resourceExhausted → NoTrace cfg σ.shared w') ∧
      (status.code ≠ .resourceExhausted → status.code = .ok ∧
        w'.manager.currentSize = σ.shared.manager.currentSize + cs.flatten.length ∧
        w'.files.contents (uploadPath cfg (σ.shared.manager.blobId + 1)) = some cs.flatten) ∧
      ∀ (env' : PutEnv) (cs' : List Bytes), env'.Favourable → cs'.flatten = cs.flatten →
        (cs = [] ↔ cs' = []) ∨ σ.shared.manager.currentSize ≤ cfg.quota →
        ∃ status' blob' w'', put cfg env' (.metadata m :: cs'.map .chunk) σ.shared =
            some (.returned status' blob', w'') ∧ status'.code = status.code ∧
          w''.manager.currentSize = w'.manager.currentSize ∧
          w''.files.contents (uploadPath cfg (σ.shared.manager.blobId + 1)) =
            w'.files.contents (uploadPath cfg (σ.shared.manager.blobId + 1)) := by
  obtain ⟨status, blob, w', hput, hend⟩ := put_chunks hσ.world hσ.1 hq henv hmac hv hl hsize hlt
  refine ⟨status, blob, w', hput, ?_, ?_, ?_, ?_⟩
  · rcases hend with ⟨hrefused, hcode, _⟩ | ⟨hfits, hcode, _⟩
    · exact ⟨fun _ => hrefused, fun _ => hcode⟩
    · refine ⟨fun h => ?_, fun h => absurd h hfits⟩
      rw [hcode] at h
      cases h
  · intro h
    rcases hend with ⟨_, _, hclean⟩ | ⟨_, hcode, _⟩
    · exact hclean
    · rw [hcode] at h
      cases h
  · intro h
    rcases hend with ⟨_, hcode, _⟩ | ⟨_, hcode, husage, hfile⟩
    · exact absurd hcode h
    · exact ⟨hcode, husage, hfile⟩
  · intro env' cs' henv' hflat hcut
    have hsize' : ∀ n, m.blobSize = some n → n = cs'.flatten.length := by
      rw [hflat]
      exact hsize
    have hlt' : σ.shared.manager.currentSize + cs'.flatten.length < 2^64 := by
      rw [hflat]
      exact hlt
    obtain ⟨status', blob', w'', hput', hend'⟩ :=
      put_chunks hσ.world hσ.1 hq henv' hmac hv hl hsize' hlt'
    rw [hflat, refused_cutting hflat hcut] at hend'
    exact ⟨status', blob', w'', hput', hend.agree hend'⟩

/-- The deletion of an uploaded blob throws twice, and each call gives its size back. -/
def doubleRelease : List SystemMove :=
  oneUpload ++ [.call (.remove 1 [1]), .run 1 .none, .run 1 .existsThrows,
    .call (.remove 1 [1]), .run 2 .none, .run 2 .existsThrows]

theorem empty_upload_admitted : ¬ ∀ (cfg : Config) (env : PutEnv) (σ : System) (m : PutMetadata)
    (cs : List Bytes) (status : Status) (blob : Option BlobReference) (w' : World),
    Reachable cfg σ → cfg.quota ≠ 0 → cfg.tagGenerator.Yields → env.Favourable →
    m.apiVersion ≤ blobRelayApiVersion → σ.shared.manager.Live m.sessionId →
    (∀ n, m.blobSize = some n → n = cs.flatten.length) →
    σ.shared.manager.currentSize + cs.flatten.length < 2^64 →
    put cfg env (.metadata m :: cs.map .chunk) σ.shared = some (.returned status blob, w') →
    (status.code = .resourceExhausted ↔
      cfg.quota < σ.shared.manager.currentSize + cs.flatten.length) := by
  intro h
  obtain ⟨σ, hσ, hend⟩ := (Option.any_eq_true
    (fun σ : System => decide (Headroom σ.shared) && σ.shared.manager.blobSessions[1]?.isSome &&
      decide (σ.shared.manager.currentSize = 2^64 - 3) &&
      decide ((put smallConfig .calm [.metadata ⟨1, 1, none⟩] σ.shared).map
        (fun r => decide r.1.IsOk) = some true)) _).mp
    (by decide : (runs smallConfig doubleRelease smallStart).any _ = true)
  simp only [Bool.and_eq_true, decide_eq_true_eq] at hend
  obtain ⟨⟨⟨hroom, hlive⟩, hcur⟩, hok⟩ := hend
  obtain ⟨impl, hs⟩ := Option.isSome_iff_exists.mp hlive
  obtain ⟨⟨o, w'⟩, hput, hcode⟩ := Option.map_eq_some_iff.mp hok
  cases o with
  | thrown e => cases hcode
  | returned status blob =>
    have hone := h smallConfig .calm σ ⟨1, 1, none⟩ [] status blob w'
      (.of_runs smallStart_initial hσ hroom) (by decide) smallConfig_yields calm_favourable
      (by decide) ⟨impl, hs⟩ nofun (by rw [hcur]; decide) hput
    have hrefused := hone.mpr (by rw [hcur]; decide)
    have hcode : status.code = .ok := of_decide_eq_true hcode
    rw [hcode] at hrefused
    cases hrefused

theorem quota_admission_cuttings : ∃ status blob w' status' blob' w'',
    put smallConfig .calm [.metadata ⟨1, 1, none⟩, .chunk [1, 2], .chunk [3]]
        (oneSession none).shared = some (.returned status blob, w') ∧
      put smallConfig .calm [.metadata ⟨1, 1, none⟩, .chunk [], .chunk [1, 2, 3]]
        (oneSession none).shared = some (.returned status' blob', w'') ∧
      status'.code = status.code ∧ w''.manager.currentSize = w'.manager.currentSize := by
  have hlive : (oneSession none).shared.manager.Live 1 :=
    (BlobSessionManager.owner_of_map (t := none) (by decide)).live
  obtain ⟨status, blob, w', hput, _, _, _, hcut⟩ :=
    @quota_admission smallConfig .calm ⟨1, 1, none⟩ [[1, 2], [3]] (oneSession none)
      (oneSession_reachable none) (by decide) smallConfig_yields (by decide) hlive nofun
      (by decide) calm_favourable
  obtain ⟨status', blob', w'', hput', hcode, husage, _⟩ :=
    hcut .calm [[], [1, 2, 3]] calm_favourable rfl (Or.inl (by simp))
  exact ⟨status, blob, w', status', blob', w'', hput, hput', hcode, husage⟩

end BlobRelay
