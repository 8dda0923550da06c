import BlobRelay.PutTrace
import BlobRelay.TransactionIndex
import BlobRelay.UploadFiles

/-! # The message grammar of `Put`

Which status a sequence of messages gets, stated by the first rule that applies
and without the handler's counters, and that `Put` decides by these rules. -/

namespace BlobRelay
open Foundation Foundation.FileStore

/-! ### The rules -/

/-- A message that ends the reading, after `before`, with this status. -/
inductive Stops (quota usage : ℕ) (before : List PutStreamingRequest) :
    PutStreamingRequest → StatusCode → Prop
  | notChunk {m : PutStreamingRequest} : m.isChunk = false →
      Stops quota usage before m .invalidArgument
  | exceeds {bytes : Bytes} : quota ≠ 0 →
      quota < usage + (payload before).length + bytes.length →
      Stops quota usage before (.chunk bytes) .resourceExhausted

/-- No message ends the reading. -/
def Passes (quota usage : ℕ) (messages : List PutStreamingRequest) : Prop :=
  ∀ before m after code, messages = before ++ m :: after → ¬ Stops quota usage before m code

/-- No sum that the reading of these messages computes passes 2^64. -/
def NoWrap (quota usage : ℕ) (messages : List PutStreamingRequest) : Prop :=
  ∀ before bytes after, messages = before ++ .chunk bytes :: after → Passes quota usage before →
    usage + (payload before).length + bytes.length < 2^64

/-- The status that the first rule to apply gives to a sequence of messages. -/
inductive Decided (quota usage : ℕ) (live : ℕ → Prop) : List PutStreamingRequest → StatusCode → Prop
  | empty : Decided quota usage live [] .invalidArgument
  | notMetadata {first : PutStreamingRequest} {rest : List PutStreamingRequest} :
      (∀ m, first ≠ .metadata m) → Decided quota usage live (first :: rest) .invalidArgument
  | apiVersion {m : PutMetadata} {rest : List PutStreamingRequest} :
      blobRelayApiVersion < m.apiVersion →
      Decided quota usage live (.metadata m :: rest) .unavailable
  | notLive {m : PutMetadata} {rest : List PutStreamingRequest} :
      m.apiVersion ≤ blobRelayApiVersion → ¬ live m.sessionId →
      Decided quota usage live (.metadata m :: rest) .notFound
  | stopped {m : PutMetadata} {before after : List PutStreamingRequest} {x : PutStreamingRequest}
      {code : StatusCode} : m.apiVersion ≤ blobRelayApiVersion → live m.sessionId →
      Passes quota usage before → Stops quota usage before x code →
      Decided quota usage live (.metadata m :: (before ++ x :: after)) code
  | wrongSize {m : PutMetadata} {rest : List PutStreamingRequest} {n : ℕ} :
      m.apiVersion ≤ blobRelayApiVersion → live m.sessionId → Passes quota usage rest →
      m.blobSize = some n → n ≠ (payload rest).length →
      Decided quota usage live (.metadata m :: rest) .invalidArgument
  | accepted {m : PutMetadata} {rest : List PutStreamingRequest} :
      m.apiVersion ≤ blobRelayApiVersion → live m.sessionId → Passes quota usage rest →
      (∀ n, m.blobSize = some n → n = (payload rest).length) →
      Decided quota usage live (.metadata m :: rest) .ok

variable {cfg : Config} {env : PutEnv} {w : World} {quota usage cur : ℕ}
  {before after rest : List PutStreamingRequest} {x : PutStreamingRequest} {code : StatusCode}

theorem payload_chunks (chunks : List Bytes) : payload (chunks.map .chunk) = chunks.flatten := by
  induction chunks with
  | nil => rfl
  | cons bytes chunks ih => rw [List.map_cons, payload, ih, List.flatten_cons]

theorem checkApiVersion_iff {v : ℕ} : checkApiVersion v = true ↔ v ≤ blobRelayApiVersion := by
  unfold checkApiVersion
  split
  · simp only [Bool.false_eq_true, false_iff]
    omega
  · simp only [true_iff]
    omega

theorem checkApiVersion_not_iff {v : ℕ} : ¬ checkApiVersion v = true ↔ blobRelayApiVersion < v := by
  rw [checkApiVersion_iff, Nat.not_le]

/-! ### Passing a chunk -/

theorem stops_cons {bytes : Bytes} :
    Stops quota usage (.chunk bytes :: before) x code ↔
      Stops quota (usage + bytes.length) before x code := by
  have hsum : ∀ n, usage + (payload (.chunk bytes :: before)).length + n =
      usage + bytes.length + (payload before).length + n := by
    intro n
    rw [payload, List.length_append]
    omega
  constructor
  · rintro (hm | ⟨hq, hgt⟩)
    · exact .notChunk hm
    · exact .exceeds hq (by rwa [hsum] at hgt)
  · rintro (hm | ⟨hq, hgt⟩)
    · exact .notChunk hm
    · exact .exceeds hq (by rwa [hsum])

theorem passes_cons : Passes quota usage (x :: rest) ↔
    ∃ bytes, x = .chunk bytes ∧ (quota ≠ 0 → usage + bytes.length ≤ quota) ∧
      Passes quota (usage + bytes.length) rest := by
  constructor
  · intro h
    have hfirst : ∀ code, ¬ Stops quota usage [] x code := fun code => h [] x rest code rfl
    cases x with
    | metadata m => exact absurd (.notChunk rfl) (hfirst _)
    | unset => exact absurd (.notChunk rfl) (hfirst _)
    | chunk bytes =>
      refine ⟨bytes, rfl, fun hq => ?_, fun before m after code heq => ?_⟩
      · by_contra hgt
        exact hfirst _ (.exceeds hq (by simpa [payload] using hgt))
      · rw [← stops_cons]
        exact h (.chunk bytes :: before) m after code (by rw [heq, List.cons_append])
  · rintro ⟨bytes, rfl, hfit, hrest⟩ before m after code heq hstop
    cases before with
    | nil =>
      obtain ⟨rfl, rfl⟩ := List.cons.inj heq
      cases hstop with
      | notChunk hm => cases hm
      | exceeds hq hgt =>
        have hle := hfit hq
        rw [payload, List.length_nil] at hgt
        omega
    | cons y before =>
      obtain ⟨rfl, rfl⟩ := List.cons.inj heq
      exact hrest before m after code rfl (stops_cons.mp hstop)

theorem noWrap_cons {bytes : Bytes} (h : NoWrap quota usage (.chunk bytes :: rest))
    (hfit : quota ≠ 0 → usage + bytes.length ≤ quota) :
    usage + bytes.length < 2^64 ∧ NoWrap quota (usage + bytes.length) rest := by
  constructor
  · have hone := h [] bytes rest rfl (fun before m after code heq => by simp at heq)
    simpa [payload] using hone
  · intro before bs after heq hpass
    have hlt := h (.chunk bytes :: before) bs after (by rw [heq, List.cons_append])
      (passes_cons.mpr ⟨bytes, rfl, hfit, hpass⟩)
    rw [payload, List.length_append] at hlt
    omega

theorem passes_or_stopped (quota usage : ℕ) (messages : List PutStreamingRequest) :
    Passes quota usage messages ∨ ∃ before x after code, messages = before ++ x :: after ∧
      Passes quota usage before ∧ Stops quota usage before x code := by
  have hnil : ∀ usage, Passes quota usage [] := fun usage before m after code heq => by simp at heq
  induction messages generalizing usage with
  | nil => exact Or.inl (hnil usage)
  | cons m rest ih =>
    by_cases hstop : ∃ code, Stops quota usage [] m code
    · obtain ⟨code, hstop⟩ := hstop
      exact Or.inr ⟨[], m, rest, code, rfl, hnil usage, hstop⟩
    · cases m with
      | metadata m => exact absurd ⟨_, .notChunk rfl⟩ hstop
      | unset => exact absurd ⟨_, .notChunk rfl⟩ hstop
      | chunk bytes =>
        have hfit : quota ≠ 0 → usage + bytes.length ≤ quota := by
          intro hq
          by_contra hgt
          exact hstop ⟨_, .exceeds hq (by simpa [payload] using hgt)⟩
        rcases ih (usage + bytes.length) with hpass | ⟨before, x, after, code, rfl, hpass, hx⟩
        · exact Or.inl (passes_cons.mpr ⟨bytes, rfl, hfit, hpass⟩)
        · exact Or.inr ⟨.chunk bytes :: before, x, after, code, rfl,
            passes_cons.mpr ⟨bytes, rfl, hfit, hpass⟩, stops_cons.mpr hx⟩

theorem decided_exists (quota usage : ℕ) (live : ℕ → Prop) (messages : List PutStreamingRequest) :
    ∃ code, Decided quota usage live messages code := by
  cases messages with
  | nil => exact ⟨_, .empty⟩
  | cons first rest =>
    cases first with
    | chunk bytes => exact ⟨_, .notMetadata nofun⟩
    | unset => exact ⟨_, .notMetadata nofun⟩
    | metadata m =>
      by_cases hv : m.apiVersion ≤ blobRelayApiVersion
      · by_cases hl : live m.sessionId
        · rcases passes_or_stopped quota usage rest with
            hpass | ⟨before, x, after, code, rfl, hpass, hx⟩
          · by_cases hsize : ∀ n, m.blobSize = some n → n = (payload rest).length
            · exact ⟨_, .accepted hv hl hpass hsize⟩
            · push Not at hsize
              obtain ⟨n, hn, hne⟩ := hsize
              exact ⟨_, .wrongSize hv hl hpass hn hne⟩
          · exact ⟨code, .stopped hv hl hpass hx⟩
        · exact ⟨_, .notLive hv hl⟩
      · exact ⟨_, .apiVersion (by omega)⟩

/-! ### The loop follows the rules -/

/-- Passing messages are chunks, and the loop takes them all in. -/
theorem scan_append (hcur : quota ≠ 0 → cur = usage) (hpass : Passes quota usage before)
    (hwrap : NoWrap quota usage (before ++ rest)) :
    ∃ chunks, before = chunks.map .chunk ∧ scan quota cur (before ++ rest) =
      ((scan quota (if quota ≠ 0 then usage + (payload before).length else cur) rest).1,
        chunks ++
          (scan quota (if quota ≠ 0 then usage + (payload before).length else cur) rest).2) := by
  induction before generalizing cur usage with
  | nil =>
    have hstart : (if quota ≠ 0 then usage + (payload []).length else cur) = cur := by
      split
      · rename_i hq
        exact (hcur hq).symm
      · rfl
    exact ⟨[], rfl, by rw [hstart]; rfl⟩
  | cons x before ih =>
    obtain ⟨bytes, rfl, hfit, hbefore⟩ := passes_cons.mp hpass
    obtain ⟨hlt, hrest⟩ := noWrap_cons hwrap hfit
    have hres : reserve quota bytes.length cur =
        (true, if quota ≠ 0 then usage + bytes.length else cur) := by
      split
      · rename_i hq
        rw [hcur hq]
        exact reserve_fits hq hlt (hfit hq)
      · rename_i hq
        rw [reserve, if_neg hq]
    have hcur' : quota ≠ 0 →
        (if quota ≠ 0 then usage + bytes.length else cur) = usage + bytes.length :=
      fun hq => if_pos hq
    obtain ⟨chunks, rfl, hscan⟩ := ih hcur' hbefore hrest
    refine ⟨bytes :: chunks, rfl, ?_⟩
    have hnext : (if quota ≠ 0 then usage + bytes.length + (payload (chunks.map .chunk)).length
        else if quota ≠ 0 then usage + bytes.length else cur) =
        if quota ≠ 0 then usage + (payload (.chunk bytes :: chunks.map .chunk)).length
        else cur := by
      split
      · rw [payload, List.length_append, Nat.add_assoc]
      · rfl
    rw [hnext] at hscan
    simp only [List.cons_append, scan, hres, if_true, hscan]

theorem scan_passes (hpass : Passes quota usage rest) (hwrap : NoWrap quota usage rest) :
    ∃ chunks, scan quota usage rest = (.complete, chunks) ∧ chunks.flatten = payload rest := by
  have hwrap' : NoWrap quota usage (rest ++ []) := by rwa [List.append_nil]
  obtain ⟨chunks, rfl, hscan⟩ := scan_append (fun _ => Eq.refl usage) hpass hwrap'
  rw [List.append_nil] at hscan
  exact ⟨chunks, by rw [hscan]; simp [scan], (payload_chunks chunks).symm⟩

theorem scan_stopped (hpass : Passes quota usage before) (hstop : Stops quota usage before x code)
    (hwrap : NoWrap quota usage (before ++ x :: after)) :
    ((scan quota usage (before ++ x :: after)).1 = .brokenOff ∧ code = .invalidArgument) ∨
      ((scan quota usage (before ++ x :: after)).1 = .refused ∧ code = .resourceExhausted) := by
  obtain ⟨chunks, hchunks, hscan⟩ := scan_append (fun _ => Eq.refl usage) hpass hwrap
  rw [hscan]
  cases hstop with
  | notChunk hm =>
    cases x with
    | chunk bytes => cases hm
    | metadata m => exact Or.inl ⟨rfl, rfl⟩
    | unset => exact Or.inl ⟨rfl, rfl⟩
  | @exceeds bytes hq hgt =>
    have hlt := hwrap before bytes after rfl hpass
    have hres : reserve quota bytes.length (usage + (payload before).length) =
        (false, usage + (payload before).length) := by
      rw [reserve, if_pos hq, add64_of_lt hlt, if_pos hgt]
    refine Or.inr ⟨?_, rfl⟩
    rw [if_pos hq]
    simp only [scan, hres, Bool.false_eq_true, if_false]

/-! ### `Put` decides by the rules -/

/-- The surroundings let every file operation of the upload through. -/
structure PutEnv.Favourable (env : PutEnv) : Prop where
  opens : env.opens = true
  writes : ∀ k, env.writes k = none
  closes : env.closes = none
  deletes : env.deletes = .succeeds
  removes : env.removes = true

/-- OpenSSL computes a digest of every input. -/
def TagGenerator.Yields (g : TagGenerator) : Prop :=
  ∀ bytes, ∃ md, g.hmac g.hmacSecretKey bytes = .ok md

theorem putResponse_ok (hmac : cfg.tagGenerator.Yields) (s b : ℕ) :
    ∃ tag, BlobSessionImpl.computeTag cfg s b = .ok tag ∧
      putResponse cfg s b = .returned PutStatus.ok (some ⟨sessionStorageId, b, tag⟩) := by
  obtain ⟨md, hmd⟩ := hmac (memoryBytes b 8 ++ memoryBytes s 8)
  have htag : BlobSessionImpl.computeTag cfg s b = .ok (memoryWord (md.take 8)) := by
    simp only [BlobSessionImpl.computeTag, TagGenerator.generateReferenceTag, hmd]
  exact ⟨_, htag, by simp only [putResponse, htag]⟩

/-- What an accepted upload leaves: one new entry, its file, and the answer. -/
structure Accepted (cfg : Config) (s : ℕ) (bytes : Bytes) (blob : Option BlobReference)
    (w w' : World) : Prop where
  answer : ∃ tag, blob = some ⟨sessionStorageId, w.manager.blobId + 1, tag⟩ ∧
    BlobSessionImpl.computeTag cfg s (w.manager.blobId + 1) = .ok tag
  fresh : ∀ r e, ¬ w.manager.Entry r (w.manager.blobId + 1) e
  entry : ∀ r c e, w'.manager.Entry r c e ↔ w.manager.Entry r c e ∨
    (r = s ∧ c = w.manager.blobId + 1 ∧ e = (uploadPath cfg (w.manager.blobId + 1), bytes.length))
  file : w'.files.contents (uploadPath cfg (w.manager.blobId + 1)) = some bytes

theorem noWrap_total (hlt : usage < 2^64) (hpass : Passes quota usage rest)
    (hwrap : NoWrap quota usage rest) : usage + (payload rest).length < 2^64 := by
  induction rest generalizing usage with
  | nil => exact hlt
  | cons x rest ih =>
    obtain ⟨bytes, rfl, hfit, hrest⟩ := passes_cons.mp hpass
    obtain ⟨hone, hnext⟩ := noWrap_cons hwrap hfit
    have hall := ih hone hrest hnext
    rw [payload, List.length_append]
    omega

theorem accepted_of_uploaded {w' : World} {s : ℕ} {chunks : List Bytes} {bytes : Bytes}
    {tag : BlobTag} (hw : WorldInv cfg w) (henv : env.Favourable) (hup : Uploaded cfg env s chunks w w')
    (hbytes : chunks.flatten = bytes) (hlt : bytes.length < 2^64)
    (htag : BlobSessionImpl.computeTag cfg s (w.manager.blobId + 1) = .ok tag) :
    Accepted cfg s bytes (some ⟨sessionStorageId, w.manager.blobId + 1, tag⟩) w w' := by
  subst hbytes
  refine ⟨⟨tag, rfl, htag⟩, fun r e he => ?_, fun r c e => ?_, hup.contents henv.writes henv.closes⟩
  · have hle := (hw.blobIds r _ e he).2
    omega
  · rw [hup.entry, totalLength_eq, Nat.mod_eq_of_lt hlt]

theorem sizeMismatches_iff {blobSizeOpt : Option ℕ} {n : ℕ} :
    sizeMismatches blobSizeOpt n = true ↔ ∃ k, blobSizeOpt = some k ∧ k ≠ n := by
  unfold sizeMismatches
  cases blobSizeOpt <;> simp

/-- The answer to an upload whose metadata is in order, by the end of its reading. -/
def EndsAs (cfg : Config) (env : PutEnv) (m : PutMetadata) (w : World) (chunks : List Bytes)
    (o : PutOutcome) (w' : World) : Ending → Prop
  | .brokenOff => o = .returned PutStatus.notChunk none
  | .refused => o = .returned PutStatus.exhausted none ∧ NoTrace cfg w w'
  | .complete =>
    (sizeMismatches m.blobSize (totalLength chunks % 2^64) = true ∧
      o = .returned PutStatus.sizeMismatch none) ∨
    (sizeMismatches m.blobSize (totalLength chunks % 2^64) = false ∧
      o = putResponse cfg m.sessionId (w.manager.blobId + 1) ∧
      Uploaded cfg env m.sessionId chunks w w')

section InOrder
variable {m : PutMetadata} (hw : WorldInv cfg w) (hroom : Headroom w) (henv : env.Favourable)
  (hv : m.apiVersion ≤ blobRelayApiVersion) (hl : w.manager.Live m.sessionId)
include hw hroom henv hv hl

theorem put_ends {chunks : List Bytes} {ending : Ending}
    (hscan : scan cfg.quota w.manager.currentSize rest = (ending, chunks)) :
    ∃ o w', put cfg env (.metadata m :: rest) w = some (o, w') ∧
      EndsAs cfg env m w chunks o w' ending := by
  obtain ⟨o, w', hput, hexit⟩ := put_spec hw hroom env (.metadata m :: rest)
  refine ⟨o, w', hput, ?_⟩
  cases hexit with
  | rejected _ hnot => exact absurd hl (hnot m rest rfl (checkApiVersion_iff.mpr hv))
  | cannotOpen _ hopen =>
    rw [henv.opens] at hopen
    cases hopen
  | brokenOff _ _ hs _ =>
    cases hscan.symm.trans hs
    rfl
  | refused _ _ hs hup her =>
    cases hscan.symm.trans hs
    exact ⟨rfl, noTrace_refused hw hup her⟩
  | refusedFails _ _ _ _ hdel _ => exact absurd henv.deletes hdel
  | mismatch _ _ hs hsize _ _ =>
    cases hscan.symm.trans hs
    exact Or.inl ⟨hsize, rfl⟩
  | mismatchFails _ _ _ _ _ hrem =>
    rw [henv.removes] at hrem
    cases hrem
  | answered _ _ hs hsize hup =>
    cases hscan.symm.trans hs
    exact Or.inr ⟨hsize, rfl, hup⟩

theorem put_stopped (hpass : Passes cfg.quota w.manager.currentSize before)
    (hstop : Stops cfg.quota w.manager.currentSize before x code)
    (hwrap : NoWrap cfg.quota w.manager.currentSize (before ++ x :: after)) :
    ∃ status w', put cfg env (.metadata m :: (before ++ x :: after)) w =
        some (.returned status none, w') ∧ status.code = code ∧
      (code = .resourceExhausted → NoTrace cfg w w') := by
  have hend := scan_stopped hpass hstop hwrap
  rcases hscan : scan cfg.quota w.manager.currentSize (before ++ x :: after) with ⟨ending, chunks⟩
  rw [hscan] at hend
  obtain ⟨o, w', hput, hexit⟩ := put_ends hw hroom henv hv hl hscan
  rcases hend with ⟨rfl, rfl⟩ | ⟨rfl, rfl⟩
  · obtain rfl := hexit
    exact ⟨_, w', hput, rfl, fun hbad => absurd hbad (by decide)⟩
  · obtain ⟨rfl, hclean⟩ := hexit
    exact ⟨_, w', hput, rfl, fun _ => hclean⟩

theorem put_passes (hpass : Passes cfg.quota w.manager.currentSize rest)
    (hwrap : NoWrap cfg.quota w.manager.currentSize rest) :
    ∃ chunks o w', chunks.flatten = payload rest ∧
      put cfg env (.metadata m :: rest) w = some (o, w') ∧
      (((∃ n, m.blobSize = some n ∧ n ≠ (payload rest).length) ∧
        o = .returned PutStatus.sizeMismatch none) ∨
      ((∀ n, m.blobSize = some n → n = (payload rest).length) ∧
        o = putResponse cfg m.sessionId (w.manager.blobId + 1) ∧
        Uploaded cfg env m.sessionId chunks w w')) := by
  obtain ⟨chunks, hscan, hflat⟩ := scan_passes hpass hwrap
  have hlt := noWrap_total hw.currentSize_lt hpass hwrap
  have htotal : totalLength chunks % 2^64 = (payload rest).length := by
    rw [totalLength_eq, hflat, Nat.mod_eq_of_lt (by omega)]
  obtain ⟨o, w', hput, hexit⟩ := put_ends hw hroom henv hv hl hscan
  refine ⟨chunks, o, w', hflat, hput, ?_⟩
  rcases hexit with ⟨hsize, rfl⟩ | ⟨hsize, rfl, hup⟩
  · rw [htotal] at hsize
    exact Or.inl ⟨sizeMismatches_iff.mp hsize, rfl⟩
  · refine Or.inr ⟨fun n hn => ?_, rfl, hup⟩
    by_contra hne
    rw [htotal, sizeMismatches_iff.mpr ⟨n, hn, hne⟩] at hsize
    cases hsize

end InOrder

theorem put_unsupported {m : PutMetadata} (hv : blobRelayApiVersion < m.apiVersion) :
    put cfg env (.metadata m :: rest) w =
      some (.returned (PutStatus.apiVersion m.apiVersion) none, w) := by
  simp only [put, if_neg (checkApiVersion_not_iff.mpr hv)]

theorem put_decided {messages : List PutStreamingRequest} (hw : WorldInv cfg w) (hroom : Headroom w)
    (henv : env.Favourable) (hmac : cfg.tagGenerator.Yields)
    (hwrap : ∀ m rest, messages = .metadata m :: rest → NoWrap cfg.quota w.manager.currentSize rest)
    (h : Decided cfg.quota w.manager.currentSize w.manager.Live messages code) :
    ∃ status blob w', put cfg env messages w = some (.returned status blob, w') ∧
      status.code = code ∧
      ((∀ m rest, messages = .metadata m :: rest → m.apiVersion ≤ blobRelayApiVersion →
        ¬ w.manager.Live m.sessionId) → w' = w) ∧
      (code = .ok → ∃ m rest, messages = .metadata m :: rest ∧
        Accepted cfg m.sessionId (payload rest) blob w w') := by
  cases h with
  | empty => exact ⟨_, _, w, rfl, rfl, fun _ => rfl, fun hok => absurd hok (by decide)⟩
  | @notMetadata first rest hfirst =>
    cases first with
    | metadata m => exact absurd rfl (hfirst m)
    | chunk bytes => exact ⟨_, _, w, rfl, rfl, fun _ => rfl, fun hok => absurd hok (by decide)⟩
    | unset => exact ⟨_, _, w, rfl, rfl, fun _ => rfl, fun hok => absurd hok (by decide)⟩
  | @apiVersion m rest hv =>
    exact ⟨_, _, w, put_unsupported hv, rfl, fun _ => rfl, fun hok => absurd hok (by decide)⟩
  | @notLive m rest hv hl =>
    refine ⟨⟨.notFound, "can not find the session specified"⟩, none, w, ?_, rfl, fun _ => rfl,
      fun hok => absurd hok (by decide)⟩
    simp only [put, if_pos (checkApiVersion_iff.mpr hv),
      BlobSessionManager.getSessionImpl_of_not_live hl]
    rfl
  | @stopped m before after x code hv hl hpass hstop =>
    obtain ⟨status, w', hput, hcode, _⟩ :=
      put_stopped hw hroom henv hv hl hpass hstop (hwrap m _ rfl)
    refine ⟨status, none, w', hput, hcode, fun hnot => absurd hl (hnot m _ rfl hv), fun hok => ?_⟩
    subst hok
    cases hstop
  | @wrongSize m rest n hv hl hpass hsize hne =>
    obtain ⟨_, o, w', _, hput, hexit⟩ := put_passes hw hroom henv hv hl hpass (hwrap m rest rfl)
    rcases hexit with ⟨_, rfl⟩ | ⟨hgood, _⟩
    · exact ⟨_, _, w', hput, rfl, fun hnot => absurd hl (hnot m _ rfl hv),
        fun hok => absurd hok (by decide)⟩
    · exact absurd (hgood n hsize) hne
  | @accepted m rest hv hl hpass hsize =>
    obtain ⟨chunks, o, w', hflat, hput, hexit⟩ :=
      put_passes hw hroom henv hv hl hpass (hwrap m rest rfl)
    rcases hexit with ⟨⟨n, hn, hne⟩, _⟩ | ⟨_, rfl, hup⟩
    · exact absurd (hsize n hn) hne
    · obtain ⟨tag, htag, hanswer⟩ := putResponse_ok hmac m.sessionId (w.manager.blobId + 1)
      have hlt := noWrap_total hw.currentSize_lt hpass (hwrap m rest rfl)
      rw [hanswer] at hput
      exact ⟨_, _, w', hput, rfl, fun hnot => absurd hl (hnot m _ rfl hv), fun _ =>
        ⟨m, rest, rfl, accepted_of_uploaded hw henv hup hflat (by omega) htag⟩⟩

/-- In every reachable state, `Put` returns the status that the first rule to apply
gives its messages; a rejection before the session is found changes nothing; and an
accepted upload leaves exactly one new entry, with its file, named in the answer. -/
theorem put_grammar {σ : System} {messages : List PutStreamingRequest} (hσ : Reachable cfg σ)
    (henv : env.Favourable) (hmac : cfg.tagGenerator.Yields)
    (hwrap : ∀ m rest, messages = .metadata m :: rest →
      NoWrap cfg.quota σ.shared.manager.currentSize rest) :
    ∃ status blob w', put cfg env messages σ.shared = some (.returned status blob, w') ∧
      (∀ code, Decided cfg.quota σ.shared.manager.currentSize σ.shared.manager.Live messages code ↔
        code = status.code) ∧
      ((∀ m rest, messages = .metadata m :: rest → m.apiVersion ≤ blobRelayApiVersion →
        ¬ σ.shared.manager.Live m.sessionId) → w' = σ.shared) ∧
      (status.code = .ok → ∃ m rest, messages = .metadata m :: rest ∧
        Accepted cfg m.sessionId (payload rest) blob σ.shared w') := by
  obtain ⟨code, hcode⟩ := decided_exists cfg.quota σ.shared.manager.currentSize
    σ.shared.manager.Live messages
  obtain ⟨status, blob, w', hput, rfl, hsame, hok⟩ :=
    put_decided hσ.world hσ.1 henv hmac hwrap hcode
  refine ⟨status, blob, w', hput, fun code' => ⟨fun h => ?_, fun h => h ▸ hcode⟩, hsame, hok⟩
  obtain ⟨status', blob', w'', hput', rfl, _⟩ := put_decided hσ.world hσ.1 henv hmac hwrap h
  cases hput.symm.trans hput'
  rfl

theorem calm_favourable : PutEnv.calm.Favourable := ⟨rfl, fun _ => rfl, rfl, rfl, rfl⟩

theorem smallConfig_yields : smallConfig.tagGenerator.Yields := fun _ => ⟨_, rfl⟩

/-- The second chunk is past the quota of ten; the message after it is not read. -/
theorem put_grammar_exceeds : ∃ status blob w',
    put smallConfig .calm [.metadata ⟨1, 1, none⟩, .chunk [1, 2, 3],
      .chunk [4, 5, 6, 7, 8, 9, 10, 11], .unset] (oneSession none).shared =
        some (.returned status blob, w') ∧
      status.code = .resourceExhausted := by
  have hzero : (oneSession none).shared.manager.currentSize = 0 := rfl
  have hlive : (oneSession none).shared.manager.Live 1 :=
    (BlobSessionManager.owner_of_map (t := none) (by decide)).live
  have hpass : Passes 10 0 [.chunk [1, 2, 3]] := by
    refine passes_cons.mpr ⟨[1, 2, 3], rfl, fun _ => by decide, ?_⟩
    intro before m after code heq
    simp at heq
  have hwrap : ∀ m rest, [PutStreamingRequest.metadata ⟨1, 1, none⟩, .chunk [1, 2, 3],
      .chunk [4, 5, 6, 7, 8, 9, 10, 11], .unset] = .metadata m :: rest →
      NoWrap smallConfig.quota (oneSession none).shared.manager.currentSize rest := by
    intro m rest heq before bytes after hrest hpass
    cases heq
    rcases before with _ | ⟨a, _ | ⟨b, _ | ⟨c, before⟩⟩⟩
    · cases hrest
      decide
    · cases hrest
      decide
    · cases hrest
    · simp at hrest
  obtain ⟨status, blob, w', hput, hcode, _⟩ := put_grammar (oneSession_reachable none)
    calm_favourable smallConfig_yields hwrap
  refine ⟨status, blob, w', hput, ((hcode .resourceExhausted).mp ?_).symm⟩
  show Decided 10 0 _ (.metadata ⟨1, 1, none⟩ :: ([.chunk [1, 2, 3]] ++
    .chunk [4, 5, 6, 7, 8, 9, 10, 11] :: [.unset])) .resourceExhausted
  exact .stopped (by decide) hlive hpass (.exceeds (by decide) (by decide))

end BlobRelay
