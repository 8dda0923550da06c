import BlobRelay.BulkRemoval

/-! # Deletions that throw (session_impl.cpp, session.cpp)

`delete_blob_file` gives the recorded size back before the file-system calls and erases
the entry after them, so a throw between leaves an entry whose size is no longer
reserved. A throw is harmless exactly when the entry records nothing. -/

namespace BlobRelay
open Std Foundation Foundation.FileStore Foundation.OrderedMap

/-- Whether a file-system call of the deletion throws; `remove` is made for a file that
exists. -/
def DeleteResult.throws : DeleteResult → Bool → Bool
  | .succeeds, _ => false
  | .existsThrows, _ => true
  | .removeThrows, present => present

namespace World

/-- The counter after `session_store_.remove`. -/
def released (cfg : Config) (size : ℕ) (w : World) : World :=
  {w with manager := {w.manager with
    currentSize := release cfg.quota size w.manager.currentSize}}

/-- No file-system call of the deletion throws while the entry records a size. -/
def ThrowsOnlyEmpty (w : World) (s b : ℕ) (d : DeleteResult) : Prop :=
  ∀ e ∈ w.entryOf s b, d.throws (w.files.present e.1) = true → e.2 = 0

instance (w : World) (s b : ℕ) (d : DeleteResult) : Decidable (w.ThrowsOnlyEmpty s b d) :=
  inferInstanceAs (Decidable (∀ e ∈ w.entryOf s b, _ → _))

/-- A deletion that throws leaves the entries and the counter. -/
def KeepsOnThrow (cfg : Config) (s b : ℕ) (d : DeleteResult) (w : World) : Prop :=
  ∀ x w', w.deleteBlobFile cfg s b d = some (.error x, w') →
    w'.manager.currentSize = w.manager.currentSize ∧ ∀ r c, w'.entryOf r c = w.entryOf r c

variable {cfg : Config} {s b : ℕ} {d : DeleteResult} {w w' : World}

/-! ### One deletion -/

theorem deleteBlobFile_throws {path : Path} {size : ℕ} (he : w.entryOf s b = some (path, size))
    (ht : d.throws (w.files.present path) = true) :
    ∃ x, deleteBlobFile cfg s b d w = some (.error x, w.released cfg size) := by
  obtain ⟨impl, hs, hb⟩ := entry_iff.mpr he
  rw [deleteBlobFile, hs, Option.map_some, hb]
  cases d with
  | succeeds => cases ht
  | existsThrows => exact ⟨_, rfl⟩
  | removeThrows =>
    have hp : w.files.present path = true := ht
    simp only [hp]
    exact ⟨_, rfl⟩

theorem deleteBlobFile_error {x : Exn} (h : deleteBlobFile cfg s b d w = some (.error x, w')) :
    ∃ path size, w.entryOf s b = some (path, size) ∧ d.throws (w.files.present path) = true ∧
      w' = w.released cfg size := by
  rcases deleteBlobFile_cases h with ⟨_, hx, _⟩ | ⟨_, hx, _⟩ | ⟨⟨path, size⟩, _, _, _, he, hw⟩
  · cases hx
  · cases hx
  · have he : w.entryOf s b = some (path, size) := entry_iff.mp he
    refine ⟨path, size, he, ?_, hw⟩
    obtain ⟨impl, hs, hb⟩ := entry_iff.mpr he
    rw [deleteBlobFile, hs, Option.map_some, hb] at h
    cases d with
    | succeeds =>
      cases hp : w.files.present path with
      | true =>
        simp only [hp] at h
        cases h
      | false =>
        simp only [hp] at h
        cases h
    | existsThrows => rfl
    | removeThrows =>
      cases hp : w.files.present path with
      | true => rfl
      | false =>
        simp only [hp] at h
        cases h

theorem entryOf_released (size r c : ℕ) : (w.released cfg size).entryOf r c = w.entryOf r c := rfl

theorem live_released (size r : ℕ) :
    (w.released cfg size).manager.Live r ↔ w.manager.Live r := Iff.rfl

theorem release_eq_iff {quota size cur : ℕ} (hq : quota ≠ 0) (hcur : cur < 2^64)
    (hsize : size < 2^64) : release quota size cur = cur ↔ size = 0 := by
  rw [release, if_pos hq, sub64]
  omega

/-- A deletion is exception safe exactly when no call of it throws while the entry
records a size. -/
theorem keepsOnThrow_iff (hq : cfg.quota ≠ 0) (hw : InWord w) :
    w.KeepsOnThrow cfg s b d ↔ w.ThrowsOnlyEmpty s b d := by
  have hsize : ∀ {path : Path} {size : ℕ}, w.entryOf s b = some (path, size) → size < 2^64 :=
    fun he => hw.recorded s b _ (entry_iff.mpr he)
  constructor
  · rintro hkeeps ⟨path, size⟩ he hthrows
    have he : w.entryOf s b = some (path, size) := he
    obtain ⟨x, hcall⟩ := @deleteBlobFile_throws cfg s b d w path size he hthrows
    exact (release_eq_iff hq hw.currentSize (hsize he)).mp (hkeeps x _ hcall).1
  · intro hempty x w' hcall
    obtain ⟨path, size, he, hthrows, rfl⟩ := deleteBlobFile_error hcall
    obtain rfl : size = 0 := hempty _ he hthrows
    exact ⟨(release_eq_iff hq hw.currentSize (by norm_num)).mpr rfl, fun r c => rfl⟩

/-- Whether or not it throws, such a deletion takes off the counter what is no longer
recorded. -/
theorem deleted_accounts {r : Except Exn Unit} (hq : cfg.quota ≠ 0) (hw : InWord w)
    (hle : w.manager.recordedTotal ≤ w.manager.currentSize) (hempty : w.ThrowsOnlyEmpty s b d)
    (h : deleteBlobFile cfg s b d w = some (r, w')) :
    ∃ size, w'.manager.currentSize + size = w.manager.currentSize ∧
      w'.manager.recordedTotal + size = w.manager.recordedTotal := by
  rcases deleteBlobFile_cases h with ⟨rfl, _⟩ | ⟨e, _, her⟩ | ⟨_, x, rfl, _⟩
  · exact ⟨0, rfl, rfl⟩
  · have hfits := her.found.size_le.trans hle
    refine ⟨e.2, ?_, her.recorded⟩
    rw [her.currentSize, release, if_pos hq, sub64_of_le hw.currentSize hfits]
    omega
  · obtain ⟨path, size, he, hthrows, rfl⟩ := deleteBlobFile_error h
    obtain rfl : size = 0 := hempty _ he hthrows
    refine ⟨0, ?_, rfl⟩
    exact (release_eq_iff hq hw.currentSize (by norm_num)).mpr rfl

end World

/-! ### Every run -/

/-- The moves of a run in which deletions throw only for entries that record nothing and
no reservation that is granted passes 2^64. -/
def SafeMove (cfg : Config) (σ : System) : SystemMove → Prop
  | .run i f => Headroom σ.shared ∧ ∀ t ∈ σ.threads[i]?,
      (∀ x ∈ t.deletes, σ.shared.ThrowsOnlyEmpty x.1 x.2 f.deletes) ∧
      ∀ x ∈ t.reserves, (reserve cfg.quota x.2.2 σ.shared.manager.currentSize).1 = true →
        σ.shared.manager.currentSize + x.2.2 < 2^64
  | _ => Headroom σ.shared

instance (cfg : Config) : ∀ σ l, Decidable (SafeMove cfg σ l)
  | σ, .run i f => inferInstanceAs (Decidable (Headroom σ.shared ∧ ∀ t ∈ σ.threads[i]?,
      (∀ x ∈ t.deletes, σ.shared.ThrowsOnlyEmpty x.1 x.2 f.deletes) ∧
      ∀ x ∈ t.reserves, _ → σ.shared.manager.currentSize + x.2.2 < 2^64))
  | σ, .env _ => inferInstanceAs (Decidable (Headroom σ.shared))
  | σ, .call _ => inferInstanceAs (Decidable (Headroom σ.shared))

/-- The blob whose recorded size, not zero, the move subtracts from the counter. -/
def sizesReleased (σ : System) : SystemMove → List ℕ
  | .run i _ =>
    match (σ.threads[i]?).bind Handler.deletes with
    | some (s, b) =>
      match σ.shared.entryOf s b with
      | some (_, size) => if size = 0 then [] else [b]
      | none => []
    | none => []
  | _ => []

structure Covered (w : World) : Prop where
  inWord : InWord w
  covers : w.manager.recordedTotal ≤ w.manager.currentSize

variable {cfg : Config} {f : Fault} {t : Handler} {w w' : World} {σ σ' : System} {l : SystemMove}

theorem SafeMove.room (h : SafeMove cfg σ l) : Headroom σ.shared := by
  cases l with
  | env a => exact h
  | call c => exact h
  | run i f => exact h.1

theorem reserve_exactly {quota n cur : ℕ} (hq : quota ≠ 0) (hfit : cur + n < 2^64)
    (h : (reserve quota n cur).1 = true) : (reserve quota n cur).2 = cur + n := by
  rw [(reserve_charges hq h).2, add64_of_lt hfit]

theorem Covered.reserved {s b n : ℕ} {r : Except Exn Bool} (h : Covered w) (hq : cfg.quota ≠ 0)
    (hfit : (reserve cfg.quota n w.manager.currentSize).1 = true →
      w.manager.currentSize + n < 2^64)
    (hres : w.reserveSessionStore cfg s b n = some (r, w')) : Covered w' := by
  have hcovers := h.covers
  refine ⟨h.inWord.reserved hres, ?_⟩
  rcases World.reserveSessionStore_cases hres with
    ⟨_, rfl, _⟩ | ⟨e, _, hch⟩ | ⟨_, _, _, hgranted, rfl⟩
  · exact hcovers
  · have hrec := hch.recorded
    have hadd : add64 e.2 n ≤ e.2 + n := Nat.mod_le _ _
    rw [hch.currentSize, reserve_exactly hq (hfit hch.reserved) hch.reserved]
    omega
  · show w.manager.recordedTotal ≤ (reserve cfg.quota n w.manager.currentSize).2
    rw [reserve_exactly hq (hfit hgranted) hgranted]
    omega

theorem Covered.deleted {s b : ℕ} {d : DeleteResult} {r : Except Exn Unit} (h : Covered w)
    (hq : cfg.quota ≠ 0) (hempty : w.ThrowsOnlyEmpty s b d)
    (hdel : w.deleteBlobFile cfg s b d = some (r, w')) : Covered w' := by
  have hcovers := h.covers
  obtain ⟨size, hcur, hrec⟩ := World.deleted_accounts hq h.inWord hcovers hempty hdel
  exact ⟨h.inWord.deleted hdel, by omega⟩

theorem Covered.kept (h : Covered w) (hk : KeepsAccounts w w') : Covered w' := by
  refine ⟨h.inWord.keepsAccounts hk, ?_⟩
  rw [hk.recorded, hk.currentSize]
  exact h.covers

theorem Covered.books (h : Covered w) (hq : cfg.quota ≠ 0)
    (hdeletes : ∀ x ∈ t.deletes, w.ThrowsOnlyEmpty x.1 x.2 f.deletes)
    (hreserves : ∀ x ∈ t.reserves, (reserve cfg.quota x.2.2 w.manager.currentSize).1 = true →
      w.manager.currentSize + x.2.2 < 2^64)
    (hb : Books cfg f t w w') : Covered w' := by
  have hword := h.inWord.books hb
  have hcovers := h.covers
  cases hb with
  | nothing _ _ _ hk => exact h.kept hk
  | reserves ht hres hm =>
    refine ⟨hword, ?_⟩
    rw [hm]
    exact (h.reserved hq (hreserves _ ht) hres).covers
  | deletes ht hdel => exact h.deleted hq (hdeletes _ ht) hdel
  | @erases s _ =>
    have hrec := BlobSessionManager.recordedTotal_dispose (m := w.manager) (s := s)
    refine ⟨hword, ?_⟩
    rw [BlobSessionManager.currentSize_dispose]
    dsimp only
    omega

theorem covered_step (hq : cfg.quota ≠ 0) (h : Covered σ.shared) (hok : SafeMove cfg σ l)
    (hst : systemStep cfg l σ = some σ') : Covered σ'.shared := by
  rcases systemStep_books hst with hk | ⟨i, f, t, rfl, ht, hb⟩
  · exact h.kept hk
  · obtain ⟨hdeletes, hreserves⟩ := hok.2 t ht
    exact h.books hq hdeletes hreserves hb

theorem covered_initial (h : Initial cfg σ) : Covered σ.shared := by
  refine ⟨inWord_constructed h.1, ?_⟩
  have htotal : BlobSessionManager.empty.recordedTotal = 0 :=
    total_empty BlobSessionImpl.recordedSize
  rw [h.1.manager, htotal]
  exact Nat.zero_le _

theorem Covered.release {s b : ℕ} {path : Path} {size : ℕ} (h : Covered w) (hq : cfg.quota ≠ 0)
    (he : w.entryOf s b = some (path, size)) :
    release cfg.quota size w.manager.currentSize + size = w.manager.currentSize := by
  have hsize : size ≤ w.manager.recordedTotal := (World.entry_iff.mpr he).size_le
  have hfits := hsize.trans h.covers
  rw [BlobRelay.release, if_pos hq, sub64_of_le h.inWord.currentSize hfits]
  omega

/-! ### Each size is given back once -/

theorem mem_sizesReleased {i b : ℕ} (h : b ∈ sizesReleased σ (.run i f)) :
    ∃ t s path size, σ.threads[i]? = some t ∧ t.deletes = some (s, b) ∧
      σ.shared.entryOf s b = some (path, size) ∧ size ≠ 0 := by
  dsimp only [sizesReleased] at h
  split at h
  · rename_i s c hdel
    obtain ⟨t, ht, htd⟩ := Option.bind_eq_some_iff.mp hdel
    split at h
    · rename_i path size he
      split at h
      · cases h
      · rename_i hsize
        obtain rfl := List.mem_singleton.mp h
        exact ⟨t, s, path, size, ht, htd, he, hsize⟩
    · cases h
  · cases h

theorem nodup_sizesReleased (σ : System) (l : SystemMove) : (sizesReleased σ l).Nodup := by
  unfold sizesReleased
  split
  · split
    · split
      · split
        · exact List.nodup_nil
        · exact List.nodup_singleton _
      · exact List.nodup_nil
    · exact List.nodup_nil
  · exact List.nodup_nil

/-- A deletion that subtracts a size does not throw, and the blob is gone after it. -/
theorem blobGone_sizesReleased {b : ℕ} (hσ : Inv cfg σ) (hok : SafeMove cfg σ l)
    (h : systemStep cfg l σ = some σ') (hb : b ∈ sizesReleased σ l) : BlobGone b σ' := by
  cases l with
  | env a => cases hb
  | call c => cases hb
  | run i f =>
    obtain ⟨t, s, path, size, ht, hdel, he, hsize⟩ := mem_sizesReleased hb
    have hsafe := (inv_step (hok.room.room _) hσ h).1
    obtain ⟨t₁, w₁, t', ht₁, hstep, rfl⟩ := Pool.step_run h
    obtain rfl := Option.some.inj (ht.symm.trans ht₁)
    obtain ⟨r, hcall⟩ := deletes_handlerStep hstep hdel
    have hentry := World.entry_iff.mpr he
    refine ⟨(hσ.shared.blobIds s b _ hentry).2.trans hsafe.evolves.blobId, fun r' e' he' => ?_⟩
    rcases World.deleteBlobFile_cases hcall with ⟨_, _, _, hnone⟩ | ⟨e, _, her⟩ | ⟨_, x, rfl, _⟩
    · exact hnone _ hentry
    · obtain ⟨hold, hne⟩ := (her.entry r' b e').mp he'
      exact hne ⟨hσ.shared.disjoint r' s b e' _ hold hentry, rfl⟩
    · obtain ⟨path', size', he₁, hthrows, _⟩ := World.deleteBlobFile_error hcall
      obtain ⟨_, rfl⟩ := Prod.mk.inj (Option.some.inj (he.symm.trans he₁))
      exact hsize ((hok.2 t ht).1 _ hdel _ he₁ hthrows)

theorem released_once {σ₀ : System} {ls : List SystemMove} (h₀ : Initial cfg σ₀)
    (hrun : Run (systemStep cfg) (SafeMove cfg) σ₀ ls σ) :
    (observe (systemStep cfg) sizesReleased ls σ₀).Nodup := by
  have hstep : ∀ σ l σ', Inv cfg σ → SafeMove cfg σ l → systemStep cfg l σ = some σ' → Inv cfg σ' :=
    fun σ l σ' hσ hok hst => (inv_step (hok.room.room _) hσ hst).2
  refine (hrun.carry (Inv cfg) hstep (inv_initial h₀)).observe_nodup BlobGone ?_ ?_ ?_ ?_
  · exact fun σ l _ _ _ => nodup_sizesReleased σ l
  · exact fun σ l σ' hok hst b hb => blobGone_sizesReleased hok.2 hok.1 hst hb
  · exact fun σ l σ' hok hst b hb =>
      blobGone_evolves hb (inv_step (hok.1.room.room _) hok.2 hst).1.evolves
  · intro σ l σ' _ _ b hgone hb
    cases l with
    | env a => cases hb
    | call c => cases hb
    | run i f =>
      obtain ⟨_, s, _, _, _, _, he, _⟩ := mem_sizesReleased hb
      exact hgone.2 s _ (World.entry_iff.mpr he)

/-! ### Calls that are retried -/

inductive BulkCall
  | remove (r : IdRange)
  | dispose

/-- The size recorded by the entry at which the loop over the ids throws. -/
def thrownSize (cfg : Config) (s : ℕ) (deletes : ℕ → DeleteResult) : ℕ → List ℕ → World → ℕ
  | _, [], _ => 0
  | k, b :: rest, w =>
    match w.deleteBlobFile cfg s b (deletes k) with
    | some (.ok (), w') => thrownSize cfg s deletes (k + 1) rest w'
    | some (.error _, _) => (w.entryOf s b).elim 0 Prod.snd
    | none => 0

namespace BulkCall

def Forward : BulkCall → Prop
  | .remove r => r.Forward
  | .dispose => True

def run (cfg : Config) (s : ℕ) (deletes : ℕ → DeleteResult) :
    BulkCall → World → Option (Except Exn Unit × World)
  | .remove r, w => BlobSession.remove cfg s deletes r w
  | .dispose, w => BlobSession.dispose cfg s deletes w

/-- The ids that the call would delete now. -/
def ids (s : ℕ) (w : World) : BulkCall → List ℕ
  | .remove r => r.ids
  | .dispose => (w.manager.blobSessions[s]?).elim [] BlobSessionImpl.entries

/-- What follows the deletions. -/
def ends (s : ℕ) (w : World) : BulkCall → World
  | .remove _ => w
  | .dispose => {w with manager := w.manager.dispose s}

/-- The same call over and over, each time throwing: the sizes recorded where it threw
and the state after the last. -/
def attempts (cfg : Config) (s : ℕ) (call : BulkCall) :
    List (ℕ → DeleteResult) → World → Option (List ℕ × World)
  | [], w => some ([], w)
  | deletes :: rest, w =>
    match call.run cfg s deletes w with
    | some (.error _, w') => (attempts cfg s call rest w').map fun r =>
        (thrownSize cfg s deletes 0 (call.ids s w) w :: r.1, r.2)
    | _ => none

end BulkCall

section Retry
variable {s : ℕ} {deletes : ℕ → DeleteResult} {call : BulkCall}

theorem World.released_without (n b : ℕ) :
    (w.released cfg n).without cfg s b = (w.without cfg s b).released cfg n := by
  cases he : w.entryOf s b with
  | none =>
    have he' : (w.released cfg n).entryOf s b = none := he
    rw [World.without_of_none he, World.without_of_none he']
  | some e =>
    have he' : (w.released cfg n).entryOf s b = some e := he
    rw [World.without_of_some he, World.without_of_some he', World.erased, World.erased,
      World.released, World.released]
    simp only [BlobSessionManager.updateSession]
    rw [World.release_comm]

theorem actEach_released (n : ℕ) (bs : List ℕ) :
    actEach (World.without cfg s) bs (w.released cfg n) =
      (actEach (World.without cfg s) bs w).released cfg n := by
  induction bs generalizing w with
  | nil => rfl
  | cons b bs ih => rw [actEach_cons, actEach_cons, World.released_without, ih]

theorem deleteEach_error {k : ℕ} {bs : List ℕ} {x : Exn}
    (h : deleteEach cfg s deletes k bs w = some (.error x, w')) :
    ∃ done, (∀ b ∈ done, b ∈ bs) ∧ w' = (actEach (World.without cfg s) done w).released cfg
      (thrownSize cfg s deletes k bs w) := by
  induction bs generalizing k w with
  | nil => cases h
  | cons b bs ih =>
    simp only [deleteEach] at h
    split at h
    · cases h
    · rename_i hd
      cases h
      obtain ⟨path, size, he, _, rfl⟩ := World.deleteBlobFile_error hd
      have hsize : thrownSize cfg s deletes k (b :: bs) w = size := by
        simp only [thrownSize, hd, he, Option.elim_some]
      exact ⟨[], fun _ hb => absurd hb List.not_mem_nil, by rw [hsize, actEach_nil]⟩
    · rename_i w₁ hd
      obtain ⟨done, hdone, hw⟩ := ih h
      have hsize : thrownSize cfg s deletes k (b :: bs) w =
          thrownSize cfg s deletes (k + 1) bs w₁ := by
        simp only [thrownSize, hd]
      refine ⟨b :: done, fun c hc => ?_, ?_⟩
      · rcases List.mem_cons.mp hc with rfl | hc
        · exact List.mem_cons_self
        · exact List.mem_cons_of_mem _ (hdone c hc)
      · rw [hsize, actEach_cons, ← World.deleteBlobFile_ok hd]
        exact hw

theorem thrownSize_lt (hw : InWord w) (k : ℕ) (bs : List ℕ) :
    thrownSize cfg s deletes k bs w < 2^64 := by
  induction bs generalizing k w with
  | nil => norm_num [thrownSize]
  | cons b bs ih =>
    simp only [thrownSize]
    split
    · rename_i hd
      exact ih (hw.deleted hd) (k + 1)
    · cases he : w.entryOf s b with
      | none => norm_num
      | some e => exact hw.recorded s b e (World.entry_iff.mpr he)
    · norm_num

namespace BulkCall

theorem mem_ids_dispose (b : ℕ) : b ∈ BulkCall.dispose.ids s w ↔ w.entryOf s b ≠ none := by
  rw [ids, World.entryOf]
  cases w.manager.blobSessions[s]? with
  | none => simp
  | some impl =>
    rw [Option.elim_some, Option.bind_some, Option.ne_none_iff_exists']
    exact mem_keys_iff _ _

theorem run_error {x : Exn} (hr : call.Forward) (hl : w.manager.Live s)
    (h : call.run cfg s deletes w = some (.error x, w')) :
    ∃ done, (∀ b, b ∈ call.ids s w ↔ b ∈ done ++ call.ids s w') ∧
      w' = (actEach (World.without cfg s) done w).released cfg
        (thrownSize cfg s deletes 0 (call.ids s w) w) := by
  cases call with
  | remove r =>
    rw [run, remove_forward hr hl] at h
    obtain ⟨done, hdone, hw⟩ := deleteEach_error h
    refine ⟨done, fun b => ?_, hw⟩
    rw [List.mem_append]
    exact ⟨Or.inr, fun hb => hb.elim (hdone b) id⟩
  | dispose =>
    obtain ⟨impl, hs⟩ := hl
    have hids : BulkCall.dispose.ids s w = impl.entries := by rw [ids, hs, Option.elim_some]
    simp only [run, BlobSession.dispose, BlobSessionManager.getSessionImpl_of_some hs] at h
    split at h
    · cases h
    · rename_i hdel
      cases h
      rw [← hids] at hdel
      obtain ⟨done, hdone, rfl⟩ := deleteEach_error hdel
      refine ⟨done, fun b => ?_, rfl⟩
      rw [List.mem_append, mem_ids_dispose, mem_ids_dispose, World.entryOf_released,
        entryOf_actEach]
      by_cases hb : b ∈ done
      · simp [hb, (mem_ids_dispose b).mp (hdone b hb)]
      · simp [hb]
    · cases h

theorem run_ok (hr : call.Forward) (hl : w.manager.Live s)
    (h : call.run cfg s deletes w = some (.ok (), w')) :
    w' = call.ends s (actEach (World.without cfg s) (call.ids s w) w) := by
  cases call with
  | remove r =>
    rw [run, remove_forward hr hl] at h
    exact deleteEach_ok h
  | dispose =>
    obtain ⟨impl, hs⟩ := hl
    simp only [run, BlobSession.dispose, BlobSessionManager.getSessionImpl_of_some hs] at h
    split at h
    · cases h
    · cases h
    · rename_i hdel
      cases h
      rw [ids, hs, Option.elim_some, ← deleteEach_ok hdel]
      rfl

theorem run_succeeds (hr : call.Forward) (hl : w.manager.Live s) :
    call.run cfg s (fun _ => .succeeds) w =
      some (.ok (), call.ends s (actEach (World.without cfg s) (call.ids s w) w)) := by
  cases call with
  | remove r => exact remove_succeeds hr hl
  | dispose =>
    obtain ⟨impl, hs⟩ := hl
    have hids : BulkCall.dispose.ids s w = impl.entries := by rw [ids, hs, Option.elim_some]
    rw [hids]
    simp only [run, BlobSession.dispose, BlobSessionManager.getSessionImpl_of_some hs,
      deleteEach_succeeds 0 impl.entries ⟨impl, hs⟩, ends]

theorem forward_of_ok (h : call.run cfg s deletes w = some (.ok (), w')) : call.Forward := by
  cases call with
  | dispose => trivial
  | remove r =>
    cases r with
    | list ids => trivial
    | vector ids first last =>
      by_contra hbackward
      have hlt : ¬ first ≤ last := hbackward
      simp only [run, BlobSession.remove, BlobSession.removeVector, if_neg hlt] at h
      split at h
      · cases h
      · cases h

theorem ends_released (n : ℕ) : call.ends s (w.released cfg n) =
    (call.ends s w).released cfg n := by
  cases call with
  | remove r => rfl
  | dispose =>
    simp only [ends, World.released, BlobSessionManager.dispose]
    cases w.manager.blobSessions[s]? with
    | none => rfl
    | some impl => rfl

theorem ends_currentSize : (call.ends s w).manager.currentSize = w.manager.currentSize := by
  cases call with
  | remove r => rfl
  | dispose => exact BlobSessionManager.currentSize_dispose

/-- What a call that threw has lost for the next is the size it was thrown at. -/
theorem retried {x : Exn} (hr : call.Forward) (hl : w.manager.Live s)
    (h : call.run cfg s deletes w = some (.error x, w')) :
    w'.manager.Live s ∧ actEach (World.without cfg s) (call.ids s w') w' =
      (actEach (World.without cfg s) (call.ids s w) w).released cfg
        (thrownSize cfg s deletes 0 (call.ids s w) w) := by
  obtain ⟨done, hids, hw⟩ := run_error hr hl h
  refine ⟨?_, ?_⟩
  · rw [hw, World.live_released, live_actEach]
    exact hl
  · calc actEach (World.without cfg s) (call.ids s w') w'
        = (actEach (World.without cfg s) (call.ids s w')
            (actEach (World.without cfg s) done w)).released cfg
              (thrownSize cfg s deletes 0 (call.ids s w) w) := by
          rw [← actEach_released, ← hw]
      _ = (actEach (World.without cfg s) (done ++ call.ids s w') w).released cfg
              (thrownSize cfg s deletes 0 (call.ids s w) w) := by rw [actEach_append]
      _ = (actEach (World.without cfg s) (call.ids s w) w).released cfg
              (thrownSize cfg s deletes 0 (call.ids s w) w) := by
          rw [(World.without_setAction cfg s).congr hids]

/-- However often the call throws first, it ends as if it had succeeded at once, with
the sizes it threw at subtracted once more. -/
theorem attempts_ok {ds : List (ℕ → DeleteResult)} {sizes : List ℕ} {w₁ w₂ : World}
    (hr : call.Forward) (hl : w.manager.Live s)
    (hatt : call.attempts cfg s ds w = some (sizes, w₁))
    (hok : call.run cfg s deletes w₁ = some (.ok (), w₂)) :
    w₂ = actEach (World.released cfg) sizes
      (call.ends s (actEach (World.without cfg s) (call.ids s w) w)) := by
  induction ds generalizing w sizes with
  | nil =>
    cases hatt
    exact run_ok hr hl hok
  | cons d ds ih =>
    simp only [attempts] at hatt
    split at hatt
    · rename_i w' hd
      obtain ⟨⟨rest, w₃⟩, hrest, he⟩ := Option.map_eq_some_iff.mp hatt
      cases he
      obtain ⟨hl', hnext⟩ := retried hr hl hd
      rw [ih hl' hrest, hnext, ends_released, actEach_cons]
    · cases hatt

end BulkCall

theorem InWord.released (h : InWord w) (n : ℕ) : InWord (w.released cfg n) :=
  ⟨release_lt h.currentSize, h.recorded⟩

theorem BulkCall.attempts_lt {ds : List (ℕ → DeleteResult)} {sizes : List ℕ} {w₁ : World}
    (hr : call.Forward) (hl : w.manager.Live s) (hw : InWord w)
    (hatt : call.attempts cfg s ds w = some (sizes, w₁)) : ∀ n ∈ sizes, n < 2^64 := by
  induction ds generalizing w sizes with
  | nil =>
    cases hatt
    exact fun n hn => absurd hn List.not_mem_nil
  | cons d ds ih =>
    simp only [BulkCall.attempts] at hatt
    split at hatt
    · rename_i w' hd
      obtain ⟨⟨rest, w₃⟩, hrest, he⟩ := Option.map_eq_some_iff.mp hatt
      cases he
      obtain ⟨done, _, hw'⟩ := run_error hr hl hd
      have hword : InWord w' := hw' ▸ (inWord_actEach hw hl done).released _
      intro n hn
      rcases List.mem_cons.mp hn with rfl | hn
      · exact thrownSize_lt hw 0 _
      · exact ih (retried hr hl hd).1 hword hrest n hn
    · cases hatt

theorem actEach_released_counter {sizes : List ℕ} (hq : cfg.quota ≠ 0)
    (hcur : w.manager.currentSize < 2^64) (hsizes : ∀ n ∈ sizes, n < 2^64) :
    ∃ c, c < 2^64 ∧ (c + sizes.sum) % 2^64 = w.manager.currentSize % 2^64 ∧
      actEach (World.released cfg) sizes w =
        {w with manager := {w.manager with currentSize := c}} := by
  induction sizes generalizing w with
  | nil => exact ⟨w.manager.currentSize, hcur, rfl, rfl⟩
  | cons n ns ih =>
    obtain ⟨c, hc, hsum, hworld⟩ := @ih (w.released cfg n) (release_lt hcur)
      fun m hm => hsizes m (List.mem_cons_of_mem n hm)
    have hrel := @release_add cfg.quota n w.manager.currentSize hq (hsizes n List.mem_cons_self)
    have hsum : (c + ns.sum) % 2^64 = release cfg.quota n w.manager.currentSize % 2^64 := hsum
    refine ⟨c, hc, ?_, hworld⟩
    rw [List.sum_cons]
    omega

theorem actEach_released_eq_iff {sizes : List ℕ} (hq : cfg.quota ≠ 0)
    (hcur : w.manager.currentSize < 2^64) (hsizes : ∀ n ∈ sizes, n < 2^64) :
    actEach (World.released cfg) sizes w = w ↔ 2^64 ∣ sizes.sum := by
  obtain ⟨c, hc, hsum, hworld⟩ := actEach_released_counter hq hcur hsizes
  rw [hworld]
  constructor
  · intro h
    have hsame : c = w.manager.currentSize := congrArg (fun w : World => w.manager.currentSize) h
    omega
  · intro hdvd
    have hsame : c = w.manager.currentSize := by omega
    rw [hsame]

end Retry

/-! ### All of it -/

/-- A deletion that throws leaves its session alone exactly when the entry records
nothing. In runs whose deletions throw at such entries only, each size is given back
once and never below zero. A call that is retried until it succeeds ends as one that
succeeds at once exactly when the sizes it threw at come to nothing. -/
theorem deletion_exceptions (hq : cfg.quota ≠ 0) :
    (∀ (σ : System) (s b : ℕ) (d : DeleteResult), Reachable cfg σ →
      (σ.shared.KeepsOnThrow cfg s b d ↔ σ.shared.ThrowsOnlyEmpty s b d)) ∧
    (∀ (σ₀ σ : System) (ls : List SystemMove), Initial cfg σ₀ →
      Run (systemStep cfg) (SafeMove cfg) σ₀ ls σ →
      (observe (systemStep cfg) sizesReleased ls σ₀).Nodup ∧
      ∀ s b path size, σ.shared.entryOf s b = some (path, size) →
        release cfg.quota size σ.shared.manager.currentSize + size =
          σ.shared.manager.currentSize) ∧
    ∀ (σ : System) (s : ℕ) (call : BulkCall) (ds : List (ℕ → DeleteResult))
      (deletes : ℕ → DeleteResult) (sizes : List ℕ) (w₁ w₂ : World), Reachable cfg σ →
      σ.shared.manager.Live s → call.attempts cfg s ds σ.shared = some (sizes, w₁) →
      call.run cfg s deletes w₁ = some (.ok (), w₂) →
      ∃ w₀, call.run cfg s (fun _ => .succeeds) σ.shared = some (.ok (), w₀) ∧
        (w₂ = w₀ ↔ 2^64 ∣ sizes.sum) := by
  refine ⟨fun σ s b d hσ => World.keepsOnThrow_iff hq hσ.inWord, fun σ₀ σ ls h₀ hrun => ?_, ?_⟩
  · have hcovered : Covered σ.shared :=
      hrun.invariant (fun σ => Covered σ.shared)
        (fun _ _ _ h hok hst => covered_step hq h hok hst) (covered_initial h₀)
    exact ⟨released_once h₀ hrun, fun s b path size he => hcovered.release hq he⟩
  · intro σ s call ds deletes sizes w₁ w₂ hσ hl hatt hok
    have hr := BulkCall.forward_of_ok hok
    refine ⟨_, BulkCall.run_succeeds hr hl, ?_⟩
    rw [BulkCall.attempts_ok hr hl hatt hok]
    refine actEach_released_eq_iff hq ?_ (BulkCall.attempts_lt hr hl hσ.inWord hatt)
    rw [BulkCall.ends_currentSize]
    exact (inWord_actEach hσ.inWord hl _).currentSize

theorem deletion_gives_back_twice : ¬ ∀ (cfg : Config) (σ : System) (s b : ℕ) (d : DeleteResult),
    Reachable cfg σ → cfg.quota ≠ 0 → σ.shared.KeepsOnThrow cfg s b d := by
  intro h
  obtain ⟨σ, hσ, hend⟩ := (Option.any_eq_true
    (fun σ : System => decide (Headroom σ.shared) &&
      (σ.shared.deleteBlobFile smallConfig 1 1 .existsThrows).any fun r =>
        !r.1.isOk && !decide (r.2.manager.currentSize = σ.shared.manager.currentSize)) _).mp
    (by decide : (runs smallConfig oneUpload smallStart).any _ = true)
  simp only [Bool.and_eq_true, decide_eq_true_eq] at hend
  obtain ⟨hroom, hcall⟩ := hend
  obtain ⟨⟨r, w'⟩, hdel, hmoved⟩ := (Option.any_eq_true _ _).mp hcall
  simp only [Bool.and_eq_true, Bool.not_eq_true', decide_eq_false_iff_not] at hmoved
  cases r with
  | ok u => cases hmoved.1
  | error x =>
    have hreach : Reachable smallConfig σ := .of_runs smallStart_initial hσ hroom
    exact hmoved.2 (h smallConfig σ 1 1 .existsThrows hreach (by decide) x w' hdel).1

def emptyAndFull : List SystemMove :=
  [.env (.createSession none), .call (.put [.metadata ⟨1, 1, none⟩]),
    .run 0 .none, .run 0 .none, .run 0 .none, .run 0 .none, .run 0 .none, .run 0 .none,
    .call (.put [.metadata ⟨1, 1, none⟩, .chunk [1, 2, 3]]), .run 1 .none, .run 1 .none,
    .run 1 .none, .run 1 .none, .run 1 .none, .run 1 .none, .run 1 .none]

/-- Both are removed; the deletion of the empty one throws, and the call is made again. -/
def retriedRemoval : List SystemMove :=
  emptyAndFull ++ [.call (.remove 1 [1, 2]), .run 2 .none, .run 2 .existsThrows,
    .call (.remove 1 [1, 2]), .run 3 .none, .run 3 .none, .run 3 .none, .run 3 .none]

theorem deletion_exceptions_retried :
    (∃ σ, runs smallConfig emptyAndFull smallStart = some σ ∧
      σ.shared.KeepsOnThrow smallConfig 1 1 .existsThrows ∧
      ∃ w₁ w₂, (BulkCall.remove (.list [1, 2])).attempts smallConfig 1 [fun _ => .existsThrows]
          σ.shared = some ([0], w₁) ∧
        (BulkCall.remove (.list [1, 2])).run smallConfig 1 (fun _ => .succeeds) w₁ =
          some (.ok (), w₂) ∧
        (BulkCall.remove (.list [1, 2])).run smallConfig 1 (fun _ => .succeeds) σ.shared =
          some (.ok (), w₂)) ∧
    ∃ σ, Run (systemStep smallConfig) (SafeMove smallConfig) smallStart retriedRemoval σ ∧
      (observe (systemStep smallConfig) sizesReleased retriedRemoval smallStart).Nodup := by
  obtain ⟨hkeeps, honce, hretry⟩ := @deletion_exceptions smallConfig (by decide)
  refine ⟨?_, ?_⟩
  · obtain ⟨σ, hσ, hend⟩ := (Option.any_eq_true
      (fun σ : System => decide (Headroom σ.shared) && σ.shared.manager.blobSessions[1]?.isSome &&
        decide (σ.shared.ThrowsOnlyEmpty 1 1 .existsThrows) &&
        ((BulkCall.remove (.list [1, 2])).attempts smallConfig 1 [fun _ => .existsThrows]
          σ.shared).any fun r : List ℕ × World => decide (r.1 = [0]) &&
            ((BulkCall.remove (.list [1, 2])).run smallConfig 1 (fun _ => .succeeds) r.2).any
              fun r : Except Exn Unit × World => r.1.isOk) _).mp
      (by decide : (runs smallConfig emptyAndFull smallStart).any _ = true)
    simp only [Bool.and_eq_true, decide_eq_true_eq] at hend
    obtain ⟨⟨⟨hroom, hlive⟩, hempty⟩, hatt⟩ := hend
    obtain ⟨⟨sizes, w₁⟩, hatt, hrest⟩ := (Option.any_eq_true _ _).mp hatt
    simp only [Bool.and_eq_true, decide_eq_true_eq] at hrest
    obtain ⟨rfl, hok⟩ := hrest
    obtain ⟨⟨r, w₂⟩, hok, hisOk⟩ := (Option.any_eq_true _ _).mp hok
    have hreach : Reachable smallConfig σ := .of_runs smallStart_initial hσ hroom
    cases r with
    | error x => cases hisOk
    | ok u =>
      obtain ⟨w₀, hclean, hsame⟩ := hretry σ 1 (.remove (.list [1, 2])) _ _ _ w₁ w₂ hreach
        (Option.isSome_iff_exists.mp hlive) hatt hok
      obtain rfl := hsame.mpr (by decide)
      exact ⟨σ, hσ, (hkeeps σ 1 1 _ hreach).mpr hempty, w₁, w₂, hatt, hok, hclean⟩
  · obtain ⟨σ, hσ⟩ := Option.isSome_iff_exists.mp
      (by decide : (exec (systemStep smallConfig) (fun σ l => decide (SafeMove smallConfig σ l))
        retriedRemoval smallStart).isSome = true)
    have hrun : Run (systemStep smallConfig) (SafeMove smallConfig) smallStart retriedRemoval σ :=
      .of_exec hσ fun _ _ _ hc => of_decide_eq_true hc
    exact ⟨σ, hrun, (honce smallStart σ retriedRemoval smallStart_initial hrun).1⟩

end BlobRelay
