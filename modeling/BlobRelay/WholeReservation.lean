import BlobRelay.ExceptionSafety

/-! # Reservations that are charged and not recorded (session_impl.cpp, streaming_service.cpp)

`reserve_session_store` charges the counter before `blobs_.at` looks the id up. When
`remove` has erased the entry of an upload in progress the look-up throws, `Put` answers
NOT_FOUND, and what was charged is recorded nowhere and given back by nobody. -/

namespace BlobRelay
open Foundation Foundation.FileStore

namespace World

/-- Charged and recorded, or neither. -/
inductive Booked (s b n : ℕ) (w : World) : Except Exn Bool → World → Prop
  | whole {path : Path} {size : ℕ} {w' : World} : w.entryOf s b = some (path, size) →
      w'.manager.currentSize = w.manager.currentSize + n →
      (∀ r c, w'.entryOf r c = if r = s ∧ c = b then some (path, size + n) else w.entryOf r c) →
      Booked s b n w (.ok true) w'
  | refused {w' : World} : w'.manager.currentSize = w.manager.currentSize →
      (∀ r c, w'.entryOf r c = w.entryOf r c) → Booked s b n w (.ok false) w'
  | thrown {x : Exn} {w' : World} : w'.manager.currentSize = w.manager.currentSize →
      (∀ r c, w'.entryOf r c = w.entryOf r c) → Booked s b n w (.error x) w'

def AllOrNothing (cfg : Config) (s b n : ℕ) (w : World) : Prop :=
  ∀ r w', w.reserveSessionStore cfg s b n = some (r, w') → Booked s b n w r w'

/-- The quota refuses the size; or there is an entry and neither the counter nor the
entry's size passes 2^64; or there is no entry and the size is zero. -/
def ReservesWhole (cfg : Config) (s b n : ℕ) (w : World) : Prop :=
  cfg.quota < add64 w.manager.currentSize n ∨
    (∀ e ∈ w.entryOf s b, w.manager.currentSize + n < 2^64 ∧ e.2 + n < 2^64) ∧
      (w.entryOf s b = none → n = 0)

instance (cfg : Config) (s b n : ℕ) (w : World) : Decidable (w.ReservesWhole cfg s b n) :=
  inferInstanceAs (Decidable (_ ∨ (∀ e ∈ w.entryOf s b, _) ∧ (_ → _)))

end World

/-! ### One reservation -/

section One
variable {cfg : Config} {s b n : ℕ} {w w' : World}

theorem entryOf_charged {size : ℕ} {e : Path × ℕ} (h : World.Charges cfg s b size e w w')
    (r c : ℕ) : w'.entryOf r c =
      if r = s ∧ c = b then some (e.1, add64 e.2 size) else w.entryOf r c := by
  refine Option.ext fun e' => ?_
  rw [← World.entry_iff, h.entry r c e', World.entry_iff]
  split
  · rw [Option.some.injEq, eq_comm]
  · rfl

theorem entryOf_none (h : ∀ e, ¬ w.manager.Entry s b e) : w.entryOf s b = none :=
  Option.eq_none_iff_forall_ne_some.mpr fun e he => h e (World.entry_iff.mpr he)

theorem booked_of_reservesWhole {r : Except Exn Bool} (hq : cfg.quota ≠ 0)
    (hcur : w.manager.currentSize < 2^64) (hwhole : w.ReservesWhole cfg s b n)
    (h : w.reserveSessionStore cfg s b n = some (r, w')) : World.Booked s b n w r w' := by
  rcases World.reserveSessionStore_cases h with
    ⟨rfl, rfl, _⟩ | ⟨e, rfl, hch⟩ | ⟨rfl, _, hnone, hgranted, rfl⟩
  · exact .refused rfl fun _ _ => rfl
  · have he := World.entry_iff.mp hch.found
    rcases hwhole with hrefused | ⟨hfits, _⟩
    · exact absurd hrefused (reserve_charges hq hch.reserved).1
    · obtain ⟨hcounter, hsize⟩ := hfits e he
      refine .whole he ?_ fun r c => ?_
      · rw [hch.currentSize, (reserve_charges hq hch.reserved).2, add64_of_lt hcounter]
      · rw [entryOf_charged hch, add64_of_lt hsize]
  · rcases hwhole with hrefused | ⟨_, hzero⟩
    · exact absurd hrefused (reserve_charges hq hgranted).1
    · refine .thrown ?_ fun _ _ => rfl
      show (reserve cfg.quota n w.manager.currentSize).2 = w.manager.currentSize
      rw [(reserve_charges hq hgranted).2, hzero (entryOf_none hnone)]
      exact add64_of_lt hcur

theorem charges_booked {e : Path × ℕ} (hch : World.Charges cfg s b n e w w')
    (h : World.Booked s b n w (.ok true) w') :
    w'.manager.currentSize = w.manager.currentSize + n ∧ add64 e.2 n = e.2 + n := by
  have he := World.entry_iff.mp hch.found
  cases h with
  | whole he' hcounter hentry =>
    obtain rfl := Option.some.inj (he.symm.trans he')
    have hsize := (entryOf_charged hch s b).symm.trans (hentry s b)
    rw [if_pos ⟨rfl, rfl⟩, if_pos ⟨rfl, rfl⟩] at hsize
    exact ⟨hcounter, congrArg Prod.snd (Option.some.inj hsize)⟩

theorem allOrNothing_iff (hq : cfg.quota ≠ 0) (hw : InWord w) (hl : w.manager.Live s)
    (hn : n < 2^64) : w.AllOrNothing cfg s b n ↔ w.ReservesWhole cfg s b n := by
  constructor
  · intro hall
    obtain ⟨r, w', h⟩ := World.reserveSessionStore_of_live cfg hl b n
    have hbooked := hall r w' h
    rcases World.reserveSessionStore_cases h with
      ⟨rfl, rfl, _, hrefused⟩ | ⟨e, rfl, hch⟩ | ⟨rfl, _, hnone, hgranted, rfl⟩
    · exact Or.inl ((reserve_refused_iff hq).mp hrefused)
    · have he := World.entry_iff.mp hch.found
      obtain ⟨hcounter, hsize⟩ := charges_booked hch hbooked
      rw [hch.currentSize, (reserve_charges hq hch.reserved).2] at hcounter
      refine Or.inr ⟨fun e₁ he₁ => ?_, fun hnone => ?_⟩
      · obtain rfl := Option.some.inj (he.symm.trans he₁)
        exact ⟨hcounter ▸ add64_lt _ _, hsize ▸ add64_lt _ _⟩
      · rw [he] at hnone
        cases hnone
    · cases hbooked with
      | thrown hcounter _ =>
        have hcounter : (reserve cfg.quota n w.manager.currentSize).2 = w.manager.currentSize :=
          hcounter
        rw [(reserve_charges hq hgranted).2] at hcounter
        have hlt := hw.currentSize
        refine Or.inr ⟨fun e he => ?_, fun _ => ?_⟩
        · exact absurd (World.entry_iff.mpr he) (hnone e)
        · unfold add64 at hcounter
          omega
  · intro hwhole r w' h
    exact booked_of_reservesWhole hq hw.currentSize hwhole h

end One

/-! ### Every run -/

/-- The moves of a run whose reservations are charged and recorded together, and whose
deletions throw only for entries that record nothing. -/
def WholeMove (cfg : Config) (σ : System) : SystemMove → Prop
  | .run i f => ∀ t ∈ σ.threads[i]?,
      (∀ x ∈ t.reserves, σ.shared.ReservesWhole cfg x.1 x.2.1 x.2.2) ∧
      ∀ x ∈ t.deletes, σ.shared.ThrowsOnlyEmpty x.1 x.2 f.deletes
  | _ => True

instance (cfg : Config) : ∀ σ l, Decidable (WholeMove cfg σ l)
  | σ, .run i f => inferInstanceAs (Decidable (∀ t ∈ σ.threads[i]?,
      (∀ x ∈ t.reserves, σ.shared.ReservesWhole cfg x.1 x.2.1 x.2.2) ∧
      ∀ x ∈ t.deletes, σ.shared.ThrowsOnlyEmpty x.1 x.2 f.deletes))
  | _, .env _ => isTrue trivial
  | _, .call _ => isTrue trivial

structure Balance (w : World) : Prop where
  inWord : InWord w
  balanced : w.manager.currentSize = w.manager.recordedTotal

variable {cfg : Config} {f : Fault} {t : Handler} {s b n : ℕ} {w w' : World} {σ σ' : System}
  {l : SystemMove}

theorem Balance.kept (h : Balance w) (hk : KeepsAccounts w w') : Balance w' := by
  refine ⟨h.inWord.keepsAccounts hk, ?_⟩
  rw [hk.recorded, hk.currentSize]
  exact h.balanced

theorem Balance.reserved {r : Except Exn Bool} (h : Balance w) (hq : cfg.quota ≠ 0)
    (hwhole : w.ReservesWhole cfg s b n) (hres : w.reserveSessionStore cfg s b n = some (r, w')) :
    Balance w' := by
  refine ⟨h.inWord.reserved hres, ?_⟩
  have hbalanced := h.balanced
  have hbooked := booked_of_reservesWhole hq h.inWord.currentSize hwhole hres
  rcases World.reserveSessionStore_cases hres with
    ⟨_, rfl, _⟩ | ⟨e, rfl, hch⟩ | ⟨rfl, _, _, _, rfl⟩
  · exact hbalanced
  · have hrec := hch.recorded
    obtain ⟨hcounter, hsize⟩ := charges_booked hch hbooked
    omega
  · cases hbooked with
    | thrown hcounter _ => exact hcounter.trans hbalanced

theorem Balance.deleted {d : DeleteResult} {r : Except Exn Unit} (h : Balance w)
    (hq : cfg.quota ≠ 0) (hempty : w.ThrowsOnlyEmpty s b d)
    (hdel : w.deleteBlobFile cfg s b d = some (r, w')) : Balance w' := by
  have hbalanced := h.balanced
  obtain ⟨size, hcur, hrec⟩ := World.deleted_accounts hq h.inWord hbalanced.ge hempty hdel
  exact ⟨h.inWord.deleted hdel, by omega⟩

theorem Balance.books (h : Balance w) (hq : cfg.quota ≠ 0)
    (hreserves : ∀ x ∈ t.reserves, w.ReservesWhole cfg x.1 x.2.1 x.2.2)
    (hdeletes : ∀ x ∈ t.deletes, w.ThrowsOnlyEmpty x.1 x.2 f.deletes) (herases : t.erases = none)
    (hb : Books cfg f t w w') : Balance w' := by
  cases hb with
  | nothing _ _ _ hk => exact h.kept hk
  | reserves ht hres hm =>
    have hw := h.reserved hq (hreserves _ ht) hres
    refine ⟨hw.inWord.of_manager hm, ?_⟩
    rw [hm]
    exact hw.balanced
  | deletes ht hdel => exact h.deleted hq (hdeletes _ ht) hdel
  | erases ht =>
    rw [herases] at ht
    cases ht

theorem balance_step (hq : cfg.quota ≠ 0) (h : Balance σ.shared) (hok : WholeMove cfg σ l)
    (hkept : sessionsDisposed σ l = []) (hst : systemStep cfg l σ = some σ') :
    Balance σ'.shared := by
  rcases systemStep_books hst with hk | ⟨i, f, t, rfl, ht, hb⟩
  · exact h.kept hk
  · obtain ⟨hreserves, hdeletes⟩ := hok t ht
    refine h.books hq hreserves hdeletes ?_ hb
    simpa only [sessionsDisposed, ht, Option.bind_some, Option.toList_eq_nil_iff] using hkept

theorem balance_initial (h : Initial cfg σ) : Balance σ.shared := by
  refine ⟨inWord_constructed h.1, ?_⟩
  have hcovers := (covered_initial h).covers
  have hzero : σ.shared.manager.currentSize = 0 := by
    rw [h.1.manager]
    rfl
  omega

/-- A reservation is charged and recorded together, or neither, exactly when the quota
refuses it, or the entry is there and nothing wraps, or nothing is reserved. In every run
of such reservations that disposes no session, the counter is the sum of what is recorded,
also while handlers are in progress. -/
theorem reservation_whole_iff (hq : cfg.quota ≠ 0) :
    (∀ (σ : System) (s b n : ℕ), Reachable cfg σ → σ.shared.manager.Live s → n < 2^64 →
      (σ.shared.AllOrNothing cfg s b n ↔ σ.shared.ReservesWhole cfg s b n)) ∧
    ∀ (σ₀ σ : System) (ls : List SystemMove), Initial cfg σ₀ →
      Run (systemStep cfg) (fun σ l => WholeMove cfg σ l ∧ sessionsDisposed σ l = []) σ₀ ls σ →
      σ.shared.manager.currentSize = σ.shared.manager.recordedTotal := by
  refine ⟨fun σ s b n hσ hl hn => allOrNothing_iff hq hσ.inWord hl hn, fun σ₀ σ ls h₀ hrun => ?_⟩
  have hbalance : Balance σ.shared :=
    hrun.invariant (fun σ => Balance σ.shared)
      (fun _ _ _ h hok hst => balance_step hq h hok.1 hok.2 hst) (balance_initial h₀)
  exact hbalance.balanced

/-- `remove` takes the id of an upload that has opened its file and waits for a chunk. -/
def removedDuringUpload : List SystemMove :=
  [.env (.createSession none), .call (.put [.metadata ⟨1, 1, none⟩, .chunk [1, 2, 3]]),
    .run 0 .none, .run 0 .none, .run 0 .none, .call (.remove 1 [1]), .run 1 .none, .run 1 .none,
    .run 1 .none]

theorem reservation_lost : ¬ ∀ (cfg : Config) (σ : System) (s b n : ℕ), Reachable cfg σ →
    cfg.quota ≠ 0 → σ.shared.manager.Live s → n < 2^64 → σ.shared.AllOrNothing cfg s b n := by
  intro h
  obtain ⟨σ, hσ, hend⟩ := (Option.any_eq_true
    (fun σ : System => decide (Headroom σ.shared) && σ.shared.manager.blobSessions[1]?.isSome &&
      decide (σ.threads[0]?.bind Handler.reserves = some (1, 1, 3)) &&
      (σ.shared.reserveSessionStore smallConfig 1 1 3).any fun r : Except Exn Bool × World =>
        !r.1.isOk && !decide (r.2.manager.currentSize = σ.shared.manager.currentSize)) _).mp
    (by decide : (runs smallConfig removedDuringUpload smallStart).any _ = true)
  simp only [Bool.and_eq_true, decide_eq_true_eq] at hend
  obtain ⟨⟨⟨hroom, hlive⟩, _⟩, hcall⟩ := hend
  obtain ⟨⟨r, w'⟩, hres, hmoved⟩ := (Option.any_eq_true _ _).mp hcall
  simp only [Bool.and_eq_true, Bool.not_eq_true', decide_eq_false_iff_not] at hmoved
  have hbooked := h smallConfig σ 1 1 3 (.of_runs smallStart_initial hσ hroom) (by decide)
    (Option.isSome_iff_exists.mp hlive) (by norm_num) r w' hres
  cases hbooked with
  | whole => cases hmoved.1
  | refused => cases hmoved.1
  | thrown hsame _ => exact hmoved.2 hsame

/-- Two uploads at once; the first is removed before the second has its chunk. -/
def removedAfterUpload : List SystemMove :=
  oneUpload ++ [.call (.put [.metadata ⟨1, 1, none⟩, .chunk [4, 5]]), .run 1 .none, .run 1 .none,
    .run 1 .none, .call (.remove 1 [1]), .run 2 .none, .run 2 .none, .run 1 .none]

theorem reservation_whole_iff_removed : ∃ σ, Reachable smallConfig σ ∧
    σ.shared.AllOrNothing smallConfig 1 2 4 ∧ σ.shared.manager.currentSize = 2 ∧
    σ.shared.manager.recordedTotal = 2 := by
  obtain ⟨hone, hruns⟩ := @reservation_whole_iff smallConfig (by decide)
  obtain ⟨σ, hσ, hend⟩ := (Option.any_eq_true
    (fun σ : System => decide (Headroom σ.shared) && σ.shared.manager.blobSessions[1]?.isSome &&
      decide (σ.shared.ReservesWhole smallConfig 1 2 4) &&
      decide (σ.shared.manager.currentSize = 2)) _).mp
    (by decide : (exec (systemStep smallConfig) (fun σ l => decide (Headroom σ.shared) &&
      decide (WholeMove smallConfig σ l ∧ sessionsDisposed σ l = [])) removedAfterUpload
        smallStart).any _ = true)
  simp only [Bool.and_eq_true, decide_eq_true_eq] at hend
  obtain ⟨⟨⟨hroom, hlive⟩, hwhole⟩, hcur⟩ := hend
  have hreach : Reachable smallConfig σ := by
    refine ⟨hroom, smallStart, removedAfterUpload, smallStart_initial, .of_exec hσ ?_⟩
    exact fun _ _ _ hc => of_decide_eq_true (Bool.and_eq_true_iff.mp hc).1
  have hbalance := hruns smallStart σ removedAfterUpload smallStart_initial
    (.of_exec hσ fun _ _ _ hc => of_decide_eq_true (Bool.and_eq_true_iff.mp hc).2)
  have hl := Option.isSome_iff_exists.mp hlive
  exact ⟨σ, hreach, (hone σ 1 2 4 hreach hl (by norm_num)).mpr hwhole, hcur,
    hbalance.symm.trans hcur⟩

end BlobRelay
