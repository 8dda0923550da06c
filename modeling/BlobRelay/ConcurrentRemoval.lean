import BlobRelay.Foundation.WorkList
import BlobRelay.Removal
import BlobRelay.ServedUploads

/-! # Concurrent removals (session.cpp, session_impl.cpp)

Calls of `remove` on any sessions run beside each other and beside downloads, their ids
overlapping as they may. Whatever the schedule, the service comes to where the same
removals one after the other bring it. -/

namespace BlobRelay
open Std Foundation Foundation.FileStore Foundation.OrderedMap

/-- `remove` one call after the other, up to the first that throws. -/
def removeLists (cfg : Config) : List (ℕ × List ℕ) → World → Option (Except Exn Unit × World)
  | [], w => some (.ok (), w)
  | c :: rest, w =>
    match BlobSession.removeList cfg c.1 (fun _ => .succeeds) c.2 w with
    | some (.ok (), w) => removeLists cfg rest w
    | result => result

/-- The session and the id of everything that the calls of `remove` in a run ask for. -/
def Call.removals : Call → List (ℕ × ℕ)
  | .remove s ids => ids.map fun b => (s, b)
  | _ => []

def removals (ls : List SystemMove) : List (ℕ × ℕ) :=
  ls.flatMap fun l => match l with
    | .call c => c.removals
    | _ => []

def Handler.threw : Handler → Bool
  | .remove _ _ (.finished (.error _)) => true
  | _ => false

/-- The moves of a service that is only asked to remove and to download, in which no
call of `remove` throws. -/
def RemovesQuietly (cfg : Config) (σ : System) : SystemMove → Prop
  | .env _ => False
  | .call (.remove _ _) => True
  | .call (.get _) => True
  | .call _ => False
  | .run i f => ((σ.threads[i]?).bind fun t => handlerStep cfg f σ.shared t).all
      (fun r => !r.2.threw) = true

instance (cfg : Config) (σ : System) (l : SystemMove) : Decidable (RemovesQuietly cfg σ l) :=
  match l with
  | .env _ => inferInstanceAs (Decidable False)
  | .call (.remove _ _) => inferInstanceAs (Decidable True)
  | .call (.get _) => inferInstanceAs (Decidable True)
  | .call (.put _) => inferInstanceAs (Decidable False)
  | .call (.dispose _) => inferInstanceAs (Decidable False)
  | .run _ _ => inferInstanceAs (Decidable (_ = true))

variable {cfg : Config} {f : Fault} {w w' : World} {t t' : Handler}

/-! ### Deletions in different sessions -/

namespace World

theorem erased_comm_other {s r b c : ℕ} (hne : s ≠ r) (path path' : Path) (m n : ℕ) :
    (w.erased cfg s b path m).erased cfg r c path' n =
      (w.erased cfg r c path' n).erased cfg s b path m := by
  have hsessions : ((w.erased cfg s b path m).erased cfg r c path' n).manager.blobSessions =
      ((w.erased cfg r c path' n).erased cfg s b path m).manager.blobSessions := by
    refine ExtTreeMap.ext_getElem? fun k => ?_
    simp only [blobSessions_erased]
    by_cases hs : s = k
    · have hr : ¬ r = k := fun h => hne (hs.trans h.symm)
      simp only [if_pos hs, if_neg hr]
    · simp only [if_neg hs]
  have hsize : ((w.erased cfg s b path m).erased cfg r c path' n).manager.currentSize =
      ((w.erased cfg r c path' n).erased cfg s b path m).manager.currentSize :=
    release_comm cfg.quota w.manager.currentSize m n
  have hfiles : ((w.erased cfg s b path m).erased cfg r c path' n).files =
      ((w.erased cfg r c path' n).erased cfg s b path m).files :=
    w.files.unlink_comm path path'
  unfold erased at hsessions hsize hfiles ⊢
  simp only [BlobSessionManager.updateSession] at hsessions hsize hfiles ⊢
  rw [hsessions, hsize, hfiles]

/-- `without`, by session and id. -/
def withoutPair (cfg : Config) (p : ℕ × ℕ) (w : World) : World := w.without cfg p.1 p.2

theorem without_comm_other {s r b c : ℕ} (hne : s ≠ r) :
    (w.without cfg s b).without cfg r c = (w.without cfg r c).without cfg s b := by
  have hr := @entryOf_without cfg s b w r c
  have hs := @entryOf_without cfg r c w s b
  rw [if_neg (fun h => hne h.1.symm)] at hr
  rw [if_neg (fun h => hne h.1)] at hs
  cases hws : w.entryOf s b with
  | none => rw [without_of_none (hs.trans hws), without_of_none hws]
  | some e =>
    cases hwr : w.entryOf r c with
    | none => rw [without_of_none (hr.trans hwr), without_of_none hwr, without_of_some hws]
    | some e' =>
      rw [without_of_some (hs.trans hws), without_of_some (hr.trans hwr), without_of_some hws,
        without_of_some hwr, erased_comm_other hne]

theorem withoutPair_setAction (cfg : Config) : SetAction (withoutPair cfg) where
  commute p q w := by
    by_cases hne : p.1 = q.1
    · show (w.without cfg q.1 q.2).without cfg p.1 p.2 = (w.without cfg p.1 p.2).without cfg q.1 q.2
      rw [hne]
      exact (without_setAction cfg q.1).commute p.2 q.2 w
    · exact (without_comm_other hne).symm
  twice p w := (without_setAction cfg p.1).twice p.2 w

theorem actEach_withoutPair (s : ℕ) (ids : List ℕ) (w : World) :
    actEach (withoutPair cfg) (ids.map fun b => (s, b)) w = actEach (without cfg s) ids w := by
  induction ids generalizing w with
  | nil => rfl
  | cons b ids ih =>
    rw [List.map_cons, actEach_cons, actEach_cons, ih]
    rfl

end World

theorem live_withoutPairs (ps : List (ℕ × ℕ)) (s : ℕ) :
    (actEach (World.withoutPair cfg) ps w).manager.Live s ↔ w.manager.Live s := by
  induction ps generalizing w with
  | nil => rfl
  | cons p ps ih =>
    rw [actEach_cons, ih]
    exact World.live_without s

/-! ### One after the other -/

theorem removeLists_succeeds {cs : List (ℕ × List ℕ)} (hl : ∀ c ∈ cs, w.manager.Live c.1) :
    removeLists cfg cs w = some (.ok (), actEach (World.withoutPair cfg)
      (cs.flatMap fun c => c.2.map fun b => (c.1, b)) w) := by
  induction cs generalizing w with
  | nil => rfl
  | cons c cs ih =>
    have hc := hl c List.mem_cons_self
    obtain ⟨impl, hs⟩ := hc
    rw [removeLists, BlobSession.removeList, BlobSessionManager.getSessionImpl_of_some hs]
    dsimp only
    rw [deleteEach_succeeds 0 c.2 ⟨impl, hs⟩, ← World.actEach_withoutPair]
    dsimp only
    rw [ih (fun d hd => (live_withoutPairs _ _).mpr (hl d (List.mem_cons_of_mem c hd))),
      ← actEach_append, List.flatMap_cons]

/-! ### Beside each other -/

/-- What a call of `remove` has left to delete. -/
def Handler.todo : Handler → List (ℕ × ℕ)
  | .remove s ids .called => ids.map fun b => (s, b)
  | .remove s _ (.removing rest) => rest.map fun b => (s, b)
  | _ => []

/-- Downloads, removals, and what has ended. -/
def Handler.Removes (t : Handler) : Prop :=
  t.finished = true ∨ (∃ request pc, t = .get request pc) ∨ ∃ s ids pc, t = .remove s ids pc

theorem removeStep_worksOff {s : ℕ} {ids : List ℕ} {pc pc' : RemovePc}
    (h : removeStep cfg f s ids w pc = some (w', pc'))
    (hquiet : (Handler.remove s ids pc').threw = false) :
    Pool.WorksOff (World.withoutPair cfg) Handler.todo w (.remove s ids pc) w'
      (.remove s ids pc') := by
  cases pc with
  | called =>
    dsimp only [removeStep] at h
    split at h
    · cases h
      exact ⟨[], rfl, rfl⟩
    · cases h
      cases hquiet
  | removing rest =>
    cases rest with
    | nil =>
      cases h
      exact ⟨[], rfl, rfl⟩
    | cons b rest =>
      dsimp only [removeStep] at h
      split at h
      · cases h
      · cases h
        cases hquiet
      · rename_i w₁ hd
        cases h
        exact ⟨[(s, b)], rfl, World.deleteBlobFile_ok hd⟩
  | finished r => cases h

theorem handlerStep_worksOff (ht : t.Removes) (h : handlerStep cfg f w t = some (w', t'))
    (hquiet : t'.threw = false) :
    t'.Removes ∧ Pool.WorksOff (World.withoutPair cfg) Handler.todo w t w' t' := by
  rcases ht with hfin | ⟨request, pc, rfl⟩ | ⟨s, ids, pc, rfl⟩
  · rw [handlerStep_finished hfin] at h
    cases h
  · obtain ⟨rfl, pc', rfl, _⟩ := handlerStep_get h
    exact ⟨Or.inr (Or.inl ⟨request, pc', rfl⟩), [], rfl, rfl⟩
  · obtain ⟨x, hx, he⟩ := Option.map_eq_some_iff.mp h
    cases he
    exact ⟨Or.inr (Or.inr ⟨s, ids, x.2, rfl⟩), removeStep_worksOff hx hquiet⟩

theorem todo_finished (ht : t.finished = true) : t.todo = [] := by
  cases t with
  | remove s ids pc =>
    cases pc with
    | finished r => rfl
    | _ => cases ht
  | _ => rfl

theorem todos_finished {σ : System} (h : ∀ t ∈ σ.threads, t.finished = true) :
    σ.todos Handler.todo = [] :=
  List.flatMap_eq_nil_iff.mpr fun t ht => todo_finished (h t ht)

/-- The state at every moment, and what the calls that have not ended still remove. -/
theorem removals_left {σ σ' : System} {ls : List SystemMove}
    (hrun : Run (systemStep cfg) (RemovesQuietly cfg) σ ls σ')
    (hrest : ∀ t ∈ σ.threads, t.finished = true) :
    actEach (World.withoutPair cfg) (σ'.todos Handler.todo) σ'.shared =
      actEach (World.withoutPair cfg) (removals ls) σ.shared := by
  have hissued : Pool.issued Call.start Handler.todo ls = removals ls := by
    refine List.flatMap_congr fun l _ => ?_
    cases l with
    | call c => cases c <;> rfl
    | _ => rfl
  have hcall : ∀ (σ : System) (c : Call), RemovesQuietly cfg σ (.call c) → c.start.Removes := by
    intro σ c hc
    cases c with
    | remove s ids => exact Or.inr (Or.inr ⟨s, ids, .called, rfl⟩)
    | get request => exact Or.inr (Or.inl ⟨request, .called, rfl⟩)
    | put messages => cases hc
    | dispose s => cases hc
  have hstep : ∀ (σ : System) (i : ℕ) f t w t', RemovesQuietly cfg σ (.run i f) →
      t.Removes → σ.threads[i]? = some t → handlerStep cfg f σ.shared t = some (w, t') →
      t'.Removes ∧ Pool.WorksOff (World.withoutPair cfg) Handler.todo σ.shared t w t' := by
    intro σ i f t w t' hok ht hi hst
    have hquiet : t'.threw = false := by
      simpa [RemovesQuietly, hi, hst] using hok
    exact handlerStep_worksOff ht hst hquiet
  rw [Pool.todos_run Handler.todo Handler.Removes (World.withoutPair_setAction cfg)
      (fun _ _ h => h) hcall hstep hrun fun t ht => Or.inl (hrest t ht),
    todos_finished hrest, List.nil_append, hissued]

/-- However calls of `remove` are interleaved with each other and with downloads, when all
have returned the service is where sequential calls, in any order, that name the same ids
of the same sessions bring it. -/
theorem removals_serializable {σ σ' : System} {ls : List SystemMove} {cs : List (ℕ × List ℕ)}
    (hrun : Run (systemStep cfg) (RemovesQuietly cfg) σ ls σ')
    (hrest : ∀ t ∈ σ.threads, t.finished = true) (hend : ∀ t ∈ σ'.threads, t.finished = true)
    (hlive : ∀ c ∈ cs, σ.shared.manager.Live c.1)
    (hsame : ∀ s b, (s, b) ∈ removals ls ↔ ∃ ids, (s, ids) ∈ cs ∧ b ∈ ids) :
    removeLists cfg cs σ.shared = some (.ok (), σ'.shared) := by
  have hleft := removals_left hrun hrest
  rw [todos_finished hend, actEach_nil] at hleft
  rw [removeLists_succeeds hlive, hleft]
  congr 2
  refine (World.withoutPair_setAction cfg).congr (fun p => ?_) σ.shared
  rw [hsame p.1 p.2, List.mem_flatMap]
  constructor
  · intro ⟨c, hc, hp⟩
    obtain ⟨b, hb, rfl⟩ := List.mem_map.mp hp
    exact ⟨c.2, hc, hb⟩
  · intro ⟨ids, hc, hb⟩
    exact ⟨(p.1, ids), hc, List.mem_map_of_mem hb⟩

/-- Two blobs in a session, then two calls that both remove the second of them. -/
def twoBlobs : List SystemMove :=
  [.env (.createSession none), .call (.put [.metadata ⟨1, 1, none⟩, .chunk [1, 2]]),
    .call (.put [.metadata ⟨1, 1, none⟩, .chunk [3]])] ++
    ([0, 1, 1, 0, 0, 1, 0, 1, 1, 0, 0, 1, 1, 0].map fun i => .run i .none)

def overlappingRemovals : List SystemMove :=
  [.call (.remove 1 [1, 2]), .call (.remove 1 [2])] ++
    ([2, 3, 3, 2, 3, 2, 2].map fun i => .run i .none)

theorem removals_serializable_overlapping : ∃ σ σ' : System,
    runs smallConfig twoBlobs smallStart = some σ ∧ Reachable smallConfig σ ∧
    exec (systemStep smallConfig) (fun σ l => decide (RemovesQuietly smallConfig σ l))
      overlappingRemovals σ = some σ' ∧ (∀ t ∈ σ'.threads, t.finished = true) ∧
    σ.shared.manager.currentSize = 3 ∧ σ'.shared.manager.currentSize = 0 ∧
    removeLists smallConfig [(1, [2]), (1, [1])] σ.shared = some (.ok (), σ'.shared) := by
  obtain ⟨σ, hσ, hend⟩ := (Option.any_eq_true (fun σ : System => decide (Headroom σ.shared) &&
      decide (σ.shared.manager.currentSize = 3) && σ.threads.all Handler.finished &&
      (σ.shared.manager.blobSessions[1]?).isSome &&
      (exec (systemStep smallConfig) (fun σ l => decide (RemovesQuietly smallConfig σ l))
        overlappingRemovals σ).any fun σ' : System => σ'.threads.all Handler.finished &&
          decide (σ'.shared.manager.currentSize = 0)) _).mp
    (by decide : (runs smallConfig twoBlobs smallStart).any _ = true)
  simp only [Bool.and_eq_true, decide_eq_true_eq, List.all_eq_true] at hend
  obtain ⟨⟨⟨⟨hroom, hsize⟩, hrest⟩, hsome⟩, hremoved⟩ := hend
  obtain ⟨σ', hexec, hlast⟩ := (Option.any_eq_true _ _).mp hremoved
  simp only [Bool.and_eq_true, decide_eq_true_eq, List.all_eq_true] at hlast
  obtain ⟨hfin, hempty⟩ := hlast
  obtain ⟨impl, hs⟩ := Option.isSome_iff_exists.mp hsome
  have hrun : Run (systemStep smallConfig) (RemovesQuietly smallConfig) σ overlappingRemovals σ' :=
    .of_exec hexec fun _ _ _ hc => of_decide_eq_true hc
  refine ⟨σ, σ', hσ, .of_runs smallStart_initial hσ hroom, hexec, hfin, hsize, hempty,
    removals_serializable hrun hrest hfin ?_ ?_⟩
  · intro c hc
    have hone : c.1 = 1 := by
      rcases List.mem_cons.mp hc with rfl | hc
      · rfl
      · obtain rfl := List.mem_singleton.mp hc
        rfl
    exact hone ▸ ⟨impl, hs⟩
  · intro s b
    have hasked : removals overlappingRemovals = [(1, 1), (1, 2), (1, 2)] := by decide
    rw [hasked]
    constructor
    · intro hp
      rcases List.mem_cons.mp hp with hp | hp
      · cases hp
        exact ⟨[1], by simp, by simp⟩
      · obtain ⟨rfl, rfl⟩ : s = 1 ∧ b = 2 := by simpa using hp
        exact ⟨[2], by simp, by simp⟩
    · intro ⟨ids, hc, hb⟩
      rcases List.mem_cons.mp hc with hc | hc
      · cases hc
        obtain rfl := List.mem_singleton.mp hb
        simp
      · cases List.mem_singleton.mp hc
        obtain rfl := List.mem_singleton.mp hb
        simp

end BlobRelay
