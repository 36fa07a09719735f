import Quail.Pages.PlanUndo

/-!
# The slots after a plan that raised

`plan_phases` raises with the slots, their token counts and the free slots as they were, less those of
retained keys it evicted, exactly when no second checkpoint it advanced was reserved without tokens.
-/

set_option linter.unusedSectionVars false

namespace Quail.Pages
open Imperative UndoLog

variable {κ π α δ : Type} [DecidableEq κ] [ToString κ] [LinearOrder π]
variable {s s' t : KVArena κ π} {evicted : Finset κ} {lost : Set (Holder κ)} {key : κ}
variable {stage : Stage δ} {groups : List (ChunkGroup κ)}

/-- The slots, the tokens they cover and the free slots are as before, but for retained keys that were
evicted. -/
structure Restored (evicted : Finset κ) (s s' : KVArena κ π) : Prop where
  gone : ∀ k ∈ evicted, s.isRetained k = true ∧ s'.isResident k = false
  slots : ∀ k, s'.accounting.slots.get? k = if k ∈ evicted then none else s.accounting.slots.get? k
  slotTokens : ∀ k, s'.accounting.slotTokens.get? k =
    if k ∈ evicted then none else s.accounting.slotTokens.get? k
  extSlots : ∀ k, s'.accounting.extSlots.get? k =
    if k ∈ evicted then none else s.accounting.extSlots.get? k
  extTokens : ∀ k, s'.accounting.extTokens.get? k =
    if k ∈ evicted then none else s.accounting.extTokens.get? k
  shareSlots : ∀ k n, s'.accounting.shareSlots.get? (k, n) =
    if k ∈ evicted then none else s.accounting.shareSlots.get? (k, n)
  freeSlots : ∀ x, x ∈ s'.accounting.freeSlots ↔ x ∈ s.accounting.freeSlots ∨ ∃ k ∈ evicted,
    s.accounting.slots.get? k = some x ∨ s.accounting.extSlots.get? k = some x ∨
      ∃ n, s.accounting.shareSlots.get? (k, n) = some x

lemma exists_ownedBy_keys {x : Slot} : (∃ h ∈ ownedBy evicted, s.accounting.slotStore.held h = some x) ↔
    ∃ k ∈ evicted, s.accounting.slots.get? k = some x ∨ s.accounting.extSlots.get? k = some x ∨
      ∃ n, s.accounting.shareSlots.get? (k, n) = some x := by
  constructor
  · rintro ⟨h, hown, hx⟩
    refine ⟨h.owner, hown, exists_ownedBy.1 ⟨h, Finset.mem_singleton_self _, hx⟩⟩
  · rintro ⟨k, hk, hx⟩
    obtain ⟨h, hown, hheld⟩ := exists_ownedBy.2 hx
    have hkey : h.owner = k := Finset.mem_singleton.1 hown
    refine ⟨h, ?_, hheld⟩
    show h.owner ∈ evicted
    rwa [hkey]

lemma drop_ownedBy (evicted : Finset κ) (store : Store (Holder κ) Slot ℤ) (h : Holder κ) :
    (store.drop (ownedBy evicted)).held h = (if h.owner ∈ evicted then none else store.held h) ∧
      (store.drop (ownedBy evicted)).note h = if h.owner ∈ evicted then none else store.note h := by
  by_cases hin : h.owner ∈ evicted
  · rw [if_pos hin, if_pos hin]
    exact ⟨Store.drop_held hin, Store.drop_note hin⟩
  · rw [if_neg hin, if_neg hin]
    exact ⟨Store.drop_held_of_not_mem hin, Store.drop_note_of_not_mem hin⟩

/-- In terms of the store: the holders of the evicted keys are empty, and nothing else changed. -/
lemma restored_iff : Restored evicted s s' ↔
    (∀ k ∈ evicted, s.isRetained k = true ∧ s'.isResident k = false) ∧
      s'.accounting.slotStore = s.accounting.slotStore.drop (ownedBy evicted) := by
  constructor
  · intro h
    refine ⟨h.gone, store_ext (fun k => ⟨?_, ?_⟩) (fun k => ⟨?_, ?_⟩) (fun k n => ⟨?_, ?_⟩)
      (Set.ext fun x => ?_)⟩
    · exact (h.slots k).trans (drop_ownedBy evicted s.accounting.slotStore (.checkpoint k)).1.symm
    · exact (h.slotTokens k).trans (drop_ownedBy evicted s.accounting.slotStore (.checkpoint k)).2.symm
    · exact (h.extSlots k).trans (drop_ownedBy evicted s.accounting.slotStore (.extension k)).1.symm
    · exact (h.extTokens k).trans (drop_ownedBy evicted s.accounting.slotStore (.extension k)).2.symm
    · exact (h.shareSlots k n).trans (drop_ownedBy evicted s.accounting.slotStore (.share k n)).1.symm
    · exact (ite_self _).symm.trans (drop_ownedBy evicted s.accounting.slotStore (.share k n)).2.symm
    · rw [Store.mem_drop_free, exists_ownedBy_keys]
      exact h.freeSlots x
  · rintro ⟨hevicted, hstore⟩
    have hheld : ∀ h, s'.accounting.slotStore.held h = _ := fun h => hstore ▸ (drop_ownedBy evicted s.accounting.slotStore h).1
    have hnote : ∀ h, s'.accounting.slotStore.note h = _ := fun h => hstore ▸ (drop_ownedBy evicted s.accounting.slotStore h).2
    refine ⟨hevicted, fun k => hheld (.checkpoint k), fun k => hnote (.checkpoint k),
      fun k => hheld (.extension k), fun k => hnote (.extension k), fun k n => hheld (.share k n), fun x => ?_⟩
    rw [← exists_ownedBy_keys]
    exact (congrArg (x ∈ Store.free ·) hstore).to_iff

/-! ## Readers of the parents -/

/-- The readers of a key. -/
def KVArena.readers (s : KVArena κ π) (key : κ) : ℕ := (s.reading.get? key).getD 0

lemma Core.addReader {J : PageArena κ π → Prop} (h : Core J s) : Core J (s.addReader key) where
  pool := h.pool
  slidingPool := h.slidingPool
  rows := h.rows
  capacityRows := h.capacityRows
  slidingDocs := h.slidingDocs
  holds := h.holds
  reading k n hn := by
    rw [KVArena.addReader, Dict.get?_set] at hn
    split_ifs at hn with hk
    · exact Option.some.inj hn ▸ Nat.succ_ne_zero _
    · exact h.reading k n hn

/-- The state while the parents are read. -/
def KVArena.readAll (s : KVArena κ π) (keys : List κ) : KVArena κ π := keys.foldl KVArena.addReader s

lemma Core.readAll {J : PageArena κ π → Prop} {keys : List κ} (h : Core J s) : Core J (s.readAll keys) := by
  induction keys generalizing s with
  | nil => exact h
  | cons key keys ih => exact ih h.addReader

lemma addReader_readers {k : κ} : (s.addReader key).readers k = s.readers k + if k = key then 1 else 0 := by
  unfold KVArena.readers KVArena.addReader
  rw [Dict.get?_set]
  by_cases hk : key = k
  · rw [if_pos hk, if_pos hk.symm, hk]
    rfl
  · rw [if_neg hk, if_neg (Ne.symm hk), Nat.add_zero]

/-- Reading keys changes nothing but the number of readers. -/
lemma readAll_spec {keys : List κ} : (s.readAll keys).accounting = s.accounting ∧
    (s.readAll keys).holds = s.holds ∧ (s.readAll keys).deferred = s.deferred ∧
      ∀ k, (s.readAll keys).readers k = s.readers k + keys.count k := by
  induction keys generalizing s with
  | nil => exact ⟨rfl, rfl, rfl, fun _ => rfl⟩
  | cons key keys ih =>
    obtain ⟨hacc, hholds, hdeferred, hreaders⟩ := ih (s := s.addReader key)
    refine ⟨hacc, hholds, hdeferred, fun k => ?_⟩
    rw [KVArena.readAll, List.foldl_cons]
    refine (hreaders k).trans ?_
    rw [addReader_readers]
    by_cases hk : k = key
    · rw [if_pos hk, hk, List.count_cons_self]
      omega
    · rw [if_neg hk, List.count_cons_of_ne (Ne.symm hk)]
      rfl

/-- Dropping the readers again frees no key, as long as a key whose free waits is still in use without
them. -/
lemma doneReading_same {keys : List κ} {base : κ → ℕ} (hreaders : ∀ k, t.readers k = base k + keys.count k)
    (hwaits : ∀ k ∈ t.deferred, t.isHeld k = true ∨ base k ≠ 0) :
    wp (doneReading keys) (fun _ t' => t'.accounting = t.accounting) (fun _ _ => False) t := by
  induction keys generalizing t with
  | nil => rfl
  | cons key keys ih =>
    have hcount : t.readers key = base key + keys.count key + 1 := by
      rw [hreaders, List.count_cons_self]
      rfl
    have hother : ∀ k, k ≠ key → t.readers k = base k + keys.count k := fun k hk => by
      rw [hreaders, List.count_cons_of_ne (Ne.symm hk)]
    rw [doneReading]
    unfold doneReadingOne
    simp only [wp_bind, wp_lookup, wp_modify, wp_ite, wp_pure, wp_get, wp_set, wp_discard]
    refine ⟨fun count hget => ?_, fun hnone => ?_⟩
    · have hvalue : count = base key + keys.count key + 1 := by
        rw [← hcount, KVArena.readers, hget]
        rfl
      refine ⟨fun hzero => ⟨fun hfree => ?_, fun _ => ?_⟩, fun hpos => ?_⟩
      · obtain ⟨hin, hheld⟩ := hfree
        rcases hwaits key hin with hheld' | hbase
        · exact absurd (hheld'.symm.trans hheld) Bool.noConfusion
        · omega
      · refine ih (t := { t with reading := (t.reading.set key (count - 1)).erase key }) (fun k => ?_) hwaits
        by_cases hk : k = key
        · rw [hk]
          show (((t.reading.set key (count - 1)).erase key).get? key).getD 0 = _
          rw [Dict.get?_erase_self]
          simp only [Option.getD_none]
          omega
        · rw [← hother k hk]
          show (((t.reading.set key (count - 1)).erase key).get? k).getD 0 = _
          rw [Dict.get?_erase_ne (Ne.symm hk), Dict.get?_set_ne (Ne.symm hk)]
          rfl
      · refine ih (t := { t with reading := t.reading.set key (count - 1) }) (fun k => ?_) hwaits
        by_cases hk : k = key
        · rw [hk]
          show ((t.reading.set key (count - 1)).get? key).getD 0 = _
          rw [Dict.get?_set_self]
          simp only [Option.getD_some]
          omega
        · rw [← hother k hk]
          show ((t.reading.set key (count - 1)).get? k).getD 0 = _
          rw [Dict.get?_set_ne (Ne.symm hk)]
          rfl
    · rw [KVArena.readers, hnone] at hcount
      cases hcount

/-! ## The plan -/

lemma start_undone (hcore : Core SlotsApart s) : Undone s ∅ (.start s) := by
  refine ⟨∅, .of_same rfl (fun _ h => h) rfl rfl rfl, hcore, ?_, nofun, nofun, nofun⟩
  rw [ownedBy_empty, Set.union_empty, Store.drop_empty]
  rfl

/-- A plan that raises leaves the slots as they were, less those of evicted keys and of `lost`. -/
lemma planOrUndo_raises (hcore : Core SlotsApart s) (hkeys : ∀ g ∈ groups, s.isRetained g.key = false) :
    wp (planOrUndo stage groups) (fun _ t => ∃ evicted, Retires evicted s t)
      (fun _ t => ∃ evicted lost, Retires evicted s t ∧
      t.accounting.slotStore = s.accounting.slotStore.drop (ownedBy evicted ∪ lost) ∧
      (∀ h ∈ lost, s.isRetained h.owner = false ∧
        (s.accounting.slotStore.held h ≠ none ∨ s.accounting.slotStore.note h ≠ none)) ∧
      (lost = ∅ ↔ PlansPaired groups (.start s))) s := by
  have hplan : wp (planChunk stage groups) (fun _ p => ∃ evicted, Retires evicted s p.arena)
      (fun _ p => Tracks s ∅ (PlansPaired groups (.start s)) p) (.start s) := by
    unfold planChunk
    rw [wp_bind]
    refine wp_mono (planGroups_tracks hkeys (start_undone hcore)) ?_ (fun _ _ h => h)
    intro _ p hp
    rw [wp_reads]
    obtain ⟨_, ⟨evicted, hkept⟩, _⟩ := id hp
    exact ⟨fun _ _ => ⟨evicted, hkept.toRetires⟩, fun _ _ => hp⟩
  unfold planOrUndo
  unfold wp at hplan ⊢
  cases hres : planChunk stage groups (.start s) with
  | ok phases p =>
    rw [hres] at hplan
    dsimp only
    rw [hres]
    exact hplan
  | error e p =>
    rw [hres] at hplan
    dsimp only
    rw [hres]
    obtain ⟨lost, ⟨evicted, hp⟩, hlost⟩ := hplan
    obtain ⟨hkept, hslots⟩ := @undoAll_evicts _ _ _ _ _ p.arena p.undo
    refine ⟨evicted, lost, hp.toRetires.same hkept, hslots.trans hp.undone, hp.had, ?_⟩
    rw [hlost]
    exact and_iff_right rfl

/-- What `plan_phases` leaves when it raises: the state before it is restored exactly when every second
checkpoint it came to advance had a slot and tokens or neither. -/
theorem planPhases_restores {e : PyError} (hcore : Core SlotsApart s) (hwaits : ∀ k ∈ s.deferred, s.InUse k)
    (hkeys : ∀ g ∈ groups, s.isRetained g.key = false) (hraise : planPhases stage groups s = .error e s') :
    (∃ evicted, Restored evicted s s') ↔
      PlansPaired groups (.start (s.readAll (groups.filterMap ChunkGroup.parent))) := by
  obtain ⟨hacc, hholds, hdeferred, hreaders⟩ :=
    @readAll_spec _ _ _ _ _ s (groups.filterMap ChunkGroup.parent)
  have hplan : wp (planPhases stage groups) (fun _ _ => True) (fun _ t => ∃ evicted lost,
      (∀ k ∈ evicted, s.isRetained k = true ∧ t.isResident k = false) ∧
      t.accounting.slotStore = s.accounting.slotStore.drop (ownedBy evicted ∪ lost) ∧
      (∀ h ∈ lost, s.isRetained h.owner = false ∧
        (s.accounting.slotStore.held h ≠ none ∨ s.accounting.slotStore.note h ≠ none)) ∧
      (lost = ∅ ↔ PlansPaired groups (.start (s.readAll (groups.filterMap ChunkGroup.parent))))) s := by
    unfold planPhases readState
    rw [wp_bind, wp_modify, wp_withCleanup]
    -- no clean-up frees a key, so it ends as the plan did
    have hclean : ∀ {t evicted}, Retires evicted (s.readAll (groups.filterMap ChunkGroup.parent)) t →
        wp (doneReading (groups.filterMap ChunkGroup.parent))
          (fun _ t' => t'.accounting = t.accounting) (fun _ _ => False) t := by
      intro t evicted hkept
      refine doneReading_same (fun k => ?_) (fun k hin => ?_ : ∀ k ∈ t.deferred, t.isHeld k = true ∨ s.readers k ≠ 0)
      · rw [← hreaders, KVArena.readers, hkept.reading]
        rfl
      · rw [hkept.deferred, hdeferred] at hin
        rw [KVArena.isHeld, hkept.holds, hholds]
        refine (hwaits k hin).imp_right fun hread => ?_
        obtain ⟨n, hn⟩ := Dict.contains_iff.1 hread
        rw [KVArena.readers, hn]
        exact hcore.reading k n hn
    have hret : ∀ k, (s.readAll (groups.filterMap ChunkGroup.parent)).isRetained k = s.isRetained k :=
      fun k => congrArg (·.retainedVersions.contains k) hacc
    show wp (planOrUndo stage groups) _ _ (s.readAll (groups.filterMap ChunkGroup.parent))
    refine wp_mono (planOrUndo_raises hcore.readAll fun g hg => (hret g.key).trans (hkeys g hg)) ?_ ?_
    · rintro _ t ⟨evicted, hkept⟩
      exact wp_mono (hclean hkept) (fun _ _ _ => trivial) (fun _ _ h => h.elim)
    · rintro _ t ⟨evicted, lost, hkept, hstore, hhad, hlost⟩
      refine wp_mono (hclean hkept) ?_ (fun _ _ h => h.elim)
      intro _ t' hsame
      rw [hacc] at hstore hhad
      refine ⟨evicted, lost, fun k hk => ⟨(hret k).symm.trans (hkept.retained k hk), ?_⟩,
        (congrArg PageArena.slotStore hsame).trans hstore, fun h hin => ?_, hlost⟩
      · exact (congrArg (·.docs.contains k) hsame).trans (hkept.gone k hk)
      · exact ⟨(hret _).symm.trans (hhad h hin).1, (hhad h hin).2⟩
  rw [wp_of_error hraise] at hplan
  obtain ⟨evicted, lost, hevicted, hstore, hhad, hlost⟩ := hplan
  rw [← hlost]
  constructor
  · rintro ⟨evicted', hrestored⟩
    obtain ⟨hevicted', hstore'⟩ := restored_iff.1 hrestored
    refine Set.eq_empty_of_forall_notMem fun h hin => ?_
    obtain ⟨hret, hsome⟩ := hhad h hin
    have hno : h ∉ ownedBy evicted' := fun hown => by
      rw [(hevicted' _ hown).1] at hret
      cases hret
    have heq := hstore.symm.trans hstore'
    have hlost : h ∈ ownedBy evicted ∪ lost := Or.inr hin
    have hheld : none = s.accounting.slotStore.held h := by
      rw [← Store.drop_held_of_not_mem (s := s.accounting.slotStore) hno, ← heq, Store.drop_held hlost]
    have hnote : none = s.accounting.slotStore.note h := by
      rw [← Store.drop_note_of_not_mem (s := s.accounting.slotStore) hno, ← heq, Store.drop_note hlost]
    exact hsome.elim (· hheld.symm) (· hnote.symm)
  · intro hempty
    rw [hempty, Set.union_empty] at hstore
    exact ⟨evicted, restored_iff.2 ⟨hevicted, hstore⟩⟩

/-- The first document keeps two tokens of its question; the second borrows from one that left no state
at that length. -/
def borrowingChunk : List (ChunkGroup ℕ) :=
  [⟨0, true, 10, 0, 0, 10, 2, [10], [15], none, []⟩,
    ⟨1, true, 24, 16, 15, 23, 0, [23], [25], some 2, []⟩]

/-- Three documents are active and have no slot yet. -/
def activeArena : KVArena ℕ ℕ :=
  { KVArena.new 5 16 none 0 4 (fun _ _ _ => .ok 0) with
    accounting := { PageArena.new 5 16 4 (fun _ _ _ => .ok 0) with
      free := [4]
      docs := ((Dict.empty.set 0 ⟨[0], [], 10⟩).set 1 ⟨[3], [1], 24⟩).set 2 ⟨[1, 2], [], 32⟩
      holds := fun p => if p = 1 then 2 else if p < 4 then 1 else 0
      pinned := {0, 1, 2} }
    rows := ((Dict.empty.set 0 (pageRows 16 [0] 10)).set 1 (pageRows 16 [1, 3] 24)).set 2 (pageRows 16 [1, 2] 32)
    capacityRows :=
      ((Dict.empty.set 0 (pageRows 16 [0] 16)).set 1 (pageRows 16 [1, 3] 32)).set 2 (pageRows 16 [1, 2] 32)
    base := ((Dict.empty.set 0 10).set 1 24).set 2 32
    slidingStart := ((Dict.empty.set 0 0).set 1 0).set 2 0 }

theorem planPhases_restores_active : (∃ evicted, Restored evicted activeArena
    (final (planPhases (δ := Unit) (fun _ _ _ => .ok ()) borrowingChunk) activeArena)) ↔
    PlansPaired borrowingChunk (.start (activeArena.readAll [2])) := by
  refine planPhases_restores ?_ (by decide) (by decide)
    (rfl : planPhases (δ := Unit) (fun _ _ _ => .ok ()) borrowingChunk activeArena = .error _ _)
  have hheld : ∀ h : Holder ℕ, activeArena.accounting.slotStore.held h = none := fun h => by
    cases h <;> rfl
  have hnone : ∀ {h x}, activeArena.accounting.slotStore.held h = some x → False := fun {h x} hx => by
    rw [hheld h] at hx
    cases hx
  refine ⟨⟨by decide, fun h x hx => (hnone hx).elim, fun h h' x hx => (hnone hx).elim⟩, nofun, fun k => ?_,
    fun k => ?_, nofun, nofun, nofun⟩
  · simp [activeArena, KVArena.isResident, Dict.contains_set]
  · simp [activeArena, KVArena.isResident, Dict.contains_set]

/-- The first document's second checkpoint is reserved too, as `reserve` leaves it before the first pass. -/
def reservedArena : KVArena ℕ ℕ :=
  { activeArena with
    accounting := { activeArena.accounting with
      freeSlots := [3]
      slots := (Dict.empty.set 0 0).set 1 2
      extSlots := Dict.empty.set 0 1 } }

/-- The plan raises, and the reserved slot is gone. -/
theorem planPhases_drops_reservation : ∃ e s',
    planPhases (δ := Unit) (fun _ _ _ => .ok ()) borrowingChunk reservedArena = .error e s' ∧
      s'.accounting.extSlots.get? 0 = none ∧ reservedArena.accounting.extSlots.get? 0 = some 1 ∧
      ¬∃ evicted, Restored evicted reservedArena s' := by
  refine ⟨_, final (planPhases (δ := Unit) (fun _ _ _ => .ok ()) borrowingChunk) reservedArena, rfl, rfl, rfl, ?_⟩
  rintro ⟨evicted, hrestored⟩
  have hkept : none = if 0 ∈ evicted then none else some 1 := hrestored.extSlots 0
  by_cases hin : 0 ∈ evicted
  · cases (hrestored.gone 0 hin).1
  · rw [if_neg hin] at hkept
    cases hkept

end Quail.Pages
