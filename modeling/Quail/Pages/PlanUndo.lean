import Quail.Pages.Phases
import Quail.Pages.SlotStore

/-!
# A failed plan is undone

While a chunk is planned, undoing the log gives the slots from before the plan, less those of retained
keys evicted on the way. The one entry that loses something is that of a second checkpoint which was
reserved without tokens: the log says it was not held, and undoing it drops it.
-/

set_option linter.unusedSectionVars false

namespace Quail.Pages
open Imperative UndoLog

variable {κ π α δ : Type} [DecidableEq κ] [ToString κ] [LinearOrder π]

/-! ## The log as a log of the store -/

/-- What an entry says its holder had. -/
def Undo.entry : Undo κ → Entry (Holder κ) ℤ
  | .checkpoint key hadSlot previous => ⟨.checkpoint key, hadSlot, previous⟩
  | .share key tokens => ⟨.share key tokens, false, none⟩
  | .extension key previous => ⟨.extension key, previous.isSome, previous⟩

namespace Planning

/-- The slots as planned so far. -/
def slots (p : Planning κ π) : Store (Holder κ) Slot ℤ := p.arena.accounting.slotStore

/-- The log, its latest entry first. -/
def log (p : Planning κ π) : List (Entry (Holder κ) ℤ) := p.undo.reverse.map Undo.entry

/-- The key's second checkpoint has a slot and tokens, or neither. -/
def Paired (p : Planning κ π) (key : κ) : Prop :=
  (p.slots.held (.extension key) = none ↔ p.slots.note (.extension key) = none)

end Planning

/-- Two stores that agree on the holders of slots and notes, and on the free slots. -/
lemma store_ext {t t' : Store (Holder κ) Slot ℤ}
    (hcheckpoint : ∀ k, t.held (.checkpoint k) = t'.held (.checkpoint k) ∧
      t.note (.checkpoint k) = t'.note (.checkpoint k))
    (hextension : ∀ k, t.held (.extension k) = t'.held (.extension k) ∧
      t.note (.extension k) = t'.note (.extension k))
    (hshare : ∀ k n, t.held (.share k n) = t'.held (.share k n) ∧ t.note (.share k n) = t'.note (.share k n))
    (hfree : t.free = t'.free) : t = t' := by
  refine Store.ext (funext fun h => ?_) (funext fun h => ?_) hfree
  · cases h with
    | checkpoint k => exact (hcheckpoint k).1
    | extension k => exact (hextension k).1
    | share k n => exact (hshare k n).1
  · cases h with
    | checkpoint k => exact (hcheckpoint k).2
    | extension k => exact (hextension k).2
    | share k n => exact (hshare k n).2

lemma get?_set_comm {β : Type} {d : Dict κ β} {k k' : κ} {v : β} :
    (d.set k v).get? k' = if k' = k then some v else d.get? k' := by
  rw [Dict.get?_set]
  simp only [eq_comm]

lemma get?_erase_comm {β : Type} {d : Dict κ β} {k k' : κ} :
    (d.erase k).get? k' = if k' = k then none else d.get? k' := by
  rw [Dict.get?_erase]
  simp only [eq_comm]

/-- Nothing is there to erase. -/
lemma ite_none {β : Type} {d : Dict κ β} {k k' : κ} (h : d.get? k = none) :
    (if k' = k then none else d.get? k') = d.get? k' := by
  split_ifs with heq
  · rw [heq, h]
  · rfl

lemma undoOne_slots {s : PageArena κ π} {u : Undo κ} :
    (s.undoOne u).slotStore = s.slotStore.undoOne u.entry := by
  cases u with
  | checkpoint key hadSlot previous =>
    cases hadSlot with
    | true =>
      refine store_ext (fun k => ⟨rfl, ?_⟩) (fun k => ⟨rfl, ?_⟩) (fun k n => ⟨rfl, ?_⟩) rfl <;>
        cases previous <;> simp [PageArena.slotStore, PageArena.undoOne, Store.undoOne, Undo.entry,
          Function.update_apply, get?_set_comm, get?_erase_comm]
    | false =>
      cases hslot : s.slots.get? key with
      | none =>
        refine store_ext (fun k => ⟨?_, ?_⟩) (fun k => ⟨?_, ?_⟩) (fun k n => ⟨?_, ?_⟩) ?_ <;>
          cases previous <;> simp [PageArena.slotStore, PageArena.undoOne, Store.undoOne, Undo.entry,
            Function.update_apply, hslot, get?_set_comm, get?_erase_comm, ite_none hslot]
      | some slot =>
        refine store_ext (fun k => ⟨?_, ?_⟩) (fun k => ⟨?_, ?_⟩) (fun k n => ⟨?_, ?_⟩) ?_ <;>
          cases previous <;> simp [PageArena.slotStore, PageArena.undoOne, Store.undoOne, Undo.entry,
            Function.update_apply, hslot, get?_set_comm, get?_erase_comm, Set.insert_def, eq_comm]
  | share key tokens =>
    rw [show Undo.entry (.share key tokens) = ⟨.share key tokens, false, none⟩ from rfl,
      Store.undoOne_empty]
    cases hslot : s.shareSlots.get? (key, tokens) with
    | none =>
      rw [Store.drop_nothing hslot rfl]
      simp [PageArena.undoOne, hslot]
    | some slot =>
      refine store_ext (fun k => ⟨?_, ?_⟩) (fun k => ⟨?_, ?_⟩) (fun k n => ⟨?_, ?_⟩) (Set.ext fun x => ?_)
      case refine_7 =>
        rw [Store.mem_drop_free]
        simp [PageArena.slotStore, PageArena.undoOne, hslot, eq_comm, or_comm]
      all_goals simp [PageArena.slotStore, PageArena.undoOne, Store.drop, hslot, get?_erase_comm]
  | extension key previous =>
    cases previous with
    | none => exact slotStore_dropExtension.trans Store.undoOne_empty.symm
    | some tokens =>
      refine store_ext (fun k => ⟨rfl, ?_⟩) (fun k => ⟨rfl, ?_⟩) (fun k n => ⟨rfl, ?_⟩) rfl <;>
        simp [PageArena.slotStore, PageArena.undoOne, Store.undoOne, Undo.entry, Function.update_apply,
          get?_set_comm]

lemma undoOne_keys {s : PageArena κ π} {u : Undo κ} : (s.undoOne u).docs = s.docs ∧
    (s.undoOne u).retainedVersions = s.retainedVersions := by
  cases u with
  | checkpoint key hadSlot previous =>
    unfold PageArena.undoOne
    cases hadSlot with
    | true => exact ⟨rfl, rfl⟩
    | false =>
      dsimp only
      rw [if_neg Bool.false_ne_true]
      split <;> exact ⟨rfl, rfl⟩
  | share key tokens =>
    unfold PageArena.undoOne
    dsimp only
    split <;> exact ⟨rfl, rfl⟩
  | extension key previous =>
    cases previous <;> exact ⟨rfl, rfl⟩

/-- Undoing a log undoes its entries in the store, the latest first. -/
lemma undoAll_evicts {s : KVArena κ π} {log : List (Undo κ)} :
    Retires ∅ s (s.undoAll log) ∧
      (s.undoAll log).accounting.slotStore = s.accounting.slotStore.undo (log.reverse.map Undo.entry) := by
  have hall : ∀ (entries : List (Undo κ)) (t : PageArena κ π),
      (entries.foldl PageArena.undoOne t).docs = t.docs ∧
      (entries.foldl PageArena.undoOne t).retainedVersions = t.retainedVersions ∧
      (entries.foldl PageArena.undoOne t).slotStore = t.slotStore.undo (entries.map Undo.entry) := by
    intro entries
    induction entries with
    | nil => exact fun _ => ⟨rfl, rfl, rfl⟩
    | cons u entries ih =>
      intro t
      obtain ⟨hdocs, hversions, hslots⟩ := ih (t.undoOne u)
      obtain ⟨hdocs', hversions'⟩ := @undoOne_keys _ _ _ _ _ t u
      refine ⟨hdocs.trans hdocs', hversions.trans hversions', hslots.trans ?_⟩
      rw [undoOne_slots]
      rfl
  obtain ⟨hdocs, hversions, hslots⟩ := hall log.reverse s.accounting
  refine ⟨.of_same hdocs (fun k hk => ?_) rfl rfl rfl, hslots⟩
  exact (congrArg (·.contains k) hversions).symm.trans hk

/-! ## The invariant of a plan -/

/-- Undoing the plan gives the slots of `s₀`, less those of `evicted` and of `lost`. -/
structure Undoes (s₀ : KVArena κ π) (lost : Set (Holder κ)) (evicted : Finset κ) (p : Planning κ π) :
    Prop extends Retires evicted s₀ p.arena where
  core : Core SlotsApart p.arena
  undone : p.slots.undo p.log = s₀.accounting.slotStore.drop (ownedBy evicted ∪ lost)
  chunk : ∀ e ∈ p.log, s₀.isRetained e.holder.owner = false
  /-- A second checkpoint that was logged has tokens, so it is no longer a bare reservation. -/
  extended : ∀ e ∈ p.log, ∀ k, e.holder = .extension k →
    p.slots.held (.extension k) ≠ none ∧ p.slots.note (.extension k) ≠ none
  had : ∀ h ∈ lost, s₀.isRetained h.owner = false ∧
    (s₀.accounting.slotStore.held h ≠ none ∨ s₀.accounting.slotStore.note h ≠ none)

variable {s₀ : KVArena κ π} {lost out : Set (Holder κ)} {evicted evicted' : Finset κ}
variable {p q : Planning κ π} {t : KVArena κ π} {h : Holder κ} {x : Slot} {key : κ}

/-- Keys that leave on the way are none of the chunk's. -/
lemma Undoes.evict (hp : Undoes s₀ lost evicted p) (he : Evicts evicted' p.arena t)
    (hcore : Core SlotsApart t) : Undoes s₀ lost (evicted ∪ evicted') { p with arena := t } where
  toRetires := hp.toRetires.trans he.toRetires
  core := hcore
  undone := by
    have hout : ∀ e ∈ p.log, e.holder ∉ ownedBy evicted' := fun e hin hown => by
      have hret := hp.stays _ (he.retained _ hown)
      rw [hp.chunk e hin] at hret
      cases hret
    show t.accounting.slotStore.undo p.log = _
    rw [he.slots, Store.drop_undo hout]
    show (p.slots.undo p.log).drop _ = _
    rw [hp.undone, Store.drop_drop, ownedBy_union, Set.union_right_comm]
  chunk := hp.chunk
  extended e hin k hk := by
    have hno : Holder.extension k ∉ ownedBy evicted' := fun hown => by
      have hret := hp.stays _ (he.retained _ hown)
      have hchunk := hp.chunk e hin
      rw [hk] at hchunk
      rw [show (Holder.extension k).owner = k from rfl] at hchunk hret
      rw [hchunk] at hret
      cases hret
    show t.accounting.slotStore.held _ ≠ none ∧ t.accounting.slotStore.note _ ≠ none
    rw [he.slots, Store.drop_held_of_not_mem hno, Store.drop_note_of_not_mem hno]
    exact hp.extended e hin k hk
  had := hp.had

/-- A holder whose key stays keeps what it has. -/
lemma Evicts.kept {s : KVArena κ π} (he : Evicts evicted s t) (hno : s.isRetained h.owner = false) :
    t.accounting.slotStore.held h = s.accounting.slotStore.held h ∧
      t.accounting.slotStore.note h = s.accounting.slotStore.note h := by
  have hout : h ∉ ownedBy evicted := fun hown => by
    rw [he.retained _ hown] at hno
    cases hno
  rw [he.slots, Store.drop_held_of_not_mem hout, Store.drop_note_of_not_mem hout]
  exact ⟨rfl, rfl⟩

/-- One more change, logged: undoing it empties `out`. -/
lemma Undoes.log {e : Entry (Holder κ) ℤ} (hp : Undoes s₀ lost evicted p) (hlog : q.log = e :: p.log)
    (hstep : q.slots.undoOne e = p.slots.drop out) (hno : ∀ e' ∈ p.log, e'.holder ∉ out)
    (howner : s₀.isRetained e.holder.owner = false)
    (hext : ∀ e' ∈ q.log, ∀ k, e'.holder = .extension k →
      q.slots.held (.extension k) ≠ none ∧ q.slots.note (.extension k) ≠ none)
    (hkeys : Retires ∅ p.arena q.arena) (hcore : Core SlotsApart q.arena)
    (hhad : ∀ h ∈ out, s₀.isRetained h.owner = false ∧
      (p.slots.held h ≠ none ∨ p.slots.note h ≠ none)) : Undoes s₀ (lost ∪ out) evicted q where
  toRetires := hp.toRetires.same hkeys
  core := hcore
  undone := by
    rw [hlog, Store.undo_cons, hstep, Store.drop_undo hno, hp.undone, Store.drop_drop, Set.union_assoc]
  chunk e' hin := by
    rw [hlog] at hin
    rcases List.mem_cons.1 hin with rfl | hin
    · exact howner
    · exact hp.chunk e' hin
  extended := hext
  had h hin := by
    rcases hin with hin | hin
    · exact hp.had h hin
    · obtain ⟨hret, hsome⟩ := hhad h hin
      refine ⟨hret, ?_⟩
      -- nothing in the log is about the holder, so it has what it had before the plan
      obtain ⟨hheld, hnote⟩ := @Store.undo_other _ _ _ _ p.slots h _ fun e he heq => hno e he (heq ▸ hin)
      rw [hp.undone] at hheld hnote
      rw [← hheld, ← hnote] at hsome
      by_cases hlost : h ∈ ownedBy evicted ∪ lost
      · rw [Store.drop_held hlost, Store.drop_note hlost] at hsome
        exact absurd hsome (by simp)
      · rwa [Store.drop_held_of_not_mem hlost, Store.drop_note_of_not_mem hlost] at hsome

/-- A note of a logged holder is written. -/
lemma Undoes.write {v : ℤ} (hp : Undoes s₀ lost evicted p) (hlog : q.log = p.log)
    (hslots : q.slots = p.slots.write h (some v)) (hin : ∃ e ∈ p.log, e.holder = h)
    (hkeys : Retires ∅ p.arena q.arena) (hcore : Core SlotsApart q.arena) : Undoes s₀ lost evicted q where
  toRetires := hp.toRetires.same hkeys
  core := hcore
  undone := by rw [hlog, hslots, Store.write_undo hin, hp.undone]
  chunk e he := hp.chunk e (hlog ▸ he)
  extended e he k hk := by
    obtain ⟨hheld, hnote⟩ := hp.extended e (hlog ▸ he) k hk
    rw [hslots]
    refine ⟨hheld, ?_⟩
    by_cases heq : Holder.extension k = h
    · simp [Store.write, heq]
    · rw [Store.write]
      dsimp only
      rwa [Function.update_of_ne heq]
  had := hp.had

/-- The slots and the log are as they were. -/
lemma Undoes.same (hp : Undoes s₀ lost evicted p) (hlog : q.log = p.log) (hslots : q.slots = p.slots)
    (hkeys : Retires ∅ p.arena q.arena) (hcore : Core SlotsApart q.arena) : Undoes s₀ lost evicted q where
  toRetires := hp.toRetires.same hkeys
  core := hcore
  undone := by rw [hlog, hslots, hp.undone]
  chunk e he := hp.chunk e (hlog ▸ he)
  extended e he k hk := hslots ▸ hp.extended e (hlog ▸ he) k hk
  had := hp.had

/-! ## Taking a slot in a plan -/

@[simp] lemma wp_onArena {m : KVOp κ π α} {Q : α → Planning κ π → Prop}
    {E : PyError → Planning κ π → Prop} : wp (onArena m) Q E p ↔
      wp m (fun a arena => Q a { p with arena }) (fun e arena => E e { p with arena }) p.arena := wp_onPart

@[simp] lemma wp_logUndo {u : Undo κ} {Q : Unit → Planning κ π → Prop}
    {E : PyError → Planning κ π → Prop} :
    wp (logUndo u) Q E p ↔ Q () { p with undo := p.undo ++ [u] } := Iff.rfl

@[simp] lemma wp_lay {f : Layout κ → Layout κ} {Q : Unit → Planning κ π → Prop}
    {E : PyError → Planning κ π → Prop} : wp (lay f) Q E p ↔ Q () { p with layout := f p.layout } := Iff.rfl

/-- The plan can be undone, up to what is lost. -/
def Undone (s₀ : KVArena κ π) (lost : Set (Holder κ)) (p : Planning κ π) : Prop :=
  ∃ evicted, Undoes s₀ lost evicted p

lemma Undone.lay {l : Layout κ} (hp : Undone s₀ lost p) : Undone s₀ lost { p with layout := l } := by
  obtain ⟨evicted, hp⟩ := hp
  exact ⟨evicted, hp.same rfl rfl (.of_same rfl (fun _ h => h) rfl rfl rfl) hp.core⟩

/-- A key that was not retained before the plan is not retained now. -/
lemma Undone.stays (hp : Undone s₀ lost p) (hkey : s₀.isRetained key = false) :
    p.arena.isRetained key = false := by
  obtain ⟨_, hp⟩ := hp
  refine Bool.eq_false_iff.2 fun hret => ?_
  rw [hp.stays key hret] at hkey
  cases hkey

variable {middle : Planning κ π}

/-- On the way from `p` to `q` some keys were evicted, up to `middle`, and then the holder got its slot. -/
structure Took (s₀ : KVArena κ π) (lost : Set (Holder κ)) (h : Holder κ) (x : Slot)
    (p middle q : Planning κ π) : Prop where
  undone : Undone s₀ lost middle
  kept : ∀ h', s₀.isRetained h'.owner = false → middle.slots.held h' = p.slots.held h' ∧
    middle.slots.note h' = p.slots.note h'
  before : middle.log = p.log
  takes : Takes h x middle.slots q.slots
  log : q.log = middle.log
  keys : Retires ∅ middle.arena q.arena
  core : Core SlotsApart q.arena

lemma slotEvicting_took {allocate : Op κ π (Option Slot)} (hp : Undone s₀ lost p)
    (hgives : GivesSlot h allocate) (hapart : Preserves SlotsApart allocate) :
    wp (onArena (slotEvicting allocate)) (fun slot q => q.layout = p.layout ∧ match slot with
      | none => Undone s₀ lost q
      | some x => ∃ middle, Took s₀ lost h x p middle q) (fun _ q => Undone s₀ lost q) p := by
  have hstays : ∀ key, s₀.isRetained key = false → p.arena.isRetained key = false := fun _ => hp.stays
  obtain ⟨evicted, hp⟩ := hp
  rw [wp_onArena]
  refine wp_mono (slotEvicting_slots hgives hapart hp.core) ?_ ?_
  · rintro slot s' ⟨evicted', t, hevict, hcore, hslot⟩
    refine ⟨rfl, ?_⟩
    have hmiddle : Undone s₀ lost { p with arena := t } := ⟨_, hp.evict hevict hcore⟩
    cases slot with
    | none =>
      obtain rfl : s' = t := hslot
      exact hmiddle
    | some x =>
      exact ⟨{ p with arena := t }, hmiddle, fun h' hret => hevict.kept (hstays _ hret), rfl, hslot.takes,
        rfl, hslot.keys, hslot.core⟩
  · rintro _ t ⟨hcore, evicted', hevict⟩
    exact ⟨_, hp.evict hevict hcore⟩

lemma log_append {u : Undo κ} : ({ q with undo := q.undo ++ [u] } : Planning κ π).log = u.entry :: q.log := by
  simp [Planning.log]

/-- The taken slot is logged with what its holder had before. -/
lemma Took.logged {u : Undo κ} (ht : Took s₀ lost h x p middle q) (hu : u.entry = p.slots.entry h)
    (howner : s₀.isRetained h.owner = false) (hkind : ∀ k, Holder.extension k ≠ h) :
    Undone s₀ lost { q with undo := q.undo ++ [u] } := by
  obtain ⟨evicted, hmiddle⟩ := ht.undone
  have hentry : u.entry = middle.slots.entry h := by
    rw [hu, Store.entry, Store.entry, (ht.kept h howner).1, (ht.kept h howner).2]
  suffices hlog : Undoes s₀ (lost ∪ ∅) evicted { q with undo := q.undo ++ [u] } by
    rw [Set.union_empty] at hlog
    exact ⟨evicted, hlog⟩
  refine hmiddle.log (log_append.trans (congrArg _ ht.log)) ?_ (fun _ _ => Set.notMem_empty _) ?_ ?_ ht.keys
    ht.core (fun _ hin => absurd hin (Set.notMem_empty _))
  · rw [Store.drop_empty, hentry]
    exact ht.takes.undoOne
  · rw [hentry]
    exact howner
  · intro e he k hk
    have hheld : q.slots.held (.extension k) = middle.slots.held (.extension k) :=
      ht.takes.held_other (hkind k)
    have hnote : q.slots.note (.extension k) = middle.slots.note (.extension k) :=
      congrFun ht.takes.note _
    show q.slots.held _ ≠ none ∧ q.slots.note _ ≠ none
    rw [hheld, hnote]
    rw [log_append, ht.log] at he
    rcases List.mem_cons.1 he with rfl | he
    · rw [hentry] at hk
      exact absurd hk.symm (hkind k)
    · exact hmiddle.extended e he k hk

/-- A holder that has its slot is given it again. -/
lemma Took.again {y : Slot} (ht : Took s₀ lost h x p middle q) (howner : s₀.isRetained h.owner = false)
    (hhad : p.slots.held h = some y) : Undone s₀ lost q := by
  obtain ⟨evicted, hmiddle⟩ := ht.undone
  have hheld := (ht.kept h howner).1.trans hhad
  refine ⟨evicted, hmiddle.same ht.log ?_ ht.keys ht.core⟩
  rcases ht.takes.taken with ⟨hx, hfree⟩ | ⟨hnone, _⟩
  · refine Store.ext ?_ ht.takes.note hfree
    rw [ht.takes.held, ← hx, Function.update_eq_self]
  · rw [hnone] at hheld
    cases hheld

/-! ## The steps of a plan -/

variable {group : ChunkGroup κ} {source : Slot} {tokens : ℤ}

/-- The checkpoint of a key is logged, and it is the slot its questions read. -/
structure Holding (s₀ : KVArena κ π) (lost : Set (Holder κ)) (key : κ) (source : Slot)
    (p : Planning κ π) : Prop where
  undone : Undone s₀ lost p
  slot : p.slots.held (.checkpoint key) = some source
  logged : ∃ e ∈ p.log, e.holder = .checkpoint key

lemma borrowedState_same {Q : Planning κ π → Prop} (hp : Q p) :
    wp (borrowedState group) (fun _ => Q) (fun _ => Q) p := by
  unfold borrowedState
  simp only [wp_ite, wp_pure, wp_bind, wp_get]
  refine ⟨fun _ => hp, fun _ => ?_⟩
  split
  · exact hp
  · simp only [wp_ite, wp_throw, wp_pure]
    exact ⟨fun _ => hp, fun _ => hp⟩

/-- A shared point is logged when its slot is taken now. -/
lemma takeShare_holding (hkey : s₀.isRetained key = false) (hp : Holding s₀ lost key source p) :
    wp (takeShare key tokens) (fun _ => Holding s₀ lost key source) (fun _ => Undone s₀ lost) p := by
  unfold takeShare
  simp only [wp_bind, wp_get]
  refine wp_mono (slotEvicting_took hp.undone allocShare_gives (slotsApart_invariant.allocShare key tokens)) ?_
    (fun _ _ h => h)
  rintro slot q ⟨_, hslot⟩
  cases slot with
  | none => exact hslot
  | some write =>
    obtain ⟨middle, ht⟩ := hslot
    have hother : Holder.checkpoint key ≠ .share key tokens := by rintro ⟨⟩
    have hheld : q.slots.held (.checkpoint key) = some source :=
      (ht.takes.held_other hother).trans ((ht.kept (.checkpoint key) hkey).1.trans hp.slot)
    obtain ⟨e, he, hholder⟩ := hp.logged
    have hqlog : q.log = p.log := ht.log.trans ht.before
    simp only [wp_ite, wp_pure, wp_bind, wp_logUndo]
    refine ⟨fun hexisted => ?_, fun hnew => ?_⟩
    · obtain ⟨y, hy⟩ := Dict.contains_iff.1 hexisted
      exact ⟨ht.again hkey hy, hheld, e, hqlog ▸ he, hholder⟩
    · have hnone : p.slots.held (.share key tokens) = none :=
        Dict.contains_eq_false.1 (Bool.eq_false_iff.2 hnew)
      have hentry : Undo.entry (.share key tokens) = p.slots.entry (.share key tokens) := by
        rw [Store.entry, hnone]
        rfl
      refine ⟨ht.logged hentry hkey (by simp), hheld, e, ?_, hholder⟩
      rw [log_append, hqlog]
      exact List.mem_cons_of_mem _ he

lemma planPieces_holding {pieces : List (ℤ × ℤ)} {read : Option Slot}
    (hkey : s₀.isRetained group.key = false) (hp : Holding s₀ lost group.key source p) :
    wp (planPieces group source pieces read) (fun _ => Holding s₀ lost group.key source)
      (fun _ => Undone s₀ lost) p := by
  induction pieces generalizing p read with
  | nil => exact hp
  | cons piece pieces ih =>
    obtain ⟨low, high⟩ := piece
    rw [planPieces, wp_bind]
    have hwrite : wp (pieceSlot group source high) (fun _ => Holding s₀ lost group.key source)
        (fun _ => Undone s₀ lost) p := by
      rw [pieceSlot, wp_ite]
      exact ⟨fun _ => hp, fun _ => takeShare_holding hkey hp⟩
    refine wp_mono hwrite ?_ (fun _ _ h => h)
    intro write q hq
    simp only [wp_ite, wp_bind, wp_lay]
    exact ⟨fun _ => ih ⟨hq.undone.lay, hq.slot, hq.logged⟩, fun _ => ih hq⟩

/-- The tokens a logged checkpoint covers are recorded. -/
lemma recordCheckpoint_holding (hp : Holding s₀ lost key source p) :
    wp (onArena (recordCheckpoint key tokens)) (fun _ => Holding s₀ lost key source)
      (fun _ => Undone s₀ lost) p := by
  obtain ⟨⟨evicted, hundoes⟩, hslot, hlogged⟩ := hp
  unfold recordCheckpoint
  rw [wp_onArena, wp_onAccounting, wp_modify]
  refine ⟨⟨evicted, hundoes.write (h := .checkpoint key) (v := tokens) rfl ?_ hlogged
    (.of_same rfl (fun _ h => h) rfl rfl rfl) ?_⟩, hslot, hlogged⟩
  · refine store_ext (fun k => ⟨rfl, ?_⟩) (fun k => ⟨rfl, ?_⟩) (fun k n => ⟨rfl, ?_⟩) rfl
    · simp [Planning.slots, PageArena.slotStore, Store.write, Function.update_apply, get?_set_comm]
    · simp [Planning.slots, PageArena.slotStore, Store.write]
    · simp [Planning.slots, PageArena.slotStore, Store.write]
  · exact hundoes.core.onPool hundoes.core.pool fun _ => rfl

lemma planFresh_holding (hkey : s₀.isRetained group.key = false) (hp : Undone s₀ lost p) :
    wp (planFresh group) (fun source => Holding s₀ lost group.key source) (fun _ => Undone s₀ lost) p := by
  unfold planFresh
  simp only [wp_ite, wp_throw, wp_bind, wp_get]
  refine ⟨fun _ => hp, fun _ => ?_⟩
  refine wp_mono (slotEvicting_took hp allocSlot_gives (slotsApart_invariant.allocSlot group.key)) ?_
    (fun _ _ h => h)
  rintro slot q ⟨_, hslot⟩
  cases slot with
  | none => exact hslot
  | some source =>
    obtain ⟨middle, ht⟩ := hslot
    simp only [wp_bind, wp_logUndo]
    refine wp_mono (borrowedState_same (Q := Holding s₀ lost group.key source) ?_) ?_
      (fun _ _ h => h.undone)
    · refine ⟨ht.logged rfl hkey (by simp), ht.takes.held_self, ?_⟩
      rw [log_append]
      exact ⟨_, List.mem_cons_self, rfl⟩
    intro read q hq
    rw [wp_bind]
    refine wp_mono (planPieces_holding hkey hq) ?_ (fun _ _ h => h)
    intro _ q hq
    rw [wp_bind]
    exact wp_mono (recordCheckpoint_holding hq) (fun _ _ h => h) (fun _ _ h => h)

/-- The slot a group's questions start from belongs to its key. -/
def Starts (key : κ) (source : Slot) (p : Planning κ π) : Prop :=
  ∃ h : Holder κ, h.owner = key ∧ p.slots.held h = some source

lemma planResident_starts : wp (planResident group) (fun source q => q = p ∧ Starts group.key source q)
    (fun _ q => q = p) p := by
  unfold planResident
  simp only [wp_bind, wp_get]
  split
  · rfl
  · rename_i source hsource
    simp only [wp_ite, wp_throw, wp_pure]
    refine ⟨fun _ => trivial, fun _ => ⟨trivial, ?_⟩⟩
    split_ifs at hsource with hf
    · exact ⟨.checkpoint group.key, rfl, hsource⟩
    · refine ⟨.extension group.key, rfl, ?_⟩
      unfold KVArena.extension at hsource
      cases hslot : p.arena.accounting.extSlots.get? group.key with
      | none => simp [hslot] at hsource
      | some slot =>
        cases htokens : p.arena.accounting.extTokens.get? group.key with
        | none => simp [hslot, htokens] at hsource
        | some tokens =>
          simp only [hslot, htokens] at hsource
          split_ifs at hsource
          exact hslot.trans hsource

lemma planPrefix_starts (hkey : s₀.isRetained group.key = false) (hp : Undone s₀ lost p) :
    wp (planPrefix group) (fun source q => Undone s₀ lost q ∧ Starts group.key source q)
      (fun _ q => Undone s₀ lost q) p := by
  unfold planPrefix
  simp only [wp_bind, wp_reads, wp_ite]
  refine ⟨fun _ _ => ⟨fun _ => ?_, fun _ => ?_⟩, fun _ _ => hp⟩
  · exact wp_mono (planFresh_holding hkey hp) (fun _ _ h => ⟨h.undone, .checkpoint group.key, rfl, h.slot⟩)
      (fun _ _ h => h)
  · refine wp_mono planResident_starts ?_ ?_
    · rintro _ q ⟨heq, hstarts⟩
      exact ⟨heq ▸ hp, hstarts⟩
    · exact fun _ q heq => heq ▸ hp

lemma extension_eq_some {s : KVArena κ π} {slot : Slot} (h : s.extension key = some (slot, tokens)) :
    s.accounting.extSlots.get? key = some slot ∧ s.accounting.extTokens.get? key = some tokens := by
  unfold KVArena.extension at h
  cases hslot : s.accounting.extSlots.get? key with
  | none => simp [hslot] at h
  | some slot' =>
    cases htokens : s.accounting.extTokens.get? key with
    | none => simp [hslot, htokens] at h
    | some tokens' =>
      simp only [hslot, htokens, Option.some.injEq, Prod.mk.injEq] at h
      rw [h.1, h.2]
      exact ⟨rfl, rfl⟩

lemma targetSlot_took (hp : Undone s₀ lost p) :
    wp (targetSlot key (p.arena.extension key) source) (fun slot q => match slot with
      | none => Undone s₀ lost q
      | some x => ∃ middle, Took s₀ lost (.extension key) x p middle q) (fun _ q => Undone s₀ lost q) p := by
  unfold targetSlot
  rw [wp_ite]
  refine ⟨fun hheld => ?_, fun _ => ?_⟩
  · obtain ⟨⟨slot, tokens⟩, hext, rfl⟩ := Option.map_eq_some_iff.1 hheld
    obtain ⟨_, hundoes⟩ := id hp
    exact ⟨p, hp, fun _ _ => ⟨rfl, rfl⟩, rfl, .refl (extension_eq_some hext).1, rfl,
      .of_same rfl (fun _ h => h) rfl rfl rfl, hundoes.core⟩
  · exact wp_mono (slotEvicting_took hp allocExtension_gives (slotsApart_invariant.allocExtension key))
      (fun _ _ h => h.2) (fun _ _ h => h)

/-- A slot that the key has already was not taken: no slot of the key is free. -/
lemma Took.inPlace (ht : Took s₀ lost h source p middle q) (howner : s₀.isRetained h.owner = false)
    (hsource : Starts h.owner source p) : Undone s₀ lost q := by
  rcases ht.takes.taken with ⟨hx, _⟩ | ⟨_, hfree⟩
  · exact ht.again howner ((ht.kept h howner).1.symm.trans hx)
  · obtain ⟨h', hkey, hheld⟩ := hsource
    obtain ⟨_, hmiddle⟩ := ht.undone
    have hheld' := (ht.kept h' (hkey ▸ howner)).1.trans hheld
    have hin : source ∈ middle.slots.free := hfree ▸ Set.mem_insert source _
    exact absurd hin (hmiddle.core.pool.taken h' source hheld')

/-- The slot the kept tokens advance is taken before it is logged; a plan that raises in between took
none. -/
lemma extensionTarget_took (hkey : s₀.isRetained group.key = false) (hp : Undone s₀ lost p)
    (hsource : Starts group.key source p) : wp (extensionTarget group source)
      (fun r q => (∃ middle, Took s₀ lost (.extension group.key) r.1 p middle q) ∧
        r.2 = (p.arena.extension group.key).map Prod.snd)
      (fun _ q => Undone s₀ lost q) p := by
  unfold extensionTarget
  simp only [wp_bind, wp_get]
  refine wp_mono (targetSlot_took hp) ?_ (fun _ _ h => h)
  intro slot q hslot
  cases slot with
  | none => exact hslot
  | some target =>
    simp only [wp_bind, wp_get, wp_ite, wp_throw, wp_pure]
    refine ⟨?_, fun _ => ⟨hslot, trivial⟩⟩
    rintro ⟨-, heq, -⟩
    obtain ⟨middle, ht⟩ := hslot
    subst heq
    exact ht.inPlace hkey hsource

/-! ## What a group loses -/

/-- The plan lost something new exactly when the condition fails. -/
def Tracks (s₀ : KVArena κ π) (lost : Set (Holder κ)) (c : Prop) (q : Planning κ π) : Prop :=
  ∃ lost', Undone s₀ lost' q ∧ (lost' = ∅ ↔ lost = ∅ ∧ c)

lemma Undone.tracks {c : Prop} (hq : Undone s₀ lost q) (hc : c) : Tracks s₀ lost c q :=
  ⟨lost, hq, (and_iff_left hc).symm⟩

/-- A second checkpoint that is not held with its tokens lacks its slot or its tokens. -/
lemma extension_eq_none {s : KVArena κ π} (h : s.extension key = none) :
    s.accounting.extSlots.get? key = none ∨ s.accounting.extTokens.get? key = none := by
  unfold KVArena.extension at h
  cases hslot : s.accounting.extSlots.get? key with
  | none => exact .inl rfl
  | some slot =>
    cases htokens : s.accounting.extTokens.get? key with
    | none => exact .inr rfl
    | some tokens => simp [hslot, htokens] at h

/-- The second checkpoint after its slot is taken, logged, and its tokens are recorded. -/
structure Extended (key : κ) (previous : Option ℤ) (v : ℤ) (q after : Planning κ π) : Prop where
  log : after.log = (Undo.extension key previous).entry :: q.log
  slots : after.slots = q.slots.write (.extension key) (some v)
  keys : Retires ∅ q.arena after.arena
  core : Core SlotsApart after.arena

variable {previous : Option ℤ} {v : ℤ} {after : Planning κ π}

/-- Undoing the entry empties `out`. -/
lemma Took.extended {out : Set (Holder κ)} (ht : Took s₀ lost (.extension key) x p middle q)
    (hkey : s₀.isRetained key = false) (ha : Extended key previous v q after)
    (hstep : q.slots.undoOne (Undo.extension key previous).entry = middle.slots.drop out)
    (hno : ∀ e ∈ middle.log, e.holder ∉ out)
    (hhad : ∀ h ∈ out, s₀.isRetained h.owner = false ∧
      (middle.slots.held h ≠ none ∨ middle.slots.note h ≠ none)) : Undone s₀ (lost ∪ out) after := by
  obtain ⟨evicted, hmiddle⟩ := ht.undone
  have hlog : after.log = (Undo.extension key previous).entry :: middle.log := ha.log.trans (congrArg _ ht.log)
  refine ⟨evicted, hmiddle.log hlog ?_ hno hkey ?_ (ht.keys.same ha.keys) ha.core hhad⟩
  · rw [ha.slots, ← hstep]
    exact Store.write_undoOne_self
  · intro e he k hk
    rw [ha.slots]
    show q.slots.held (.extension k) ≠ none ∧
      Function.update q.slots.note (.extension key) (some v) (.extension k) ≠ none
    by_cases heq : k = key
    · rw [heq, ht.takes.held_self, Function.update_self]
      exact ⟨nofun, nofun⟩
    · have hne : Holder.extension k ≠ .extension key := fun h => heq (by injection h)
      rw [ht.takes.held_other hne, Function.update_of_ne hne, ht.takes.note]
      rw [hlog] at he
      rcases List.mem_cons.1 he with rfl | he
      · exact absurd hk.symm hne
      · exact hmiddle.extended e he k hk

/-- A second checkpoint that is held with its tokens, or not at all, is restored; a bare one is lost. -/
lemma Took.tracks (ht : Took s₀ lost (.extension key) x p middle q) (hkey : s₀.isRetained key = false)
    (hprevious : previous = (p.arena.extension key).map Prod.snd) (ha : Extended key previous v q after) :
    Tracks s₀ lost (p.Paired key) after := by
  obtain ⟨hheld, hnote⟩ := ht.kept (.extension key) hkey
  -- nothing is lost when undoing the entry gives the slots from before it
  have hkept : q.slots.undoOne (Undo.extension key previous).entry = middle.slots →
      Undone s₀ lost after := by
    intro hstep
    have hundone : Undone s₀ (lost ∪ ∅) after := ht.extended hkey ha (hstep.trans Store.drop_empty.symm)
      (fun _ _ => Set.notMem_empty _) fun _ hin => absurd hin (Set.notMem_empty _)
    rwa [Set.union_empty] at hundone
  cases hext : p.arena.extension key with
  | some ext =>
    obtain ⟨slot, tokens⟩ := ext
    obtain ⟨hslot, htokens⟩ := extension_eq_some hext
    rw [hext] at hprevious
    subst hprevious
    refine (hkept ?_).tracks ?_
    · have hentry : (Undo.extension key (some tokens)).entry = middle.slots.entry (.extension key) := by
        rw [Store.entry, hheld, hnote]
        exact congrArg₂ (Entry.mk _) (congrArg Option.isSome hslot).symm htokens.symm
      exact (congrArg q.slots.undoOne hentry).trans ht.takes.undoOne
    · exact iff_of_false (fun h => by cases hslot.symm.trans h) (fun h => by cases htokens.symm.trans h)
  | none =>
    rw [hext, Option.map_none] at hprevious
    subst hprevious
    have hbare : p.slots.held (.extension key) = none ∨ p.slots.note (.extension key) = none :=
      extension_eq_none hext
    have hempty : q.slots.undoOne (Undo.extension key none).entry = middle.slots.drop {.extension key} :=
      ht.takes.undoOne_empty
    by_cases hpaired : p.Paired key
    · refine (hkept (hempty.trans (Store.drop_nothing ?_ ?_))).tracks hpaired
      · exact hheld.trans (hbare.elim id hpaired.2)
      · exact hnote.trans (hbare.elim hpaired.1 id)
    · refine ⟨lost ∪ {.extension key}, ht.extended hkey ha hempty ?_ ?_, iff_of_false ?_ fun h => hpaired h.2⟩
      · intro e he hin
        obtain ⟨_, hmiddle⟩ := ht.undone
        obtain ⟨hheld', hnote'⟩ := hmiddle.extended e he key hin
        rw [hheld] at hheld'
        rw [hnote] at hnote'
        exact hbare.elim hheld' hnote'
      · rintro h rfl
        refine ⟨hkey, ?_⟩
        rw [hheld, hnote]
        by_contra hnone
        rw [not_or, not_not, not_not] at hnone
        exact hpaired (iff_of_true hnone.1 hnone.2)
      · exact fun hlost => Set.notMem_empty (Holder.extension key)
          (hlost ▸ Or.inr (Set.mem_singleton _))

/-- The kept tokens of a group. -/
lemma extendGroup_tracks (hkey : s₀.isRetained group.key = false) (hp : Undone s₀ lost p)
    (hsource : Starts group.key source p) :
    wp (extendGroup group source)
      (fun _ q => Tracks s₀ lost
        (wp (extensionTarget group source) (fun _ _ => p.Paired group.key) (fun _ _ => True) p) q)
      (fun _ q => Tracks s₀ lost
        (wp (extensionTarget group source) (fun _ _ => p.Paired group.key) (fun _ _ => True) p) q) p := by
  have hspec := extensionTarget_took hkey hp hsource
  unfold extendGroup
  rw [wp_bind]
  cases hres : extensionTarget group source p with
  | error e q =>
    rw [wp_of_error hres] at hspec
    simp only [wp_of_error hres]
    exact hspec.tracks trivial
  | ok r q =>
    rw [wp_of_ok hres] at hspec
    simp only [wp_of_ok hres]
    obtain ⟨target, previous⟩ := r
    obtain ⟨⟨middle, ht⟩, hprevious⟩ := hspec
    simp only [wp_bind, wp_logUndo, wp_onArena, wp_ite, wp_lay]
    unfold recordExtension
    rw [wp_onAccounting, wp_modify]
    have hcore : Core SlotsApart { q.arena with accounting := { q.arena.accounting with
        extTokens := q.arena.accounting.extTokens.set group.key (group.f + group.kept) } } :=
      ht.core.onPool ht.core.pool fun _ => rfl
    have hslots : ({ q.arena.accounting with
        extTokens := q.arena.accounting.extTokens.set group.key (group.f + group.kept) } :
        PageArena κ π).slotStore = q.slots.write (.extension group.key) (some (group.f + group.kept)) := by
      refine store_ext (fun k => ⟨rfl, ?_⟩) (fun k => ⟨rfl, ?_⟩) (fun k n => ⟨rfl, ?_⟩) rfl
      · simp [Planning.slots, PageArena.slotStore, Store.write]
      · simp [Planning.slots, PageArena.slotStore, Store.write, Function.update_apply, get?_set_comm]
      · simp [Planning.slots, PageArena.slotStore, Store.write]
    exact ⟨fun _ => ht.tracks hkey hprevious ⟨log_append, hslots, .of_same rfl (fun _ h => h) rfl rfl rfl, hcore⟩,
      fun _ => ht.tracks hkey hprevious ⟨log_append, hslots, .of_same rfl (fun _ h => h) rfl rfl rfl, hcore⟩⟩

lemma planSuffixes_undone {spans : List (ℤ × ℤ)} :
    Preserves (Undone s₀ lost) (planSuffixes group source spans) := by
  induction spans with
  | nil => exact fun _ hp => hp
  | cons span spans ih =>
    intro p hp
    obtain ⟨begin, stop⟩ := span
    rw [planSuffixes]
    simp only [wp_ite, wp_throw, wp_bind, wp_lay]
    exact ⟨fun _ => hp, fun _ => ih _ hp.lay⟩

lemma planSuffixes_tracks {c : Prop} {spans : List (ℤ × ℤ)} :
    Preserves (Tracks s₀ lost c) (planSuffixes group source spans) := by
  rintro p ⟨lost', hp, hlost⟩
  exact wp_mono (planSuffixes_undone p hp) (fun _ _ h => ⟨lost', h, hlost⟩) fun _ _ h => ⟨lost', h, hlost⟩

/-! ## What a chunk loses -/

/-- When the plan comes to advance a second checkpoint, the checkpoint has a slot and tokens or neither. -/
def ExtendsPaired (group : ChunkGroup κ) (p : Planning κ π) : Prop :=
  wp (planPrefix group) (fun source p' => group.kept ≠ 0 →
    wp (extensionTarget group source) (fun _ _ => p'.Paired group.key) (fun _ _ => True) p')
    (fun _ _ => True) p

/-- Every group that the plan comes to advances a second checkpoint with a slot and tokens or neither. -/
def PlansPaired : List (ChunkGroup κ) → Planning κ π → Prop
  | [], _ => True
  | group :: rest, p => ExtendsPaired group p ∧
    wp (planGroup group) (fun _ p' => PlansPaired rest p') (fun _ _ => True) p

lemma planGroup_tracks (hkey : s₀.isRetained group.key = false) (hp : Undone s₀ lost p) :
    wp (planGroup group) (fun _ q => Tracks s₀ lost (ExtendsPaired group p) q)
      (fun _ q => Tracks s₀ lost (ExtendsPaired group p) q) p := by
  have hspec := planPrefix_starts hkey hp
  unfold planGroup ExtendsPaired
  rw [wp_bind]
  cases hres : planPrefix group p with
  | error e q =>
    rw [wp_of_error hres] at hspec
    simp only [wp_of_error hres]
    exact hspec.tracks trivial
  | ok source q =>
    rw [wp_of_ok hres] at hspec
    simp only [wp_of_ok hres]
    obtain ⟨hq, hsource⟩ := hspec
    rw [wp_ite]
    refine ⟨fun hkept => ?_, fun hkept => ?_⟩
    · exact planSuffixes_tracks q (hq.tracks fun h => absurd hkept h)
    · have hc : ∀ c : Prop, (group.kept ≠ 0 → c) ↔ c := fun c => ⟨fun h => h hkept, fun h _ => h⟩
      simp only [hc]
      rw [wp_bind]
      refine wp_mono (extendGroup_tracks hkey hq hsource) ?_ (fun _ _ h => h)
      intro _ q hq
      rw [wp_ite, wp_pure]
      exact ⟨fun _ => hq, fun _ => planSuffixes_tracks q hq⟩

lemma Tracks.trans {c c' : Prop} {lost' : Set (Holder κ)} (h : lost' = ∅ ↔ lost = ∅ ∧ c)
    (h' : Tracks s₀ lost' c' q) : Tracks s₀ lost (c ∧ c') q := by
  obtain ⟨lost'', hq, hlost⟩ := h'
  exact ⟨lost'', hq, by rw [hlost, h, and_assoc]⟩

lemma planGroups_tracks {groups : List (ChunkGroup κ)} (hkeys : ∀ g ∈ groups, s₀.isRetained g.key = false)
    (hp : Undone s₀ lost p) :
    wp (planGroups groups) (fun _ q => Tracks s₀ lost (PlansPaired groups p) q)
      (fun _ q => Tracks s₀ lost (PlansPaired groups p) q) p := by
  induction groups generalizing p lost with
  | nil => exact hp.tracks trivial
  | cons group groups ih =>
    obtain ⟨hkey, hkeys⟩ := List.forall_mem_cons.1 hkeys
    have hspec := planGroup_tracks hkey hp
    rw [planGroups, wp_bind]
    unfold PlansPaired
    cases hres : planGroup group p with
    | error e q =>
      rw [wp_of_error hres] at hspec
      simp only [wp_of_error hres, and_true]
      exact hspec
    | ok a q =>
      rw [wp_of_ok hres] at hspec
      simp only [wp_of_ok hres]
      obtain ⟨lost', hq, hlost⟩ := hspec
      exact wp_mono (ih hkeys hq) (fun _ _ h => .trans hlost h) fun _ _ h => .trans hlost h

end Quail.Pages
