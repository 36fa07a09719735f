import Quail.Lib.UndoLog
import Quail.Pages.KVCore
import Mathlib.Tactic.Tauto

/-!
# The arena's slots as a store

A checkpoint slot belongs to a key's document-end state, to its second checkpoint or to one of its
shared points, and the first two have a token count beside them. Taking a slot and evicting a retained
key are the two things the arena does to this store on its own.
-/

set_option linter.unusedSectionVars false

namespace Quail.Pages
open Imperative UndoLog

/-- What a checkpoint slot holds the state of. -/
inductive Holder (κ : Type) where
  | checkpoint (key : κ)
  | extension (key : κ)
  | share (key : κ) (tokens : ℤ)
  deriving DecidableEq

/-- The key the state is of. -/
def Holder.owner {κ : Type} : Holder κ → κ
  | checkpoint key => key
  | extension key => key
  | share key _ => key

variable {κ π α : Type} [DecidableEq κ] [ToString κ] [LinearOrder π]

/-- The slots of the arena and their token counts. -/
def PageArena.slotStore (s : PageArena κ π) : Store (Holder κ) Slot ℤ where
  held
    | .checkpoint key => s.slots.get? key
    | .extension key => s.extSlots.get? key
    | .share key tokens => s.shareSlots.get? (key, tokens)
  note
    | .checkpoint key => s.slotTokens.get? key
    | .extension key => s.extTokens.get? key
    | .share _ _ => none
  free := {slot | slot ∈ s.freeSlots}

/-- The key is retained: the current entry of the heap names it. -/
def KVArena.isRetained (s : KVArena κ π) (key : κ) : Bool :=
  s.accounting.retainedVersions.contains key

/-- The holders of some keys. -/
def ownedBy (keys : Finset κ) : Set (Holder κ) := {h | h.owner ∈ keys}

variable {s s' s'' : PageArena κ π} {key k : κ} {tokens : ℤ}

/-! ## Taking a slot -/

/-- The holder got the slot, and nothing but the slots changed. -/
structure Gives (h : Holder κ) (slot : Slot) (s s' : PageArena κ π) : Prop where
  takes : Takes h slot s.slotStore s'.slotStore
  docs : s'.docs = s.docs
  versions : s'.retainedVersions = s.retainedVersions

/-- A program that gives a holder a slot, or leaves the pool as it is. -/
def GivesSlot (h : Holder κ) (m : Op κ π (Option Slot)) : Prop :=
  ∀ s, wp m (fun slot s' => match slot with
    | none => s' = s
    | some slot => Gives h slot s s') (fun _ s' => s' = s) s

/-- The first free slot goes to a holder that has none. -/
lemma takes_head {h : Holder κ} {slot : Slot} {rest : List Slot} {s s' : PageArena κ π}
    (hnone : s.slotStore.held h = none) (hfree : s.freeSlots = slot :: rest)
    (hrest : s'.freeSlots = rest)
    (hheld : s'.slotStore.held = Function.update s.slotStore.held h (some slot))
    (hnote : s'.slotStore.note = s.slotStore.note) : Takes h slot s.slotStore s'.slotStore where
  held := hheld
  note := hnote
  taken := by
    refine .inr ⟨hnone, Set.ext fun x => ?_⟩
    show x ∈ s.freeSlots ↔ x = slot ∨ x ∈ s'.freeSlots
    rw [hfree, hrest, List.mem_cons]

lemma held_allocSlot (slot : Slot) {rest : List Slot} :
    ({ s with slots := s.slots.set key slot, freeSlots := rest } : PageArena κ π).slotStore.held =
      Function.update s.slotStore.held (.checkpoint key) (some slot) := by
  funext h
  cases h with
  | checkpoint k => simp [PageArena.slotStore, Dict.get?_set, Function.update_apply, eq_comm]
  | extension k => simp [PageArena.slotStore]
  | share k t => simp [PageArena.slotStore]

lemma held_allocExtension (slot : Slot) {rest : List Slot} :
    ({ s with extSlots := s.extSlots.set key slot, freeSlots := rest } : PageArena κ π).slotStore.held =
      Function.update s.slotStore.held (.extension key) (some slot) := by
  funext h
  cases h with
  | checkpoint k => simp [PageArena.slotStore]
  | extension k => simp [PageArena.slotStore, Dict.get?_set, Function.update_apply, eq_comm]
  | share k t => simp [PageArena.slotStore]

lemma held_allocShare (slot : Slot) {rest : List Slot} :
    ({ s with shareSlots := s.shareSlots.set (key, tokens) slot, freeSlots := rest } :
      PageArena κ π).slotStore.held =
        Function.update s.slotStore.held (.share key tokens) (some slot) := by
  funext h
  cases h with
  | checkpoint k => simp [PageArena.slotStore]
  | extension k => simp [PageArena.slotStore]
  | share k t => simp [PageArena.slotStore, Dict.get?_set, Function.update_apply, eq_comm]

lemma allocSlot_gives : GivesSlot (.checkpoint key) (allocSlot (π := π) key) := by
  intro s
  unfold allocSlot
  simp only [wp_bind, wp_get, wp_resident]
  refine ⟨fun _ _ => ?_, fun _ => trivial⟩
  split
  case h_1 slot hslot => exact ⟨.refl hslot, rfl, rfl⟩
  case h_2 => rfl
  case h_3 slot rest hnone hfree =>
    exact ⟨takes_head hnone hfree rfl (held_allocSlot slot) rfl, rfl, rfl⟩

lemma allocExtension_gives : GivesSlot (.extension key) (allocExtension (π := π) key) := by
  intro s
  unfold allocExtension
  simp only [wp_bind, wp_get, wp_resident]
  refine ⟨fun _ _ => ?_, fun _ => trivial⟩
  split
  case h_1 slot hslot => exact ⟨.refl hslot, rfl, rfl⟩
  case h_2 => rfl
  case h_3 slot rest hnone hfree =>
    exact ⟨takes_head hnone hfree rfl (held_allocExtension slot) rfl, rfl, rfl⟩

lemma allocShare_gives : GivesSlot (.share key tokens) (allocShare (π := π) key tokens) := by
  intro s
  unfold allocShare
  simp only [wp_bind, wp_get, wp_resident]
  refine ⟨fun _ _ => ?_, fun _ => trivial⟩
  split
  case h_1 slot hslot => exact ⟨.refl hslot, rfl, rfl⟩
  case h_2 => rfl
  case h_3 slot rest hnone hfree =>
    exact ⟨takes_head hnone hfree rfl (held_allocShare slot) rfl, rfl, rfl⟩

/-! ## Freeing a key -/

/-- The shared points of a key. -/
def PageArena.sharePoints (s : PageArena κ π) (key : κ) : List (κ × ℤ) :=
  s.shareSlots.keys.filter fun point => point.1 = key

lemma mem_sharePoints {point : κ × ℤ} :
    point ∈ s.sharePoints key ↔ (∃ slot, s.shareSlots.get? point = some slot) ∧ point.1 = key := by
  rw [PageArena.sharePoints, List.mem_filter, Dict.mem_keys_iff]
  simp

/-- The slots of a key with a slot, a second checkpoint and shared points. -/
lemma exists_ownedBy {x : Slot} : (∃ h ∈ ownedBy {key}, s.slotStore.held h = some x) ↔
    s.slots.get? key = some x ∨ s.extSlots.get? key = some x ∨
      ∃ tokens, s.shareSlots.get? (key, tokens) = some x := by
  constructor
  · rintro ⟨h, hown, hx⟩
    obtain rfl := Finset.mem_singleton.1 hown
    cases h with
    | checkpoint k => exact .inl hx
    | extension k => exact .inr (.inl hx)
    | share k tokens => exact .inr (.inr ⟨tokens, hx⟩)
  · rintro (hx | hx | ⟨tokens, hx⟩)
    · exact ⟨.checkpoint key, Finset.mem_singleton_self key, hx⟩
    · exact ⟨.extension key, Finset.mem_singleton_self key, hx⟩
    · exact ⟨.share key tokens, Finset.mem_singleton_self key, hx⟩

/-- The store after a key's records are gone and its slots are back. -/
lemma slotStore_emptied (hslots : s'.slots = s.slots.erase key)
    (htokens : s'.slotTokens = s.slotTokens.erase key) (hext : s'.extSlots = s.extSlots.erase key)
    (hextTokens : s'.extTokens = s.extTokens.erase key)
    (hshares : s'.shareSlots = (s.sharePoints key).foldl (fun d point => d.erase point) s.shareSlots)
    (hfree : s'.freeSlots = (s.slots.get? key).toList ++ (((s.sharePoints key).filterMap
      s.shareSlots.get?).reverse ++ ((s.extSlots.get? key).toList ++ s.freeSlots))) :
    s'.slotStore = s.slotStore.drop (ownedBy {key}) := by
  have hown : ∀ h : Holder κ, h ∈ ownedBy {key} ↔ key = h.owner := fun h =>
    Finset.mem_singleton.trans eq_comm
  refine Store.ext (funext fun h => ?_) (funext fun h => ?_) (Set.ext fun x => ?_)
  · cases h with
    | checkpoint k => simp only [PageArena.slotStore, Store.drop, hown, hslots, Dict.get?_erase, Holder.owner]
    | extension k => simp only [PageArena.slotStore, Store.drop, hown, hext, Dict.get?_erase, Holder.owner]
    | share k tokens =>
      simp only [PageArena.slotStore, Store.drop, hown, hshares, Dict.get?_foldl_erase, Holder.owner]
      cases hslot : s.shareSlots.get? (k, tokens) with
      | none => rw [ite_self, ite_self]
      | some slot =>
        have hin : (k, tokens) ∈ s.sharePoints key ↔ key = k := mem_sharePoints.trans
          ⟨fun h => h.2.symm, fun h => ⟨⟨slot, hslot⟩, h.symm⟩⟩
        simp only [hin]
  · cases h with
    | checkpoint k =>
      simp only [PageArena.slotStore, Store.drop, hown, htokens, Dict.get?_erase, Holder.owner]
    | extension k =>
      simp only [PageArena.slotStore, Store.drop, hown, hextTokens, Dict.get?_erase, Holder.owner]
    | share k tokens => simp only [PageArena.slotStore, Store.drop, ite_self]
  · have hpoints : (∃ point ∈ s.sharePoints key, s.shareSlots.get? point = some x) ↔
        ∃ tokens, s.shareSlots.get? (key, tokens) = some x := by
      constructor
      · rintro ⟨⟨k, tokens⟩, hin, hx⟩
        obtain rfl := (mem_sharePoints.1 hin).2
        exact ⟨tokens, hx⟩
      · rintro ⟨tokens, hx⟩
        exact ⟨(key, tokens), mem_sharePoints.2 ⟨⟨x, hx⟩, rfl⟩, hx⟩
    rw [Store.mem_drop_free, exists_ownedBy, ← hpoints]
    show x ∈ s'.freeSlots ↔ x ∈ s.freeSlots ∨ _
    rw [hfree]
    simp only [List.mem_append, Option.mem_toList, List.mem_reverse, List.mem_filterMap]
    generalize (∃ point ∈ s.sharePoints key, s.shareSlots.get? point = some x) = shared
    tauto

/-- The store after a second checkpoint is dropped. -/
lemma slotStore_dropExtension : ({ s with
    extSlots := s.extSlots.erase key
    extTokens := s.extTokens.erase key
    freeSlots := (s.extSlots.get? key).toList ++ s.freeSlots } : PageArena κ π).slotStore =
      s.slotStore.drop {.extension key} := by
  refine Store.ext (funext fun h => ?_) (funext fun h => ?_) (Set.ext fun x => ?_)
  · cases h with
    | checkpoint k => simp [PageArena.slotStore, Store.drop]
    | extension k => simp [PageArena.slotStore, Store.drop, Dict.get?_erase, eq_comm]
    | share k tokens => simp [PageArena.slotStore, Store.drop]
  · cases h with
    | checkpoint k => simp [PageArena.slotStore, Store.drop]
    | extension k => simp [PageArena.slotStore, Store.drop, Dict.get?_erase, eq_comm]
    | share k tokens => simp [PageArena.slotStore, Store.drop]
  · rw [Store.mem_drop_free]
    simp [PageArena.slotStore, or_comm]

lemma contains_of_erase {β : Type} {d : Dict κ β} (hk : (d.erase key).contains k = true) :
    d.contains k = true := by
  rw [Dict.contains_erase, Bool.and_eq_true] at hk
  exact hk.1

/-- The key's slots go free, and its records go. -/
lemma freeKey_slots : wp (freeKey key)
    (fun _ s' => s'.slotStore = s.slotStore.drop (ownedBy {key}) ∧ s'.docs = s.docs.erase key ∧
      ∀ k, s'.retainedVersions.contains k = true → s.retainedVersions.contains k = true)
    (fun _ _ => s.docs.get? key = none) s := by
  unfold freeKey dropExtension dropShares
  simp only [wp_bind, wp_get, wp_resident, wp_modify, wp_releasePages, wp_forgetRetained]
  exact ⟨fun _ _ => ⟨slotStore_emptied rfl rfl rfl rfl rfl rfl, rfl, fun _ => contains_of_erase⟩,
    fun hnone => hnone⟩

/-- The victim was retained; only the retained keys change. -/
lemma popRetainedVictim_slots {keep : Finset κ} : wp (popRetainedVictim keep)
    (fun victim s' => s'.slotStore = s.slotStore ∧ s'.docs = s.docs ∧
      (∀ k, s'.retainedVersions.contains k = true → s.retainedVersions.contains k = true) ∧
      ∀ v, victim = some v → s.retainedVersions.contains v.1 = true)
    (fun _ _ => False) s := by
  have hsearch := victimSearch_spec s.retainedVersions keep s.retainedHeap [] le_rfl
  unfold popRetainedVictim
  simp only [wp_bind, wp_get, wp_set]
  generalize victimSearch s.retainedVersions keep s.retainedHeap.length s.retainedHeap [] = found
    at hsearch ⊢
  obtain ⟨victim, heap⟩ := found
  cases victim with
  | none => exact ⟨rfl, rfl, fun _ h => h, fun v hv => by cases hv⟩
  | some e =>
    refine ⟨rfl, rfl, fun _ => contains_of_erase, fun v hv => ?_⟩
    obtain rfl := Option.some.inj hv
    exact Dict.contains_iff.2 ⟨e.version, (hsearch.least e rfl).2.1⟩

/-! ## Slots are apart -/

/-- A slot is free or belongs to one holder. -/
structure Apart {η : Type} (free : List Slot) (held : η → Option Slot) : Prop where
  nodup : free.Nodup
  taken : ∀ h x, held h = some x → x ∉ free
  one : ∀ h h' x, held h = some x → held h' = some x → h = h'

/-- The slots of the pool are apart. -/
def SlotsApart (s : PageArena κ π) : Prop := Apart s.freeSlots s.slotStore.held

lemma Apart.take {η : Type} [DecidableEq η] {held held' : η → Option Slot} {h : η} {x : Slot}
    {rest : List Slot} (ha : Apart (x :: rest) held) (hheld : held' = Function.update held h (some x)) :
    Apart rest held' := by
  obtain ⟨hx, hrest⟩ := List.nodup_cons.1 ha.nodup
  subst hheld
  refine ⟨hrest, fun k y hy => ?_, fun k k' y hy hy' => ?_⟩
  · rw [Function.update_apply] at hy
    split_ifs at hy with hk
    · exact Option.some.inj hy ▸ hx
    · exact fun hin => ha.taken k y hy (List.mem_cons_of_mem _ hin)
  · have hfresh : ∀ k, held k = some x → False := fun k hk => ha.taken k x hk List.mem_cons_self
    rw [Function.update_apply] at hy hy'
    split_ifs at hy hy' with hk hk' hk'
    · rw [hk, hk']
    · exact (hfresh k' (hy'.trans hy.symm)).elim
    · exact (hfresh k (hy.trans hy'.symm)).elim
    · exact ha.one k k' y hy hy'

/-- Holders that give their slots back leave the others apart. -/
lemma Apart.giveBack {η : Type} {held held' : η → Option Slot} {free back : List Slot}
    (ha : Apart free held) (hheld : ∀ h x, held' h = some x → held h = some x ∧ x ∉ back)
    (hback : back.Nodup) (hgiven : ∀ x ∈ back, ∃ h, held h = some x) : Apart (back ++ free) held' where
  nodup := by
    refine List.nodup_append.2 ⟨hback, ha.nodup, fun x hx y hy heq => ?_⟩
    obtain ⟨h, hh⟩ := hgiven x hx
    exact ha.taken h x hh (heq ▸ hy)
  taken h x hx hin := by
    obtain ⟨hh, hno⟩ := hheld h x hx
    rcases List.mem_append.1 hin with hin | hin
    · exact hno hin
    · exact ha.taken h x hh hin
  one h h' x hx hx' := ha.one h h' x (hheld h x hx).1 (hheld h' x hx').1

/-- The slots of a key are different. -/
lemma SlotsApart.nodup (ha : SlotsApart s) : ((s.slots.get? key).toList ++ (((s.sharePoints key).filterMap
    s.shareSlots.get?).reverse ++ (s.extSlots.get? key).toList)).Nodup := by
  have hshare : ∀ x, x ∈ ((s.sharePoints key).filterMap s.shareSlots.get?).reverse →
      ∃ tokens, s.slotStore.held (.share key tokens) = some x := by
    intro x hx
    obtain ⟨⟨k, tokens⟩, hin, hslot⟩ := List.mem_filterMap.1 (List.mem_reverse.1 hx)
    obtain rfl := (mem_sharePoints.1 hin).2
    exact ⟨tokens, hslot⟩
  have hdiff : ∀ {h h' : Holder κ} {x y : Slot}, s.slotStore.held h = some x →
      s.slotStore.held h' = some y → h ≠ h' → x ≠ y := fun hx hy hne heq =>
    hne (ha.one _ _ _ hx (heq ▸ hy))
  refine List.nodup_append.2 ⟨Option.toList_nodup _, List.nodup_append.2 ⟨List.nodup_reverse.2 ?_,
    Option.toList_nodup _, fun x hx y hy => ?_⟩, fun x hx y hy => ?_⟩
  · refine List.Nodup.filterMap ?_ (s.shareSlots.nodup.filter _)
    intro point point' x hx hx'
    have heq := ha.one (.share point.1 point.2) (.share point'.1 point'.2) x hx hx'
    injection heq with hk ht
    exact Prod.ext hk ht
  · obtain ⟨tokens, hslot⟩ := hshare x hx
    have hy : s.slotStore.held (.extension key) = some y := Option.mem_toList.1 hy
    exact hdiff hslot hy nofun
  · have hx : s.slotStore.held (.checkpoint key) = some x := Option.mem_toList.1 hx
    rcases List.mem_append.1 hy with hy | hy
    · obtain ⟨tokens, hslot⟩ := hshare y hy
      exact hdiff hx hslot nofun
    · have hy : s.slotStore.held (.extension key) = some y := Option.mem_toList.1 hy
      exact hdiff hx hy nofun

/-- After a key's records are gone and its slots are back. -/
lemma Apart.emptied (ha : SlotsApart s) (hstore : s'.slotStore = s.slotStore.drop (ownedBy {key}))
    (hfree : s'.freeSlots = (s.slots.get? key).toList ++ (((s.sharePoints key).filterMap
      s.shareSlots.get?).reverse ++ ((s.extSlots.get? key).toList ++ s.freeSlots))) : SlotsApart s' := by
  have hgiven : ∀ x, x ∈ (s.slots.get? key).toList ++ (((s.sharePoints key).filterMap
      s.shareSlots.get?).reverse ++ (s.extSlots.get? key).toList) →
      ∃ h ∈ ownedBy {key}, s.slotStore.held h = some x := by
    intro x hx
    rw [exists_ownedBy]
    simp only [List.mem_append, Option.mem_toList, List.mem_reverse, List.mem_filterMap] at hx
    rcases hx with hx | ⟨⟨k, tokens⟩, hin, hx⟩ | hx
    · exact .inl hx
    · obtain rfl := (mem_sharePoints.1 hin).2
      exact .inr (.inr ⟨tokens, hx⟩)
    · exact .inr (.inl hx)
  rw [SlotsApart, hstore, hfree, ← List.append_assoc, ← List.append_assoc]
  refine ha.giveBack (fun h x hx => ?_) ?_ ?_
  · by_cases hown : h ∈ ownedBy {key}
    · rw [Store.drop_held hown] at hx
      cases hx
    · rw [Store.drop_held_of_not_mem hown] at hx
      refine ⟨hx, fun hin => ?_⟩
      rw [List.append_assoc] at hin
      obtain ⟨h', hown', hx'⟩ := hgiven x hin
      exact hown (ha.one _ _ _ hx hx' ▸ hown')
  · rw [List.append_assoc]
    exact SlotsApart.nodup ha
  · intro x hin
    rw [List.append_assoc] at hin
    obtain ⟨h, _, hx⟩ := hgiven x hin
    exact ⟨h, hx⟩

/-- A program that gives a slot keeps the others apart, as long as it takes the first free one. -/
lemma takes_apart {h : Holder κ} {slot : Slot} {rest : List Slot} (ha : SlotsApart s)
    (hfree : s.freeSlots = slot :: rest) (hrest : s'.freeSlots = rest)
    (hheld : s'.slotStore.held = Function.update s.slotStore.held h (some slot)) : SlotsApart s' := by
  rw [SlotsApart, hrest]
  exact Apart.take (hfree ▸ ha) hheld

lemma retain_apart {priority : Option π} : Preserves SlotsApart (retain key priority) := by
  intro s h
  unfold retain
  simp only [wp_bind, wp_get, wp_set, wp_resident, wp_modify, wp_forgetRetained, wp_retentionPriority]
  exact ⟨fun _ _ => ⟨fun _ _ => h, fun _ _ _ => h, fun _ _ _ => h⟩, fun _ => h⟩

lemma appendPages_apart {given : List (κ × Page)} : Preserves SlotsApart (appendPages (π := π) given) := by
  induction given with
  | nil => exact fun _ h => h
  | cons e given ih =>
    intro s h
    rw [appendPages]
    simp only [wp_bind, wp_resident, wp_modify]
    exact ⟨fun _ _ => ih _ h, fun _ => h⟩

/-- Every operation of a pool keeps the slots apart. -/
lemma slotsApart_invariant : PoolInvariant (SlotsApart (κ := κ) (π := π)) where
  alloc key tokens capacity borrowed s h hlent := by
    unfold alloc
    simp only [wp_bind, wp_get, wp_ite, wp_throw, wp_pure, wp_needed, wp_set]
    exact ⟨fun _ => h, fun _ => ⟨fun _ => h, fun _ => ⟨fun _ => h, fun _ => ⟨fun _ => h, fun _ =>
      ⟨fun _ => h, fun _ => h⟩⟩⟩⟩⟩
  freeKey key s h := by
    unfold freeKey dropExtension dropShares
    simp only [wp_bind, wp_get, wp_resident, wp_modify, wp_releasePages, wp_forgetRetained]
    have hempty : SlotsApart { s with
      slots := s.slots.erase key
      slotTokens := s.slotTokens.erase key
      extSlots := s.extSlots.erase key
      extTokens := s.extTokens.erase key
      shareSlots := (s.sharePoints key).foldl (fun d point => d.erase point) s.shareSlots
      freeSlots := (s.slots.get? key).toList ++ (((s.sharePoints key).filterMap
        s.shareSlots.get?).reverse ++ ((s.extSlots.get? key).toList ++ s.freeSlots)) } :=
      Apart.emptied h (slotStore_emptied rfl rfl rfl rfl rfl rfl) rfl
    exact ⟨fun _ _ => hempty, fun _ => hempty⟩
  pin key s h := by
    unfold pin
    simp only [wp_bind, wp_resident, wp_modify, wp_forgetRetained]
    exact ⟨fun _ _ => h, fun _ => h⟩
  retain _ _ := retain_apart
  popRetainedVictim keep s h := by
    unfold popRetainedVictim
    simp only [wp_bind, wp_get, wp_set]
    generalize victimSearch s.retainedVersions keep s.retainedHeap.length s.retainedHeap [] = found
    obtain ⟨victim, heap⟩ := found
    cases victim <;> exact h
  rewind key tokens s h := by
    unfold rewind
    simp only [wp_bind, wp_get, wp_resident, wp_ite, wp_throw, wp_needed, wp_set, wp_releasePages]
    exact ⟨fun _ _ => ⟨fun _ => h, fun _ => ⟨fun _ => h, fun _ => ⟨fun _ => retain_apart _ h, fun _ => h⟩⟩⟩,
      fun _ => h⟩
  grow key capacity s h := by
    unfold grow
    simp only [wp_bind, wp_get, wp_ite, wp_resident, wp_needed, wp_pure, wp_set]
    exact ⟨fun _ _ => ⟨fun _ => h, fun _ => ⟨fun _ => h, fun _ => ⟨fun _ => h, fun _ => h⟩⟩⟩, fun _ => h⟩
  growPages keys s h _ := by
    unfold growPages
    simp only [wp_bind, wp_get, wp_ite, wp_pure, wp_set]
    exact ⟨fun _ => h, fun _ => appendPages_apart _ h⟩
  dropLeading key pages s h := by
    unfold dropLeading
    simp only [wp_bind, wp_resident, wp_modify, wp_releasePages]
    exact ⟨fun _ _ => h, fun _ => h⟩
  setTokens key tokens s h := by
    unfold setTokens
    simp only [wp_bind, wp_resident, wp_modify]
    exact ⟨fun _ _ => h, fun _ => h⟩
  allocSlot key s h := by
    unfold allocSlot
    simp only [wp_bind, wp_get, wp_resident]
    refine ⟨fun _ _ => ?_, fun _ => h⟩
    split
    case h_1 => exact h
    case h_2 => exact h
    case h_3 slot rest hnone hfree => exact takes_apart h hfree rfl (held_allocSlot slot)
  allocExtension key s h := by
    unfold allocExtension
    simp only [wp_bind, wp_get, wp_resident]
    refine ⟨fun _ _ => ?_, fun _ => h⟩
    split
    case h_1 => exact h
    case h_2 => exact h
    case h_3 slot rest hnone hfree => exact takes_apart h hfree rfl (held_allocExtension slot)
  allocShare key tokens s h := by
    unfold allocShare
    simp only [wp_bind, wp_get, wp_resident]
    refine ⟨fun _ _ => ?_, fun _ => h⟩
    split
    case h_1 => exact h
    case h_2 => exact h
    case h_3 slot rest hnone hfree => exact takes_apart h hfree rfl (held_allocShare slot)
  dropExtension key s h := by
    unfold dropExtension
    rw [wp_modify, SlotsApart, slotStore_dropExtension]
    refine Apart.giveBack h (fun k x hx => ?_) (Option.toList_nodup _) fun x hx =>
      ⟨.extension key, Option.mem_toList.1 hx⟩
    by_cases hk : k = .extension key
    · have hlost : (s.slotStore.drop {.extension key}).held k = none := Store.drop_held hk
      rw [hlost] at hx
      cases hx
    · have hkept : (s.slotStore.drop {.extension key}).held k = s.slotStore.held k :=
        Store.drop_held_of_not_mem hk
      rw [hkept] at hx
      exact ⟨hx, fun hin => hk (h.one k (.extension key) x hx (Option.mem_toList.1 hin))⟩
  record _ _ _ h := h

/-! ## Evicting -/

/-- Some retained keys left, and nothing else happened to the keys. -/
structure Retires (evicted : Finset κ) (s s' : KVArena κ π) : Prop where
  retained : ∀ k ∈ evicted, s.isRetained k = true
  gone : ∀ k ∈ evicted, s'.isResident k = false
  absent : ∀ k, s.isResident k = false → s'.isResident k = false
  stays : ∀ k, s'.isRetained k = true → s.isRetained k = true
  holds : s'.holds = s.holds
  reading : s'.reading = s.reading
  deferred : s'.deferred = s.deferred

/-- Some retained keys were evicted, and their slots are free. -/
structure Evicts (evicted : Finset κ) (s s' : KVArena κ π) : Prop extends Retires evicted s s' where
  slots : s'.accounting.slotStore = s.accounting.slotStore.drop (ownedBy evicted)

section Evicting

variable {s s' s'' : KVArena κ π} {evicted evicted' : Finset κ}

/-- The keys are as they were. -/
lemma Retires.of_same (hdocs : s'.accounting.docs = s.accounting.docs)
    (hstays : ∀ k, s'.isRetained k = true → s.isRetained k = true) (hholds : s'.holds = s.holds)
    (hreading : s'.reading = s.reading) (hdeferred : s'.deferred = s.deferred) : Retires ∅ s s' where
  retained k hk := absurd hk (Finset.notMem_empty k)
  gone k hk := absurd hk (Finset.notMem_empty k)
  absent k hk := by
    rw [KVArena.isResident, hdocs]
    exact hk
  stays := hstays
  holds := hholds
  reading := hreading
  deferred := hdeferred

lemma Retires.trans (h : Retires evicted s s') (h' : Retires evicted' s' s'') :
    Retires (evicted ∪ evicted') s s'' where
  retained k hk := by
    rcases Finset.mem_union.1 hk with hk | hk
    · exact h.retained k hk
    · exact h.stays k (h'.retained k hk)
  gone k hk := by
    rcases Finset.mem_union.1 hk with hk | hk
    · exact h'.absent k (h.gone k hk)
    · exact h'.gone k hk
  absent k hk := h'.absent k (h.absent k hk)
  stays k hk := h.stays k (h'.stays k hk)
  holds := h'.holds.trans h.holds
  reading := h'.reading.trans h.reading
  deferred := h'.deferred.trans h.deferred

lemma Retires.same (h : Retires evicted s s') (h' : Retires ∅ s' s'') : Retires evicted s s'' :=
  (Finset.union_empty evicted) ▸ h.trans h'

lemma ownedBy_empty : ownedBy (∅ : Finset κ) = ∅ :=
  Set.eq_empty_of_forall_notMem fun h => Finset.notMem_empty h.owner

lemma ownedBy_union : ownedBy (evicted ∪ evicted') = ownedBy evicted ∪ ownedBy evicted' :=
  Set.ext fun _ => Finset.mem_union

lemma Retires.evicts (h : Retires ∅ s s') (hslots : s'.accounting.slotStore = s.accounting.slotStore) :
    Evicts ∅ s s' where
  toRetires := h
  slots := by rw [hslots, ownedBy_empty, Store.drop_empty]

lemma Evicts.refl : Evicts ∅ s s := Retires.evicts (.of_same rfl (fun _ h => h) rfl rfl rfl) rfl

lemma Evicts.trans (h : Evicts evicted s s') (h' : Evicts evicted' s' s'') :
    Evicts (evicted ∪ evicted') s s'' where
  toRetires := h.toRetires.trans h'.toRetires
  slots := by rw [h'.slots, h.slots, Store.drop_drop, ownedBy_union]

/-- The accounting is as it was. -/
lemma Evicts.of_accounting (hacc : s'.accounting = s.accounting) (hholds : s'.holds = s.holds)
    (hreading : s'.reading = s.reading) (hdeferred : s'.deferred = s.deferred) : Evicts ∅ s s' :=
  Retires.evicts (.of_same (hacc ▸ rfl) (fun k hk => by rwa [KVArena.isRetained, hacc] at hk) hholds hreading
    hdeferred) (hacc ▸ rfl)

/-- The key left the every-token pool. -/
structure Leaves (key : κ) (s s' : KVArena κ π) : Prop where
  slots : s'.accounting.slotStore = s.accounting.slotStore.drop (ownedBy {key})
  docs : s'.accounting.docs = s.accounting.docs.erase key
  stays : ∀ k, s'.isRetained k = true → s.isRetained k = true
  holds : s'.holds = s.holds
  reading : s'.reading = s.reading
  deferred : s'.deferred = s.deferred

/-- A resident key that is not in use leaves, unless its row indices are missing. -/
lemma kvFreeKey_slots (hno : ¬s.InUse key) (hres : s.isResident key = true) :
    wp (KVArena.freeKey key) (fun _ s' => Leaves key s s') (fun _ s' => Evicts ∅ s s') s := by
  unfold KVArena.freeKey
  simp only [wp_bind, wp_get, wp_ite, wp_set, wp_pure, wp_modify, wp_lookup, wp_discard, wp_onSliding,
    wp_onAccounting]
  have hraise : ∀ s' : KVArena κ π, s'.accounting = s.accounting → s'.holds = s.holds →
      s'.reading = s.reading → s'.deferred = s.deferred → Evicts ∅ s s' :=
    fun _ => .of_accounting
  have hnone : s.accounting.docs.get? key ≠ none := fun hnone =>
    Bool.false_ne_true ((Dict.contains_eq_false.2 hnone).symm.trans hres)
  refine ⟨fun huse => absurd huse hno, fun _ => ⟨fun _ _ => ⟨fun _ _ => ⟨fun _ => ?_, fun pool hpool => ?_⟩,
    fun _ => hraise _ rfl rfl rfl rfl⟩, fun _ => hraise _ rfl rfl rfl rfl⟩⟩
  · refine wp_mono freeKey_slots ?_ fun _ _ hno => absurd hno hnone
    rintro _ accounting ⟨hslots, hdocs, hstays⟩
    exact ⟨hslots, hdocs, hstays, rfl, rfl, rfl⟩
  · refine wp_mono freeKey_slots (fun _ p' _ => ?_) fun _ _ _ => hraise _ rfl rfl rfl rfl
    refine wp_mono freeKey_slots ?_ fun _ _ hno => absurd hno hnone
    rintro _ accounting ⟨hslots, hdocs, hstays⟩
    exact ⟨hslots, hdocs, hstays, rfl, rfl, rfl⟩

lemma evictKey_slots (hno : ¬s.InUse key) :
    wp (evictKey key) (fun _ s' => Leaves key s s') (fun _ s' => Evicts ∅ s s') s := by
  unfold evictKey
  simp only [wp_bind, wp_onAccounting, wp_resident]
  refine ⟨fun r hr => ?_, fun _ => .refl⟩
  refine wp_mono (kvFreeKey_slots hno (Dict.contains_iff.2 ⟨r, hr⟩)) ?_ (fun _ _ h => h)
  exact fun _ s' h => ⟨h.slots, h.docs, h.stays, h.holds, h.reading, h.deferred⟩

/-- Each turn evicts one retained key, and none that is held or read. -/
lemma evictTurns_evicts {satisfied : KVArena κ π → Except PyError Bool} {keep : Finset κ} {turns : ℕ}
    {keys : List κ} (hkeep : ∀ k, k ∈ keep ↔ s.InUse k) :
    wp (evictTurns satisfied keep turns keys) (fun _ s' => ∃ evicted, Evicts evicted s s')
      (fun _ s' => ∃ evicted, Evicts evicted s s') s := by
  induction turns generalizing s keys with
  | zero => exact ⟨∅, .refl⟩
  | succ turns ih =>
    rw [evictTurns]
    simp only [wp_bind, wp_reads, wp_ite, wp_pure, wp_onAccounting]
    refine ⟨fun _ _ => ⟨fun _ => ⟨∅, .refl⟩, fun _ => ?_⟩, fun _ _ => ⟨∅, .refl⟩⟩
    refine wp_mono (wp_and popRetainedVictim_slots popRetainedVictim_docs) ?_ (fun _ _ h => h.1.elim)
    rintro victim accounting ⟨⟨hslots, hdocs, hstays, hvictim⟩, _, hout⟩
    have hpop : Evicts ∅ s { s with accounting } :=
      Retires.evicts (.of_same hdocs hstays rfl rfl rfl) hslots
    cases victim with
    | none => exact ⟨∅, hpop⟩
    | some victim =>
      obtain ⟨key, pages, tokens⟩ := victim
      simp only [wp_bind, wp_discard]
      have hno : ¬({ s with accounting } : KVArena κ π).InUse key := fun huse =>
        hout _ rfl ((hkeep key).2 huse)
      refine wp_mono (evictKey_slots hno) ?_ (fun _ s' h => ⟨_, hpop.trans h⟩)
      intro _ s' hleft
      have hevict : Evicts {key} s s' := by
        refine ⟨⟨fun k hk => ?_, fun k hk => ?_, fun k hk => ?_, fun k hk => hstays k (hleft.stays k hk),
          hleft.holds, hleft.reading, hleft.deferred⟩, ?_⟩
        · obtain rfl := Finset.mem_singleton.1 hk
          exact hvictim _ rfl
        · obtain rfl := Finset.mem_singleton.1 hk
          rw [KVArena.isResident, hleft.docs]
          simp [Dict.contains_erase]
        · rw [KVArena.isResident, hleft.docs, Dict.contains_erase]
          have habsent : accounting.docs.contains k = false := (congrArg (·.contains k) hdocs).trans hk
          simp [habsent]
        · rw [hleft.slots]
          exact congrArg (Store.drop · (ownedBy {key})) hslots
      refine wp_mono (ih fun k => (hkeep k).trans ?_) ?_ ?_
      · rw [KVArena.InUse, KVArena.InUse, KVArena.isHeld, KVArena.isHeld, KVArena.isRead, KVArena.isRead,
          hevict.holds, hevict.reading]
      · rintro _ _ ⟨evicted, h⟩
        exact ⟨_, hevict.trans h⟩
      · rintro _ _ ⟨evicted, h⟩
        exact ⟨_, hevict.trans h⟩

lemma evictUntil_evicts {satisfied : KVArena κ π → Except PyError Bool} :
    wp (evictUntil satisfied) (fun _ s' => ∃ evicted, Evicts evicted s s')
      (fun _ s' => ∃ evicted, Evicts evicted s s') s := by
  unfold evictUntil
  rw [wp_bind, wp_get]
  exact evictTurns_evicts fun _ => KVArena.mem_keep

/-- A holder has got its slot, and only the slots of the arena changed. -/
structure GivesKey (h : Holder κ) (slot : Slot) (s s' : KVArena κ π) : Prop where
  takes : Takes h slot s.accounting.slotStore s'.accounting.slotStore
  keys : Retires ∅ s s'
  core : Core SlotsApart s'

/-- A holder gets a slot once some keys are evicted, or every slot is in use. -/
lemma slotEvicting_slots {h : Holder κ} {allocate : Op κ π (Option Slot)} (hgives : GivesSlot h allocate)
    (hapart : Preserves SlotsApart allocate) (hcore : Core SlotsApart s) :
    wp (slotEvicting allocate) (fun slot s' => ∃ evicted t, Evicts evicted s t ∧ Core SlotsApart t ∧
      match slot with
      | none => s' = t
      | some slot => GivesKey h slot t s')
    (fun _ s' => Core SlotsApart s' ∧ ∃ evicted, Evicts evicted s s') s := by
  have hgiven : ∀ {s : KVArena κ π} {slot accounting}, Core SlotsApart s → SlotsApart accounting →
      Gives h slot s.accounting accounting → GivesKey h slot s { s with accounting } := by
    intro s slot accounting hcore hapart hslot
    refine ⟨hslot.takes, .of_same hslot.docs (fun k hk => ?_) rfl rfl rfl,
      hcore.onPool hapart fun k => congrArg (·.contains k) hslot.docs⟩
    exact (congrArg (·.contains k) hslot.versions).symm.trans hk
  unfold slotEvicting
  rw [wp_bind, wp_onAccounting]
  refine wp_mono (wp_and (hgives _) (hapart _ hcore.pool)) ?_ ?_
  · rintro slot accounting ⟨hslot, hpool⟩
    cases slot with
    | some slot => exact ⟨∅, s, .refl, hcore, hgiven hcore hpool hslot⟩
    | none =>
      have hsame : ({ s with accounting } : KVArena κ π) = s := by rw [hslot]
      rw [hsame]
      simp only [wp_bind, wp_discard]
      refine wp_mono (wp_and evictUntil_evicts (evictUntil_spec slotsApart_invariant hcore)) ?_
        (fun _ _ h => ⟨h.2.1, h.1⟩)
      rintro _ t ⟨⟨evicted, hevict⟩, hcore', _⟩
      rw [wp_onAccounting]
      refine wp_mono (wp_and (hgives _) (hapart _ hcore'.pool)) ?_ ?_
      · rintro slot accounting ⟨hslot, hpool⟩
        refine ⟨evicted, t, hevict, hcore', ?_⟩
        cases slot with
        | some slot => exact hgiven hcore' hpool hslot
        | none => rw [hslot]
      · rintro _ accounting ⟨hslot, _⟩
        rw [hslot]
        exact ⟨hcore', evicted, hevict⟩
  · rintro _ accounting ⟨hslot, _⟩
    rw [hslot]
    exact ⟨hcore, ∅, .refl⟩

end Evicting

end Quail.Pages
