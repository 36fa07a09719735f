import Quail.Pages.Moves
import Quail.Pages.PlanUndo

/-!
# Runs of the arena

What holds after any calls of an arena of two pools, in any order and with any arguments, refused and raising
calls included: a key that was asked to go is in use, and a key in use keeps its pages, whose table only its own
`retain` shortens (`KVArena.reached_inUse`); every checkpoint slot is free or belongs to one resident key, for
one purpose (`KVArena.reached_slots`).
-/

set_option linter.unusedSectionVars false

namespace Quail.Pages
open Imperative Relation UndoLog

variable {κ π δ α : Type} [DecidableEq κ] [ToString κ] [LinearOrder π]
variable {rewinds : κ → Prop} {s s' : KVArena κ π} {key k : κ} {isPair : κ → Bool}

/-- A call counts holds and readers, then moves. -/
lemma KVCall.step_moves (c : KVCall κ π δ) : CallMoves c.rewinds s (KVCall.step isPair s c) :=
  final_of_wp (c.perform_calls s .refl)

/-- What new holds and readers keep, and every move keeps, a call keeps. -/
lemma CallMoves.invariant {I : KVArena κ π → Prop} (h : CallMoves rewinds s s')
    (henters : ∀ s s', Enters s s' → I s → I s') (hmove : ∀ s s', Move rewinds s s' → I s → I s') (hs : I s) :
    I s' := by
  obtain ⟨t, hcount, hmoves⟩ := h
  have ht := henters s t hcount hs
  clear hcount
  induction hmoves with
  | refl => exact ht
  | tail _ hlast ih => exact hmove _ _ hlast ih

/-! ## Waiting frees -/

/-- Every key that was asked to go is in use. -/
def KVArena.Waits (s : KVArena κ π) : Prop := ∀ k ∈ s.deferred, s.InUse k

lemma Enters.waits (h : Enters s s') (hs : s.Waits) : s'.Waits := by
  intro k hk
  rw [h.deferred] at hk
  exact h.inUse k (hs k hk)

lemma Move.waits (h : Move rewinds s s') (hs : s.Waits) : s'.Waits := by
  cases h with
  | pool => exact hs
  | beside _ hholds hreading hdeferred =>
    intro k hk
    rw [hdeferred] at hk
    exact (inUse_congr hholds hreading).2 (hs k hk)
  | free => exact hs
  | defer key huse =>
    intro k hk
    rcases Finset.mem_insert.1 hk with rfl | hk
    · exact huse
    · exact hs k hk
  | alloc => exact hs
  | allocUndone => exact hs
  | leave _ hwaits => exact fun k hk => (hwaits k hk).2 (hs k (hwaits k hk).1)

lemma KVCall.step_waits {c : KVCall κ π δ} (hs : s.Waits) : (KVCall.step isPair s c).Waits :=
  c.step_moves.invariant (fun _ _ h => h.waits) (fun _ _ h => h.waits) hs

/-! ## Keys in use -/

/-- The key's table starts with these pages. -/
def PageArena.Starts (s : PageArena κ π) (key : κ) (pages : List Page) : Prop :=
  ∃ r, s.docs.get? key = some r ∧ pages <+: r.table

section Tables
variable {s s' : PageArena κ π} {pages : List Page}

lemma PageArena.Starts.same (h : s.Starts key pages) (hdocs : s'.docs = s.docs) : s'.Starts key pages := by
  rw [PageArena.Starts, hdocs]
  exact h

lemma PageArena.Starts.widen (h : s.Starts key pages) (hdocs : Widens s.docs s'.docs) : s'.Starts key pages := by
  obtain ⟨r, hr, hpre⟩ := h
  obtain ⟨r', hr', hpre'⟩ := hdocs.get? hr
  exact ⟨r', hr', hpre.trans hpre'⟩

lemma KeepsDocs.final {m : Op κ π α} (hm : KeepsDocs m) : (final m s).docs = s.docs := final_of_wp (hm s)

lemma retainAll_docs {keys : List κ} : KeepsDocs (retainAll (π := π) keys) := by
  induction keys with
  | nil => exact fun s => rfl
  | cons key keys ih =>
    intro s
    rw [retainAll, wp_bind]
    refine wp_mono (retain_docs s) (fun _ s' h => ?_) fun _ _ h => h
    exact wp_mono (ih s') (fun _ _ h' => h'.trans h) fun _ _ h' => h'.trans h

lemma configureRetention_docs {policy : κ → ℤ → ℤ → Except PyError π} {cap : ℤ} :
    KeepsDocs (configureRetention policy cap) := by
  intro s
  unfold configureRetention
  simp only [wp_bind, wp_get, wp_ite, wp_throw, wp_set]
  exact ⟨fun _ => trivial, fun _ => wp_mono (retainAll_docs _) (fun _ _ h => h) fun _ _ h => h⟩

/-- The pool's operations widen the tables, or rewind the one they were asked to. -/
lemma PoolMove.starts (h : PoolMove rewinds s s') (hs : s.Starts key pages) (hkey : rewinds key → pages = []) :
    s'.Starts key pages := by
  cases h with
  | pin => exact hs.same pin_docs.final
  | grow => exact hs.widen (final_of_wp grow_docs)
  | growPages => exact hs.widen (final_of_wp growPages_docs)
  | setTokens => exact hs.widen (final_of_wp setTokens_docs)
  | rewind rewound tokens hrewinds =>
    have hdocs : Alters rewound s.docs (final (Pages.rewind rewound tokens) s).docs := final_of_wp rewind_docs
    obtain ⟨r, hr, hpre⟩ := hs
    obtain ⟨r', hr', hpre'⟩ := hdocs.get? hr
    refine ⟨r', hr', ?_⟩
    by_cases hk : key = rewound
    · rw [hkey (hk ▸ hrewinds)]
      exact List.nil_prefix
    · exact hpre.trans (hpre' hk)
  | dropExtension => exact hs
  | retain => exact hs.same retain_docs.final
  | popRetainedVictim keep =>
    have hdocs : KeepsDocs (Pages.popRetainedVictim (κ := κ) (π := π) keep) := fun s =>
      wp_mono popRetainedVictim_docs (fun _ _ h => h.1) fun _ _ h => h.elim
    exact hs.same hdocs.final
  | allocSlot => exact hs.same allocSlot_docs.final
  | allocExtension => exact hs.same allocExtension_docs.final
  | allocShare => exact hs.same allocShare_docs.final
  | record => exact hs
  | configureRetention => exact hs.same configureRetention_docs.final
  | setCap => exact hs
  | undo => exact hs.same undoOne_keys.1

/-- A key that is freed is another one. -/
lemma PageArena.Starts.free (h : s.Starts key pages) (hne : k ≠ key) : (final (freeKey k) s).Starts key pages := by
  obtain ⟨r, hr, hpre⟩ := h
  have hfree : wp (freeKey k) (fun _ s' => s'.Starts key pages) (fun _ s' => s'.Starts key pages) s := by
    refine wp_mono freeKey_docs (fun _ s' hfree => ⟨r, ?_, hpre⟩) fun _ s' hfree => ⟨r, ?_, hpre⟩
    · rw [hfree.2, Dict.get?_erase_ne hne]
      exact hr
    · rw [hfree.2]
      exact hr
  exact final_of_wp hfree

/-- A new key is another one. -/
lemma PageArena.Starts.enter {tokens : ℤ} {capacity : Option ℤ} {borrowed : List Page} (h : s.Starts key pages)
    (hne : k ≠ key) : (final (alloc k tokens capacity borrowed) s).Starts key pages := by
  have halloc : wp (alloc k tokens capacity borrowed) (fun _ s' => s'.Starts key pages)
      (fun _ s' => s'.Starts key pages) s := by
    refine wp_mono alloc_docs (fun got s' halloc => ?_) fun _ s' hsame => hsame ▸ h
    cases got with
    | none =>
      have hsame : s' = s := halloc.2
      exact hsame ▸ h
    | some got =>
      obtain ⟨r, hr, hpre⟩ := h
      have hdocs : s'.docs = s.docs.set k ⟨got, borrowed, tokens⟩ := halloc.2
      refine ⟨r, ?_, hpre⟩
      rw [hdocs, Dict.get?_set_ne hne]
      exact hr
  exact final_of_wp halloc

end Tables

/-- As long as the key is in use, its table starts with these pages. -/
def KVArena.Keeps (key : κ) (pages : List Page) (s : KVArena κ π) : Prop :=
  s.InUse key → s.accounting.Starts key pages

variable {pages : List Page}

lemma PageArena.Starts.isResident (h : s.accounting.Starts key pages) : s.isResident key = true := by
  obtain ⟨r, hr, _⟩ := h
  exact Dict.contains_iff.2 ⟨r, hr⟩

lemma Move.keeps (hkey : rewinds key → pages = []) (h : Move rewinds s s') (hs : s.Keeps key pages) :
    s'.Keeps key pages := by
  -- a new key was not resident, so it is no key that is in use and resident
  have hnew : ∀ {k}, s.isResident k = false → s.InUse key → k ≠ key := by
    rintro k hno huse rfl
    exact Bool.false_ne_true (hno.symm.trans (hs huse).isResident)
  cases h with
  | pool hpool => exact fun huse => hpool.starts (hs huse) hkey
  | beside haccounting hholds hreading _ =>
    intro huse
    rw [haccounting]
    exact hs ((inUse_congr hholds hreading).1 huse)
  | free freed hno =>
    intro huse
    refine (hs huse).free ?_
    rintro rfl
    exact hno huse
  | defer => exact hs
  | alloc _ _ _ _ hno => exact fun huse => (hs huse).enter (hnew hno huse)
  | allocUndone _ _ _ _ hno => exact fun huse => ((hs huse).enter (hnew hno huse)).free (hnew hno huse)
  | leave huse _ => exact fun hstill => hs (huse key hstill)

/-- A key that was resident before a call is resident after it when it is in use then. -/
lemma CallMoves.starts (h : CallMoves rewinds s s') (hkey : rewinds key → pages = [])
    (hs : s.accounting.Starts key pages) : s'.Keeps key pages := by
  obtain ⟨t, hcount, hmoves⟩ := h
  have ht : t.Keeps key pages := by
    intro _
    rw [hcount.accounting]
    exact hs
  clear hcount
  induction hmoves with
  | refl => exact ht
  | tail _ hlast ih => exact hlast.keeps hkey ih

/-- A key that is in use after each call keeps its pages, and its table its start where no call rewinds it. -/
lemma run_starts {calls : List (KVCall κ π δ)} (hs : s.accounting.Starts key pages)
    (huse : EachStep (KVCall.step isPair) (fun s c => (KVCall.step isPair s c).InUse key) s calls)
    (hkey : ∀ c ∈ calls, c.rewinds key → pages = []) :
    (run (KVCall.step isPair) s calls).accounting.Starts key pages := by
  induction calls generalizing s with
  | nil => exact hs
  | cons c calls ih =>
    obtain ⟨hnow, hrest⟩ := huse
    have hstep := c.step_moves.starts (hkey c List.mem_cons_self) hs hnow
    exact ih hstep hrest fun c hc => hkey c (List.mem_cons_of_mem _ hc)

/-! ## Slots -/

/-- Every slot below a bound is free or belongs to one holder, whose key is resident. -/
structure SlotsParted (numSlots : ℕ) (s : PageArena κ π) : Prop where
  apart : SlotsApart s
  covers : ∀ x, x < numSlots ↔ x ∈ s.freeSlots ∨ ∃ h, s.slotStore.held h = some x
  resident : ∀ h x, s.slotStore.held h = some x → s.docs.contains h.owner = true

section Slots
variable {s s' : PageArena κ π} {n : ℕ}

/-- The slots are as they were, and no key left. -/
structure SameSlots (s s' : PageArena κ π) : Prop where
  free : s'.freeSlots = s.freeSlots
  held : s'.slotStore.held = s.slotStore.held
  docs : ∀ k, s.docs.contains k = true → s'.docs.contains k = true

lemma SameSlots.parted (h : SameSlots s s') (hs : SlotsParted n s) : SlotsParted n s' where
  apart := by
    rw [SlotsApart, h.free, h.held]
    exact hs.apart
  covers x := by
    rw [h.free, h.held]
    exact hs.covers x
  resident holder x hx := by
    rw [h.held] at hx
    exact h.docs _ (hs.resident holder x hx)

/-- Taking a slot loses none. -/
lemma takes_covers {h : Holder κ} {x y : Slot} {t t' : Store (Holder κ) Slot ℤ} (htakes : Takes h x t t') :
    (y ∈ t.free ∨ ∃ k, t.held k = some y) ↔ y ∈ t'.free ∨ ∃ k, t'.held k = some y := by
  rcases htakes.taken with ⟨hx, hfree⟩ | ⟨hno, hfree⟩
  · have hheld : t'.held = t.held := by rw [htakes.held, ← hx, Function.update_eq_self]
    rw [hfree, hheld]
  · rw [hfree, Set.mem_insert_iff]
    constructor
    · rintro ((rfl | hin) | ⟨k, hk⟩)
      · exact .inr ⟨h, htakes.held_self⟩
      · exact .inl hin
      · have hne : k ≠ h := by
          rintro rfl
          rw [hno] at hk
          cases hk
        exact .inr ⟨k, (htakes.held_other hne).trans hk⟩
    · rintro (hin | ⟨k, hk⟩)
      · exact .inl (.inr hin)
      · by_cases heq : k = h
        · rw [heq, htakes.held_self] at hk
          exact .inl (.inl (Option.some.inj hk).symm)
        · exact .inr ⟨k, (htakes.held_other heq).symm.trans hk⟩

/-- A holder took a slot. -/
lemma Gives.parted {h : Holder κ} {x : Slot} (hgives : Gives h x s s') (hapart : SlotsApart s')
    (hkey : s.docs.contains h.owner = true) (hs : SlotsParted n s) : SlotsParted n s' where
  apart := hapart
  covers y := by
    have hfree : ∀ {t : PageArena κ π}, y ∈ t.freeSlots ↔ y ∈ t.slotStore.free := Iff.rfl
    rw [hs.covers, hfree, hfree]
    exact takes_covers hgives.takes
  resident holder y hy := by
    rw [hgives.docs]
    by_cases heq : holder = h
    · rw [heq]
      exact hkey
    · rw [hgives.takes.held_other heq] at hy
      exact hs.resident holder y hy

/-- Some holders gave their slots back. -/
lemma drop_parted {out : Set (Holder κ)} (hheld : s'.slotStore.held = (s.slotStore.drop out).held)
    (hfree : s'.slotStore.free = (s.slotStore.drop out).free) (hapart : SlotsApart s')
    (hdocs : ∀ h ∉ out, s.docs.contains h.owner = true → s'.docs.contains h.owner = true) (hs : SlotsParted n s) :
    SlotsParted n s' where
  apart := hapart
  covers x := by
    have hin : ∀ {t : PageArena κ π}, x ∈ t.freeSlots ↔ x ∈ t.slotStore.free := Iff.rfl
    rw [hs.covers, hin, hin, hfree, hheld, Store.mem_drop_free]
    constructor
    · rintro (hin | ⟨h, hx⟩)
      · exact .inl (.inl hin)
      · by_cases hout : h ∈ out
        · exact .inl (.inr ⟨h, hout, hx⟩)
        · exact .inr ⟨h, (Store.drop_held_of_not_mem hout).trans hx⟩
    · rintro ((hin | ⟨h, _, hx⟩) | ⟨h, hx⟩)
      · exact .inl hin
      · exact .inr ⟨h, hx⟩
      · by_cases hout : h ∈ out
        · rw [Store.drop_held hout] at hx
          cases hx
        · exact .inr ⟨h, (Store.drop_held_of_not_mem hout).symm.trans hx⟩
  resident h x hx := by
    rw [hheld] at hx
    by_cases hout : h ∈ out
    · rw [Store.drop_held hout] at hx
      cases hx
    · rw [Store.drop_held_of_not_mem hout] at hx
      exact hdocs h hout (hs.resident h x hx)

/-- A program that gives a key a slot, or leaves the pool as it is. -/
lemma GivesSlot.parted {h : Holder κ} {m : Op κ π (Option Slot)} (hgives : GivesSlot h m)
    (hapart : Preserves SlotsApart m) (hkey : ∀ s, wp m (fun _ _ => s.docs.contains h.owner = true) (fun _ _ => True) s)
    (hs : SlotsParted n s) : SlotsParted n (final m s) := by
  have hwp : wp m (fun _ s' => SlotsParted n s') (fun _ s' => SlotsParted n s') s := by
    refine wp_mono (wp_and (wp_and (hgives s) (hkey s)) (hapart s hs.apart)) ?_ ?_
    · rintro slot s' ⟨⟨hends, hres⟩, hapart'⟩
      cases slot with
      | none =>
        have hsame : s' = s := hends
        exact hsame ▸ hs
      | some slot => exact Gives.parted hends hapart' hres hs
    · rintro _ s' ⟨⟨hsame, _⟩, _⟩
      exact hsame ▸ hs
  exact final_of_wp hwp

lemma SameSlots.final {m : Op κ π α} (hm : ∀ s, wp m (fun _ s' => SameSlots s s') (fun _ s' => SameSlots s s') s)
    (hs : SlotsParted n s) : SlotsParted n (final m s) :=
  (final_of_wp (hm s) : SameSlots s (Imperative.final m s)).parted hs

lemma SameSlots.refl : SameSlots s s := ⟨rfl, rfl, fun _ h => h⟩

lemma SameSlots.trans {s'' : PageArena κ π} (h : SameSlots s s') (h' : SameSlots s' s'') : SameSlots s s'' :=
  ⟨h'.free.trans h.free, h'.held.trans h.held, fun k hk => h'.docs k (h.docs k hk)⟩

lemma pin_slots : wp (pin key) (fun _ s' => SameSlots s s') (fun _ s' => SameSlots s s') s := by
  unfold pin
  simp only [wp_bind, wp_resident, wp_modify, wp_forgetRetained]
  exact ⟨fun _ _ => ⟨rfl, rfl, fun _ h => h⟩, fun _ => .refl⟩

lemma retain_slots {priority : Option π} :
    wp (retain key priority) (fun _ s' => SameSlots s s') (fun _ s' => SameSlots s s') s := by
  have hsame : ∀ s' : PageArena κ π, s'.freeSlots = s.freeSlots → s'.slotStore.held = s.slotStore.held →
      s'.docs = s.docs → SameSlots s s' := fun s' hfree hheld hdocs => ⟨hfree, hheld, fun _ hk => hdocs ▸ hk⟩
  unfold Pages.retain
  simp only [wp_bind, wp_get, wp_set, wp_resident, wp_modify, wp_forgetRetained, wp_retentionPriority]
  exact ⟨fun _ _ => ⟨fun _ _ => hsame _ rfl rfl rfl, fun _ _ _ => hsame _ rfl rfl rfl, fun _ _ _ => hsame _ rfl rfl rfl⟩,
    fun _ => .refl⟩

lemma retainAll_slots {keys : List κ} :
    wp (retainAll keys) (fun _ s' => SameSlots s s') (fun _ s' => SameSlots s s') s := by
  induction keys generalizing s with
  | nil => exact .refl
  | cons key keys ih =>
    rw [retainAll, wp_bind]
    refine wp_mono retain_slots (fun _ s' h => ?_) fun _ _ h => h
    exact wp_mono ih (fun _ _ h' => h.trans h') fun _ _ h' => h.trans h'

lemma configureRetention_slots {policy : κ → ℤ → ℤ → Except PyError π} {cap : ℤ} :
    wp (configureRetention policy cap) (fun _ s' => SameSlots s s') (fun _ s' => SameSlots s s') s := by
  unfold configureRetention
  simp only [wp_bind, wp_get, wp_ite, wp_throw, wp_set]
  refine ⟨fun _ => .refl, fun _ => wp_mono retainAll_slots ?_ ?_⟩
  · exact fun _ _ h => ⟨h.free, h.held, h.docs⟩
  · exact fun _ _ h => ⟨h.free, h.held, h.docs⟩

lemma popRetainedVictim_same {keep : Finset κ} :
    wp (popRetainedVictim keep) (fun _ s' => SameSlots s s') (fun _ s' => SameSlots s s') s := by
  unfold popRetainedVictim
  simp only [wp_bind, wp_get, wp_set]
  generalize victimSearch s.retainedVersions keep s.retainedHeap.length s.retainedHeap [] = found
  obtain ⟨victim, heap⟩ := found
  cases victim with
  | none => exact ⟨rfl, rfl, fun _ h => h⟩
  | some e => exact ⟨rfl, rfl, fun _ h => h⟩

lemma SameSlots.of_contains (hfree : s'.freeSlots = s.freeSlots) (hheld : s'.slotStore.held = s.slotStore.held)
    (hdocs : ∀ k, s'.docs.contains k = s.docs.contains k) : SameSlots s s' :=
  ⟨hfree, hheld, fun k hk => (hdocs k).trans hk⟩

lemma grow_slots {capacity : ℤ} :
    wp (grow key capacity) (fun _ s' => SameSlots s s') (fun _ s' => SameSlots s s') s := by
  unfold grow
  simp only [wp_bind, wp_get, wp_resident, wp_ite, wp_pure, wp_needed, wp_set]
  exact ⟨fun r hr => ⟨fun _ => .refl, fun _ => ⟨fun _ => .refl, fun _ => ⟨fun _ => .refl, fun _ =>
    .of_contains rfl rfl (contains_set_same hr)⟩⟩⟩, fun _ => .refl⟩

lemma setTokens_slots {tokens : ℤ} :
    wp (setTokens key tokens) (fun _ s' => SameSlots s s') (fun _ s' => SameSlots s s') s := by
  unfold setTokens
  simp only [wp_bind, wp_resident, wp_modify]
  exact ⟨fun r hr => .of_contains rfl rfl (contains_set_same hr), fun _ => .refl⟩

lemma appendPages_slots {given : List (κ × Page)} :
    wp (appendPages given) (fun _ s' => SameSlots s s') (fun _ s' => SameSlots s s') s := by
  induction given generalizing s with
  | nil => exact .refl
  | cons e given ih =>
    rw [appendPages]
    simp only [wp_bind, wp_resident, wp_modify]
    refine ⟨fun r hr => ?_, fun _ => .refl⟩
    have hfirst : SameSlots s { s with docs := s.docs.set e.1 { r with owned := r.owned ++ [e.2] } } :=
      .of_contains rfl rfl (contains_set_same hr)
    exact wp_mono ih (fun _ _ h => hfirst.trans h) fun _ _ h => hfirst.trans h

lemma growPages_slots {keys : List κ} :
    wp (growPages keys) (fun _ s' => SameSlots s s') (fun _ s' => SameSlots s s') s := by
  unfold growPages
  simp only [wp_bind, wp_get, wp_ite, wp_pure, wp_set]
  refine ⟨fun _ => .refl, fun _ => wp_mono appendPages_slots ?_ ?_⟩
  · exact fun _ _ h => ⟨h.free, h.held, h.docs⟩
  · exact fun _ _ h => ⟨h.free, h.held, h.docs⟩

lemma rewind_slots {tokens : ℤ} :
    wp (rewind key tokens) (fun _ s' => SameSlots s s') (fun _ s' => SameSlots s s') s := by
  unfold rewind
  simp only [wp_bind, wp_get, wp_resident, wp_ite, wp_throw, wp_pure, wp_needed, wp_set, wp_releasePages]
  refine ⟨fun r hr => ⟨fun _ => .refl, fun _ => ⟨fun _ => .refl, fun _ => ⟨fun _ => ?_, fun _ => ?_⟩⟩⟩,
    fun _ => .refl⟩
  · have hkeys : ∀ k, (s.docs.set key { r with
        owned := Slice.before r.owned (pagesNeeded s.pageTokens tokens - r.borrowed.length)
        tokens }).contains k = s.docs.contains k := contains_set_same hr
    refine wp_mono retain_slots ?_ ?_
    · exact fun _ _ h => ⟨h.free, h.held, fun k hk => h.docs k ((hkeys k).trans hk)⟩
    · exact fun _ _ h => ⟨h.free, h.held, fun k hk => h.docs k ((hkeys k).trans hk)⟩
  · exact .of_contains rfl rfl (contains_set_same hr)

lemma alloc_slots {tokens : ℤ} {capacity : Option ℤ} {borrowed : List Page} :
    wp (alloc key tokens capacity borrowed) (fun _ s' => SameSlots s s') (fun _ s' => SameSlots s s') s := by
  unfold alloc
  simp only [wp_bind, wp_get, wp_ite, wp_throw, wp_pure, wp_needed, wp_set]
  refine ⟨fun _ => .refl, fun _ => ⟨fun _ => .refl, fun _ => ⟨fun _ => .refl, fun _ => ⟨fun _ => .refl, fun _ =>
    ⟨fun _ => .refl, fun _ => ⟨rfl, rfl, fun k hk => ?_⟩⟩⟩⟩⟩⟩
  rw [Dict.contains_set, hk, Bool.or_true]

/-- The key's slots went back, and no other key left. -/
structure GivesBack (key : κ) (s s' : PageArena κ π) : Prop where
  store : s'.slotStore = s.slotStore.drop (ownedBy {key})
  docs : ∀ k, k ≠ key → s.docs.contains k = true → s'.docs.contains k = true

lemma freeKey_givesBack : wp (freeKey key) (fun _ s' => GivesBack key s s') (fun _ s' => GivesBack key s s') s := by
  have hother : ∀ k, k ≠ key → s.docs.contains k = true → (s.docs.erase key).contains k = true := by
    intro k hne hk
    rw [Dict.contains_erase, hk, decide_eq_false (Ne.symm hne)]
    rfl
  unfold freeKey dropExtension dropShares
  simp only [wp_bind, wp_get, wp_resident, wp_modify, wp_releasePages, wp_forgetRetained]
  exact ⟨fun _ _ => ⟨slotStore_emptied rfl rfl rfl rfl rfl rfl, hother⟩, fun _ =>
    ⟨slotStore_emptied rfl rfl rfl rfl rfl rfl, fun _ _ hk => hk⟩⟩

/-- A freed key gives its slots back. -/
lemma freeKey_parted (hs : SlotsParted n s) : SlotsParted n (final (freeKey key) s) := by
  have hback : GivesBack key s (final (freeKey key) s) := final_of_wp freeKey_givesBack
  have hapart : SlotsApart (final (freeKey key) s) := final_of_wp (slotsApart_invariant.freeKey key s hs.apart)
  refine drop_parted (congrArg Store.held hback.store) (congrArg Store.free hback.store) hapart ?_ hs
  exact fun h hout => hback.docs h.owner fun heq => hout (Finset.mem_singleton.2 heq)

lemma undoOne_freeSlots {u : Undo κ} : (s.undoOne u).freeSlots =
    if u.entry.had then s.freeSlots else (s.slotStore.held u.entry.holder).toList ++ s.freeSlots := by
  cases u with
  | checkpoint key hadSlot previous =>
    cases hadSlot with
    | true => rfl
    | false =>
      show (s.undoOne (.checkpoint key false previous)).freeSlots = (s.slots.get? key).toList ++ s.freeSlots
      cases hslot : s.slots.get? key <;> simp [PageArena.undoOne, hslot]
  | share key tokens =>
    show (s.undoOne (.share key tokens)).freeSlots = (s.shareSlots.get? (key, tokens)).toList ++ s.freeSlots
    cases hslot : s.shareSlots.get? (key, tokens) <;> simp [PageArena.undoOne, hslot]
  | extension key previous =>
    cases previous with
    | none => rfl
    | some tokens => rfl

/-- An undone entry gives back the slot it says was not there. -/
lemma undoOne_parted {u : Undo κ} (hs : SlotsParted n s) : SlotsParted n (s.undoOne u) := by
  have hstore := undoOne_slots (s := s) (u := u)
  have hslots := undoOne_freeSlots (s := s) (u := u)
  have hdocs : (s.undoOne u).docs = s.docs := undoOne_keys.1
  cases hhad : u.entry.had with
  | true =>
    refine SameSlots.parted ⟨?_, ?_, fun k hk => ?_⟩ hs
    · rw [hslots, hhad, if_pos rfl]
    · rw [hstore, Store.undoOne, hhad]
      rfl
    · rw [hdocs]
      exact hk
  | false =>
    have hheld : (s.undoOne u).slotStore.held = Function.update s.slotStore.held u.entry.holder none := by
      rw [hstore, Store.undoOne, hhad]
      rfl
    have hdrop : Function.update s.slotStore.held u.entry.holder none = (s.slotStore.drop {u.entry.holder}).held := by
      funext h
      by_cases heq : h = u.entry.holder
      · rw [heq, Function.update_self]
        exact (Store.drop_held (Set.mem_singleton _)).symm
      · have hout : h ∉ ({u.entry.holder} : Set (Holder κ)) := heq
        rw [Function.update_of_ne heq, Store.drop_held_of_not_mem hout]
    refine drop_parted (hheld.trans hdrop) ?_ ?_ (fun h _ hk => ?_) hs
    · rw [hstore, Store.undoOne, hhad]
      ext x
      rw [Store.mem_drop_free]
      simp
    · rw [SlotsApart, hslots, hhad, if_neg Bool.false_ne_true, hheld]
      refine Apart.giveBack hs.apart (fun h x hx => ?_) (Option.toList_nodup _) fun x hx =>
        ⟨u.entry.holder, Option.mem_toList.1 hx⟩
      rw [Function.update_apply] at hx
      split_ifs at hx with heq
      exact ⟨hx, fun hin => heq (hs.apart.one h _ x hx (Option.mem_toList.1 hin))⟩
    · rw [hdocs]
      exact hk

lemma resident_answers {α : Type} {f : Resident → Op κ π α} (hf : ∀ r, wp (f r) (fun _ _ => True) (fun _ _ => True) s) :
    wp (resident key >>= f) (fun _ _ => s.docs.contains key = true) (fun _ _ => True) s := by
  rw [wp_bind, wp_resident]
  refine ⟨fun r hr => ?_, fun _ => trivial⟩
  exact wp_mono (hf r) (fun _ _ _ => Dict.contains_iff.2 ⟨r, hr⟩) fun _ _ _ => trivial

lemma wp_trivial {ε σ α : Type} {m : EStateM ε σ α} {s : σ} : wp m (fun _ _ => True) (fun _ _ => True) s := by
  unfold wp
  cases m s with
  | ok a t => trivial
  | error e t => trivial

/-- The pool's operations keep every slot with one holder. -/
lemma PoolMove.parted (h : PoolMove rewinds s s') (hs : SlotsParted n s) : SlotsParted n s' := by
  cases h with
  | pin => exact SameSlots.final (fun _ => pin_slots) hs
  | grow => exact SameSlots.final (fun _ => grow_slots) hs
  | growPages => exact SameSlots.final (fun _ => growPages_slots) hs
  | setTokens => exact SameSlots.final (fun _ => setTokens_slots) hs
  | rewind => exact SameSlots.final (fun _ => rewind_slots) hs
  | dropExtension key => exact undoOne_parted (u := .extension key none) hs
  | retain => exact SameSlots.final (fun _ => retain_slots) hs
  | popRetainedVictim => exact SameSlots.final (fun _ => popRetainedVictim_same) hs
  | allocSlot key =>
    exact allocSlot_gives.parted (slotsApart_invariant.allocSlot key) (fun s => resident_answers fun _ => wp_trivial) hs
  | allocExtension key =>
    exact allocExtension_gives.parted (slotsApart_invariant.allocExtension key)
      (fun s => resident_answers fun _ => wp_trivial) hs
  | allocShare key tokens =>
    exact allocShare_gives.parted (slotsApart_invariant.allocShare key tokens)
      (fun s => resident_answers fun _ => wp_trivial) hs
  | record slotTokens extTokens =>
    have hsame : SameSlots s { s with slotTokens, extTokens } := ⟨rfl, rfl, fun _ hk => hk⟩
    exact hsame.parted hs
  | configureRetention => exact SameSlots.final (fun _ => configureRetention_slots) hs
  | setCap cap =>
    have hsame : SameSlots s { s with retentionCapPages := cap } := ⟨rfl, rfl, fun _ hk => hk⟩
    exact hsame.parted hs
  | undo => exact undoOne_parted hs

end Slots

lemma Move.parted {n : ℕ} (h : Move rewinds s s') (hs : SlotsParted n s.accounting) : SlotsParted n s'.accounting := by
  cases h with
  | pool hpool => exact hpool.parted hs
  | beside haccounting => exact haccounting ▸ hs
  | free => exact freeKey_parted hs
  | defer => exact hs
  | alloc => exact SameSlots.final (fun _ => alloc_slots) hs
  | allocUndone => exact freeKey_parted (SameSlots.final (fun _ => alloc_slots) hs)
  | leave => exact hs

lemma KVCall.step_parted {n : ℕ} {c : KVCall κ π δ} (hs : SlotsParted n s.accounting) :
    SlotsParted n (KVCall.step isPair s c).accounting :=
  c.step_moves.invariant (fun _ _ h ht => h.accounting ▸ ht) (fun _ _ h => h.parted) hs

/-! ## Every run -/

section Run
variable (numPages : ℕ) (pageTokens : ℤ) (slidingPages : Option ℕ) (window : ℤ) (numSlots : ℕ)
  (policy : κ → ℤ → ℤ → Except PyError π) (isPair : κ → Bool)

/-- The arena after some calls of a new one. -/
def KVArena.reached (calls : List (KVCall κ π δ)) : KVArena κ π :=
  run (KVCall.step isPair) (KVArena.new numPages pageTokens slidingPages window numSlots policy) calls

/-- What the new arena has and every call keeps, every reached arena has. -/
lemma KVArena.reached_invariant {I : KVArena κ π → Prop} (calls : List (KVCall κ π δ))
    (hnew : I (KVArena.new numPages pageTokens slidingPages window numSlots policy))
    (hstep : ∀ (c : KVCall κ π δ) s, I s → I (KVCall.step isPair s c)) :
    I (KVArena.reached numPages pageTokens slidingPages window numSlots policy isPair calls) := by
  have hrun : ∀ (calls : List (KVCall κ π δ)) s, I s → I (run (KVCall.step isPair) s calls) := by
    intro calls
    induction calls with
    | nil => exact fun _ h => h
    | cons c calls ih => exact fun s h => ih _ (hstep c s h)
  exact hrun calls _ hnew

lemma new_held {h : Holder κ} : (PageArena.new numPages pageTokens numSlots policy).slotStore.held h = none := by
  cases h with
  | checkpoint => rfl
  | extension => rfl
  | share => rfl

lemma new_parted : SlotsParted numSlots (PageArena.new numPages pageTokens numSlots policy) where
  apart := by
    refine ⟨List.nodup_range, fun h x hx => ?_, fun h h' x hx => ?_⟩
    · rw [new_held] at hx
      cases hx
    · rw [new_held] at hx
      cases hx
  covers x := by
    have hnone : ¬∃ h, (PageArena.new numPages pageTokens numSlots policy).slotStore.held h = some x := by
      rintro ⟨h, hx⟩
      rw [new_held] at hx
      cases hx
    rw [or_iff_left hnone]
    exact List.mem_range.symm
  resident h x hx := by
    rw [new_held] at hx
    cases hx

/-- After any calls every checkpoint slot is free or belongs to one holder, whose key is resident. -/
theorem KVArena.reached_slots (calls : List (KVCall κ π δ)) : SlotsParted numSlots
    (KVArena.reached numPages pageTokens slidingPages window numSlots policy isPair calls).accounting :=
  KVArena.reached_invariant numPages pageTokens slidingPages window numSlots policy isPair calls
    (I := fun s => SlotsParted numSlots s.accounting) (new_parted numPages pageTokens numSlots policy)
    fun _ _ => KVCall.step_parted

/-- After any calls a key that was asked to go is in use. A resident key that is in use after each further call
stays resident, and its table starts as it did unless its own `retain` rewound it. -/
theorem KVArena.reached_inUse (calls : List (KVCall κ π δ)) :
    let s := KVArena.reached numPages pageTokens slidingPages window numSlots policy isPair calls
    (∀ k ∈ s.deferred, s.InUse k) ∧ ∀ (later : List (KVCall κ π δ)) (key : κ) (r : Resident),
      s.accounting.docs.get? key = some r →
      EachStep (KVCall.step isPair) (fun t c => (KVCall.step isPair t c).InUse key) s later →
      ∃ r', (run (KVCall.step isPair) s later).accounting.docs.get? key = some r' ∧
        ((∀ c ∈ later, ¬c.rewinds key) → r.table <+: r'.table) := by
  refine ⟨KVArena.reached_invariant numPages pageTokens slidingPages window numSlots policy isPair calls
    (I := KVArena.Waits) (fun k hk => absurd hk (Finset.notMem_empty k)) fun _ _ => KVCall.step_waits, ?_⟩
  intro later key r hr huse
  obtain ⟨r', hr', -⟩ := run_starts ⟨r, hr, List.nil_prefix⟩ huse fun _ _ _ => rfl
  refine ⟨r', hr', fun hno => ?_⟩
  obtain ⟨r'', hr'', hpre⟩ := run_starts ⟨r, hr, List.prefix_rfl⟩ huse fun c hc hrewinds => absurd hrewinds (hno c hc)
  obtain rfl := Option.some.inj (hr'.symm.trans hr'')
  exact hpre

end Run

/-- A held document with a page and both of its checkpoint slots. -/
def heldDocument : KVArena ℕ ℤ :=
  .reached 4 16 none 0 2 (fun _ _ _ => .ok 0) (fun _ => true)
    [.reserve 1 16 16 none true [], .hold 1 1, (.recordCheckpoint 1 16 : KVCall ℕ ℤ Unit)]

/-- Asked to go, with an eviction after it, the document waits and keeps its page. -/
theorem heldDocument_kept : (∀ k ∈ heldDocument.deferred, heldDocument.InUse k) ∧
    ∃ r, (run (KVCall.step fun _ => true) heldDocument
      [.freeKey 1, .evictRetained 4, (.trimWindow 1 : KVCall ℕ ℤ Unit)]).accounting.docs.get? 1 = some r ∧
      [0] <+: r.table := by
  obtain ⟨hwaits, hkeeps⟩ := KVArena.reached_inUse 4 16 none 0 2 (fun _ _ _ => .ok (0 : ℤ)) (fun _ => true)
    [.reserve (1 : ℕ) 16 16 none true [], .hold 1 1, (.recordCheckpoint 1 16 : KVCall ℕ ℤ Unit)]
  rw [← heldDocument] at hwaits hkeeps
  have htable : (heldDocument.accounting.docs.get? 1).map Resident.table = some [0] := by decide +kernel
  have huse : EachStep (KVCall.step fun _ => true) (fun t c => (KVCall.step (fun _ => true) t c).InUse 1) heldDocument
      [.freeKey 1, .evictRetained 4, (.trimWindow 1 : KVCall ℕ ℤ Unit)] := by
    refine ⟨?_, ?_, ?_, trivial⟩
    · decide +kernel
    · decide +kernel
    · decide +kernel
  have hrewinds : ∀ c ∈ [.freeKey 1, .evictRetained 4, (.trimWindow 1 : KVCall ℕ ℤ Unit)], ¬c.rewinds 1 := by
    simp [KVCall.rewinds]
  obtain ⟨r, hr, hpages⟩ := Option.map_eq_some_iff.1 htable
  obtain ⟨r', hr', hpre⟩ := hkeeps _ 1 r hr huse
  have hstart := hpre hrewinds
  rw [hpages] at hstart
  exact ⟨hwaits, r', hr', hstart⟩

end Quail.Pages
