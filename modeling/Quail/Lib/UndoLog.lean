import Mathlib.Data.Set.Insert
import Mathlib.Logic.Function.Basic

/-!
# Undo logs over a store of slots

A store gives each holder at most one slot and keeps at most one note of it; the slots no holder has
are free. A program that takes slots and writes notes logs, before each holder it touches, whether the
holder had a slot and what its note was. Undoing the log, newest entry first, gives back the store from
before. Emptying holders that are not in the log commutes with undoing it, so what others lose in the
meantime stays lost and nothing else does.
-/

namespace UndoLog

variable {η σ ν : Type}

/-- The slot and the note of each holder, and the free slots. -/
@[ext] structure Store (η σ ν : Type) where
  held : η → Option σ
  note : η → Option ν
  free : Set σ

/-- What the store had of a holder: a slot or none, and a note. -/
structure Entry (η ν : Type) where
  holder : η
  had : Bool
  note : Option ν

/-! ## Emptying holders -/

namespace Store

open Classical in
/-- Some holders lose their slots and their notes. -/
noncomputable def drop (s : Store η σ ν) (out : Set η) : Store η σ ν where
  held h := if h ∈ out then none else s.held h
  note h := if h ∈ out then none else s.note h
  free := s.free ∪ {x | ∃ h ∈ out, s.held h = some x}

variable {s t : Store η σ ν} {out out' : Set η} {h : η} {x : σ}

lemma drop_held (hin : h ∈ out) : (s.drop out).held h = none := if_pos hin

lemma drop_held_of_not_mem (hno : h ∉ out) : (s.drop out).held h = s.held h := if_neg hno

lemma drop_note (hin : h ∈ out) : (s.drop out).note h = none := if_pos hin

lemma drop_note_of_not_mem (hno : h ∉ out) : (s.drop out).note h = s.note h := if_neg hno

lemma mem_drop_free : x ∈ (s.drop out).free ↔ x ∈ s.free ∨ ∃ h ∈ out, s.held h = some x := Iff.rfl

@[simp] lemma drop_empty : s.drop ∅ = s := by
  refine Store.ext (funext fun h => drop_held_of_not_mem (Set.notMem_empty h))
    (funext fun h => drop_note_of_not_mem (Set.notMem_empty h)) (Set.ext fun x => ?_)
  simp [mem_drop_free]

/-- Holders emptied one set after the other are emptied together. -/
lemma drop_drop : (s.drop out).drop out' = s.drop (out ∪ out') := by
  refine Store.ext (funext fun h => ?_) (funext fun h => ?_) (Set.ext fun x => ?_)
  · by_cases hin : h ∈ out <;> by_cases hin' : h ∈ out' <;> simp [drop, hin, hin']
  · by_cases hin : h ∈ out <;> by_cases hin' : h ∈ out' <;> simp [drop, hin, hin']
  · simp only [mem_drop_free]
    constructor
    · rintro ((hfree | ⟨k, hk, hx⟩) | ⟨k, hk, hx⟩)
      · exact .inl hfree
      · exact .inr ⟨k, .inl hk, hx⟩
      · by_cases hin : k ∈ out
        · rw [drop_held hin] at hx
          cases hx
        · rw [drop_held_of_not_mem hin] at hx
          exact .inr ⟨k, .inr hk, hx⟩
    · rintro (hfree | ⟨k, hk, hx⟩)
      · exact .inl (.inl hfree)
      · by_cases hin : k ∈ out
        · exact .inl (.inr ⟨k, hin, hx⟩)
        · exact .inr ⟨k, hk.resolve_left hin, (drop_held_of_not_mem hin).trans hx⟩

/-- A holder with neither a slot nor a note has nothing to lose. -/
lemma drop_nothing (hheld : s.held h = none) (hnote : s.note h = none) : s.drop {h} = s := by
  refine Store.ext (funext fun k => ?_) (funext fun k => ?_) (Set.ext fun x => ?_)
  · by_cases hk : k = h
    · rw [hk, hheld]
      exact drop_held rfl
    · exact drop_held_of_not_mem hk
  · by_cases hk : k = h
    · rw [hk, hnote]
      exact drop_note rfl
    · exact drop_note_of_not_mem hk
  · rw [mem_drop_free]
    refine or_iff_left ?_
    rintro ⟨k, rfl, hx⟩
    rw [hheld] at hx
    cases hx

end Store

/-! ## Taking a slot -/

variable [DecidableEq η]

/-- Write a holder's note. -/
def Store.write (s : Store η σ ν) (h : η) (v : Option ν) : Store η σ ν :=
  { s with note := Function.update s.note h v }

/-- The holder has the slot: it keeps the one it had, or takes a free one. -/
structure Takes (h : η) (x : σ) (s t : Store η σ ν) : Prop where
  held : t.held = Function.update s.held h (some x)
  note : t.note = s.note
  taken : s.held h = some x ∧ t.free = s.free ∨ s.held h = none ∧ s.free = insert x t.free

variable {s t : Store η σ ν} {h k : η} {x : σ} {v : Option ν} {out : Set η} {e : Entry η ν}

/-- A holder that has the slot takes nothing. -/
lemma Takes.refl (hx : s.held h = some x) : Takes h x s s :=
  ⟨(hx ▸ Function.update_eq_self h s.held).symm, rfl, .inl ⟨hx, rfl⟩⟩

lemma Takes.held_self (ht : Takes h x s t) : t.held h = some x := by
  rw [ht.held, Function.update_self]

lemma Takes.held_other (ht : Takes h x s t) (hk : k ≠ h) : t.held k = s.held k := by
  rw [ht.held, Function.update_of_ne hk]

/-! ## Undoing -/

/-- Put back what one entry recorded of its holder. -/
def Store.undoOne (s : Store η σ ν) (e : Entry η ν) : Store η σ ν where
  held := if e.had then s.held else Function.update s.held e.holder none
  note := Function.update s.note e.holder e.note
  free := if e.had then s.free else s.free ∪ {x | s.held e.holder = some x}

/-- Undo the entries in order. -/
def Store.undo (s : Store η σ ν) (log : List (Entry η ν)) : Store η σ ν := log.foldl Store.undoOne s

/-- What a store has of a holder. -/
def Store.entry (s : Store η σ ν) (h : η) : Entry η ν := ⟨h, (s.held h).isSome, s.note h⟩

/-- The entry of a holder from before it took its slot gives the store back. -/
lemma Takes.undoOne (ht : Takes h x s t) : t.undoOne (s.entry h) = s := by
  have hnote : Function.update t.note h (s.note h) = s.note := by
    rw [ht.note, Function.update_eq_self]
  rcases ht.taken with ⟨hx, hfree⟩ | ⟨hno, hfree⟩
  · have hhad : (s.held h).isSome = true := by rw [hx]; rfl
    have hheld : t.held = s.held := by rw [ht.held, ← hx, Function.update_eq_self]
    simp only [Store.undoOne, Store.entry, hhad, if_true, hnote, hheld, hfree]
  · have hhad : (s.held h).isSome = false := by rw [hno]; rfl
    have hheld : Function.update t.held h none = s.held := by
      rw [ht.held, Function.update_idem, ← hno, Function.update_eq_self]
    have hback : t.free ∪ {y | t.held h = some y} = s.free := by
      rw [hfree, ht.held_self]
      ext y
      simp [eq_comm]
    simp [Store.undoOne, Store.entry, hhad, hnote, hheld, hback]

/-- An entry that says the holder had nothing empties it. -/
lemma Store.undoOne_empty : s.undoOne ⟨h, false, none⟩ = s.drop {h} := by
  refine Store.ext (funext fun k => ?_) (funext fun k => ?_) (Set.ext fun y => ?_)
  · by_cases hk : k = h <;> simp [undoOne, drop, hk]
  · by_cases hk : k = h <;> simp [undoOne, drop, hk]
  · rw [mem_drop_free]
    simp [undoOne]

lemma Takes.undoOne_empty (ht : Takes h x s t) : t.undoOne ⟨h, false, none⟩ = s.drop {h} := by
  rw [Store.undoOne_empty]
  refine Store.ext (funext fun k => ?_) (funext fun k => ?_) (Set.ext fun y => ?_)
  · by_cases hk : k = h
    · simp [Store.drop, hk]
    · simp [Store.drop, hk, ht.held_other hk]
  · simp [Store.drop, ht.note]
  · simp only [Store.mem_drop_free, Set.mem_singleton_iff, exists_eq_left, ht.held_self]
    rcases ht.taken with ⟨hx, hfree⟩ | ⟨hno, hfree⟩
    · simp [hfree, hx]
    · simp [hfree, hno, eq_comm, or_comm]

lemma Store.undoOne_held_other (hk : k ≠ e.holder) : (s.undoOne e).held k = s.held k := by
  cases hhad : e.had <;> simp [Store.undoOne, hhad, Function.update_of_ne hk]

lemma Store.undoOne_note_other (hk : k ≠ e.holder) : (s.undoOne e).note k = s.note k :=
  Function.update_of_ne hk _ _

/-- Emptying other holders commutes with undoing. -/
lemma Store.drop_undoOne (hno : e.holder ∉ out) : (s.drop out).undoOne e = (s.undoOne e).drop out := by
  have hne : ∀ {k}, k ∈ out → k ≠ e.holder := fun hk heq => hno (heq ▸ hk)
  refine Store.ext (funext fun k => ?_) (funext fun k => ?_) (Set.ext fun y => ?_)
  · by_cases hk : k ∈ out
    · rw [drop_held hk, undoOne_held_other (hne hk), drop_held hk]
    · rw [drop_held_of_not_mem hk]
      by_cases heq : k = e.holder
      · cases hhad : e.had <;> simp [Store.undoOne, hhad, heq, drop_held_of_not_mem hno]
      · rw [undoOne_held_other heq, undoOne_held_other heq, drop_held_of_not_mem hk]
  · by_cases hk : k ∈ out
    · rw [drop_note hk, undoOne_note_other (hne hk), drop_note hk]
    · rw [drop_note_of_not_mem hk]
      by_cases heq : k = e.holder
      · simp [Store.undoOne, heq]
      · rw [undoOne_note_other heq, undoOne_note_other heq, drop_note_of_not_mem hk]
  · have hlost : (∃ k ∈ out, (s.undoOne e).held k = some y) ↔ ∃ k ∈ out, s.held k = some y :=
      exists_congr fun k => and_congr_right fun hk => by rw [undoOne_held_other (hne hk)]
    rw [mem_drop_free, hlost]
    cases hhad : e.had
    · simp only [Store.undoOne, hhad, Bool.false_eq_true, if_false, drop_held_of_not_mem hno,
        Set.mem_union, mem_drop_free, Set.mem_ofPred_eq]
      exact or_right_comm
    · simp only [Store.undoOne, hhad, if_true, mem_drop_free]

lemma Store.drop_undo {log : List (Entry η ν)} (hno : ∀ e ∈ log, e.holder ∉ out) :
    (s.drop out).undo log = (s.undo log).drop out := by
  induction log generalizing s with
  | nil => rfl
  | cons e log ih =>
    show ((s.drop out).undoOne e).undo log = _
    rw [drop_undoOne (hno e List.mem_cons_self), ih fun e he => hno e (List.mem_cons_of_mem _ he)]
    rfl

lemma Store.undo_cons {log : List (Entry η ν)} : s.undo (e :: log) = (s.undoOne e).undo log := rfl

lemma Store.write_undoOne_self : (s.write e.holder v).undoOne e = s.undoOne e := by
  simp [Store.undoOne, Store.write]

lemma Store.write_undoOne (hk : h ≠ e.holder) :
    (s.write h v).undoOne e = (s.undoOne e).write h v := by
  simp [Store.undoOne, Store.write, Function.update_comm hk]

/-- A note written after its holder was logged is undone. -/
lemma Store.write_undo {log : List (Entry η ν)} (hin : ∃ e ∈ log, e.holder = h) :
    (s.write h v).undo log = s.undo log := by
  induction log generalizing s with
  | nil =>
    obtain ⟨e, he, _⟩ := hin
    cases he
  | cons e log ih =>
    rw [undo_cons, undo_cons]
    by_cases hk : h = e.holder
    · rw [hk, write_undoOne_self]
    · rw [write_undoOne hk]
      obtain ⟨e', he, heq⟩ := hin
      rcases List.mem_cons.1 he with rfl | he
      · exact absurd heq.symm hk
      · exact ih ⟨e', he, heq⟩

/-- A holder that is not in the log keeps what it has. -/
lemma Store.undo_other {log : List (Entry η ν)} (hno : ∀ e ∈ log, e.holder ≠ h) :
    (s.undo log).held h = s.held h ∧ (s.undo log).note h = s.note h := by
  induction log generalizing s with
  | nil => exact ⟨rfl, rfl⟩
  | cons e log ih =>
    have hne : h ≠ e.holder := (hno e List.mem_cons_self).symm
    obtain ⟨hheld, hnote⟩ := @ih (s.undoOne e) fun e he => hno e (List.mem_cons_of_mem _ he)
    rw [undo_cons, hheld, hnote]
    exact ⟨undoOne_held_other hne, undoOne_note_other hne⟩

end UndoLog
