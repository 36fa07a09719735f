import Mathlib.Data.List.TakeWhile
import Mathlib.Tactic.Common

/-!
# Matching a phrase in a text

A pattern is a list of literals and of runs of separators. A literal matches each character that some relation
holds of, a run one separator or more, as many as possible first. A search takes the first place where the pattern
matches between a character before and a character after that two guards let pass.
-/

namespace Phrases

variable {α β : Type}

/-- A literal, or a run of separators. -/
inductive Item (α : Type) where
  | lit (c : α)
  | spaces
  deriving DecidableEq

/-- A text matches a pattern. -/
inductive Reads (eq : α → β → Bool) (space : β → Bool) : List (Item α) → List β → Prop where
  | nil : Reads eq space [] []
  | lit {c x items text} : eq c x = true → Reads eq space items text → Reads eq space (.lit c :: items) (x :: text)
  | last {x items text} : space x = true → Reads eq space items text → Reads eq space (.spaces :: items) (x :: text)
  | more {x items text} : space x = true → Reads eq space (.spaces :: items) text →
    Reads eq space (.spaces :: items) (x :: text)

/-- The length of the pattern's match at the start of a text, that a guard lets end before the next character. -/
def matchHere (eq : α → β → Bool) (space : β → Bool) (after : Option β → Bool) : List (Item α) → List β → Option ℕ
  | [], text => if after text.head? then some 0 else none
  | .lit c :: items, x :: text => if eq c x then (matchHere eq space after items text).map (· + 1) else none
  | .spaces :: items, x :: text =>
    if space x then
      ((matchHere eq space after (.spaces :: items) text).or (matchHere eq space after items text)).map (· + 1)
    else none
  | _ :: _, [] => none

/-- The match at the start of a text whose guards let it pass. -/
def matchAt (eq : α → β → Bool) (space : β → Bool) (before after : Option β → Bool) (items : List (Item α))
    (previous : Option β) (text : List β) : Option ℕ :=
  if before previous then matchHere eq space after items text else none

/-- The first match in a text, from a position after a character. -/
def search (eq : α → β → Bool) (space : β → Bool) (before after : Option β → Bool) (items : List (Item α)) :
    Option β → ℕ → List β → Option (ℕ × ℕ)
  | previous, start, [] => (matchAt eq space before after items previous []).map fun n => (start, start + n)
  | previous, start, x :: text =>
    ((matchAt eq space before after items previous (x :: text)).map fun n => (start, start + n)).or
      (search eq space before after items (some x) (start + 1) text)

variable {eq : α → β → Bool} {space : β → Bool} {before after : Option β → Bool} {items front back : List (Item α)}
  {text rest : List β} {previous : Option β} {start n i j : ℕ}

/-! ## Texts of a pattern -/

lemma Reads.append (hfront : Reads eq space front text) (hback : Reads eq space back rest) :
    Reads eq space (front ++ back) (text ++ rest) := by
  induction hfront with
  | nil => exact hback
  | lit heq _ ih => exact Reads.lit heq ih
  | last hspace _ ih => exact Reads.last hspace ih
  | more hspace _ ih => exact Reads.more hspace ih

/-- A text of two patterns is a text of the first before a text of the second. -/
lemma Reads.split (h : Reads eq space (front ++ back) text) :
    ∃ first second, text = first ++ second ∧ Reads eq space front first ∧ Reads eq space back second := by
  generalize hitems : front ++ back = items at h
  induction h generalizing front with
  | nil =>
    obtain ⟨rfl, rfl⟩ := List.append_eq_nil_iff.1 hitems
    exact ⟨[], [], rfl, Reads.nil, Reads.nil⟩
  | lit heq h ih =>
    cases front with
    | nil =>
      cases hitems
      exact ⟨[], _, rfl, Reads.nil, Reads.lit heq h⟩
    | cons item front =>
      cases hitems
      obtain ⟨first, second, rfl, hfirst, hsecond⟩ := ih rfl
      exact ⟨_ :: first, second, rfl, Reads.lit heq hfirst, hsecond⟩
  | last hspace h ih =>
    cases front with
    | nil =>
      cases hitems
      exact ⟨[], _, rfl, Reads.nil, Reads.last hspace h⟩
    | cons item front =>
      cases hitems
      obtain ⟨first, second, rfl, hfirst, hsecond⟩ := ih rfl
      exact ⟨_ :: first, second, rfl, Reads.last hspace hfirst, hsecond⟩
  | more hspace h ih =>
    cases front with
    | nil =>
      cases hitems
      exact ⟨[], _, rfl, Reads.nil, Reads.more hspace h⟩
    | cons item front =>
      cases hitems
      obtain ⟨first, second, rfl, hfirst, hsecond⟩ := ih (List.cons_append ..)
      exact ⟨_ :: first, second, rfl, Reads.more hspace hfirst, hsecond⟩

/-- A run of separators matches one separator or more. -/
lemma Reads.run (hne : rest ≠ []) (hrest : ∀ x ∈ rest, space x = true) (h : Reads eq space items text) :
    Reads eq space (.spaces :: items) (rest ++ text) := by
  induction rest with
  | nil => exact absurd rfl hne
  | cons x rest ih =>
    obtain ⟨hx, hrest⟩ := List.forall_mem_cons.1 hrest
    cases rest with
    | nil => exact Reads.last hx h
    | cons y rest => exact Reads.more hx (ih (List.cons_ne_nil y rest) hrest)

/-- What a run of separators matches is one separator or more. -/
lemma Reads.run_inv (h : Reads eq space (.spaces :: items) text) : ∃ x spaces rest, text = x :: (spaces ++ rest) ∧
    space x = true ∧ (∀ x ∈ spaces, space x = true) ∧ Reads eq space items rest := by
  generalize hitems : Item.spaces :: items = pattern at h
  induction h with
  | nil => cases hitems
  | lit _ _ _ => cases hitems
  | last hspace h _ =>
    cases hitems
    exact ⟨_, [], _, rfl, hspace, List.forall_mem_nil _, h⟩
  | more hspace _ ih =>
    obtain ⟨y, spaces, rest, rfl, hy, hspaces, h⟩ := ih hitems
    exact ⟨_, y :: spaces, rest, rfl, hspace, List.forall_mem_cons.2 ⟨hy, hspaces⟩, by cases hitems; exact h⟩

/-- Literals alone match as many characters. -/
lemma reads_lits {chars : List α} : Reads eq space (chars.map .lit) text ↔
    List.Forall₂ (fun c x => eq c x = true) chars text := by
  constructor
  · intro h
    induction chars generalizing text with
    | nil =>
      cases h
      exact List.Forall₂.nil
    | cons c chars ih =>
      cases h with
      | lit heq h => exact List.Forall₂.cons heq (ih h)
  · intro h
    induction h with
    | nil => exact Reads.nil
    | cons heq _ ih => exact Reads.lit heq ih

/-! ## Matches at a place -/

/-- The match found matches the pattern, and the guard lets it end. -/
lemma matchHere_sound (h : matchHere eq space after items text = some n) : n ≤ text.length ∧
    Reads eq space items (text.take n) ∧ after (text.drop n).head? = true := by
  induction text generalizing items n with
  | nil =>
    cases items with
    | nil =>
      rw [matchHere] at h
      split at h
      · cases h
        exact ⟨le_rfl, Reads.nil, by assumption⟩
      · cases h
    | cons item items => cases item <;> cases h
  | cons x text ih =>
    cases items with
    | nil =>
      rw [matchHere] at h
      split at h
      · cases h
        exact ⟨Nat.zero_le _, Reads.nil, by assumption⟩
      · cases h
    | cons item items =>
      cases item with
      | lit c =>
        rw [matchHere] at h
        split at h
        · obtain ⟨k, hk, rfl⟩ := Option.map_eq_some_iff.1 h
          obtain ⟨hle, hreads, hafter⟩ := ih hk
          exact ⟨Nat.succ_le_succ hle, Reads.lit (by assumption) hreads, hafter⟩
        · cases h
      | spaces =>
        rw [matchHere] at h
        split at h
        · obtain ⟨k, hk, rfl⟩ := Option.map_eq_some_iff.1 h
          rcases Option.or_eq_some_iff.1 hk with hmore | ⟨-, hlast⟩
          · obtain ⟨hle, hreads, hafter⟩ := ih hmore
            exact ⟨Nat.succ_le_succ hle, Reads.more (by assumption) hreads, hafter⟩
          · obtain ⟨hle, hreads, hafter⟩ := ih hlast
            exact ⟨Nat.succ_le_succ hle, Reads.last (by assumption) hreads, hafter⟩
        · cases h

/-- Where the text starts with a match, one is found. -/
lemma matchHere_complete (h : Reads eq space items text) (hafter : after rest.head? = true) :
    (matchHere eq space after items (text ++ rest)).isSome = true := by
  induction h with
  | nil => cases rest <;> rw [List.nil_append, matchHere, if_pos hafter] <;> rfl
  | lit heq _ ih => rw [List.cons_append, matchHere, if_pos heq, Option.isSome_map, ih]
  | last hspace _ ih => rw [List.cons_append, matchHere, if_pos hspace, Option.isSome_map, Option.isSome_or, ih, Bool.or_true]
  | more hspace _ ih => rw [List.cons_append, matchHere, if_pos hspace, Option.isSome_map, Option.isSome_or, ih, Bool.true_or]

/-! ## The search -/

/-- The character before a position of a text that some character is before. -/
def lastOf (previous : Option β) (front : List β) : Option β := front.getLast?.or previous

lemma lastOf_cons {x : β} {front : List β} : lastOf previous (x :: front) = lastOf (some x) front := by
  cases front with
  | nil => rfl
  | cons y front => rw [lastOf, lastOf, List.getLast?_cons_cons, List.getLast?_cons]; rfl

/-- A text holds the pattern between characters that the guards let pass. -/
def Held (eq : α → β → Bool) (space : β → Bool) (before after : Option β → Bool) (items : List (Item α))
    (previous : Option β) (text : List β) : Prop :=
  ∃ front found rest, text = front ++ found ++ rest ∧ Reads eq space items found ∧
    before (lastOf previous front) = true ∧ after rest.head? = true

lemma matchAt_isSome : (matchAt eq space before after items previous text).isSome = true ↔
    ∃ found rest, text = found ++ rest ∧ Reads eq space items found ∧ before previous = true ∧
      after rest.head? = true := by
  rw [matchAt]
  constructor
  · intro h
    split at h
    · obtain ⟨n, hn⟩ := Option.isSome_iff_exists.1 h
      obtain ⟨-, hreads, hafter⟩ := matchHere_sound hn
      exact ⟨text.take n, text.drop n, (List.take_append_drop n text).symm, hreads, by assumption, hafter⟩
    · cases h
  · intro h
    obtain ⟨found, rest, rfl, hreads, hbefore, hafter⟩ := h
    rw [if_pos hbefore]
    exact matchHere_complete hreads hafter

lemma matchAt_sound (h : matchAt eq space before after items previous text = some n) :
    n ≤ text.length ∧ Reads eq space items (text.take n) := by
  rw [matchAt] at h
  split at h
  · obtain ⟨hle, hreads, -⟩ := matchHere_sound h
    exact ⟨hle, hreads⟩
  · cases h

lemma search_of_some (h : matchAt eq space before after items previous text = some n) :
    search eq space before after items previous start text = some (start, start + n) := by
  cases text <;> rw [search, h] <;> rfl

lemma search_nil (h : matchAt eq space before after items previous [] = none) :
    search eq space before after items previous start [] = none := by
  rw [search, h]
  rfl

lemma search_cons {x : β} (h : matchAt eq space before after items previous (x :: text) = none) :
    search eq space before after items previous start (x :: text) =
      search eq space before after items (some x) (start + 1) text := by
  rw [search, h]
  rfl

/-- A text holds a pattern at its start, or the text after its first character does. -/
lemma held_cons {x : β} : Held eq space before after items previous (x :: text) ↔
    (matchAt eq space before after items previous (x :: text)).isSome = true ∨
      Held eq space before after items (some x) text := by
  rw [matchAt_isSome]
  constructor
  · intro h
    obtain ⟨front, found, rest, htext, hreads, hbefore, hafter⟩ := h
    cases front with
    | nil => exact Or.inl ⟨found, rest, htext, hreads, hbefore, hafter⟩
    | cons y front =>
      cases htext
      rw [lastOf_cons] at hbefore
      exact Or.inr ⟨front, found, rest, rfl, hreads, hbefore, hafter⟩
  · intro h
    rcases h with ⟨found, rest, htext, hreads, hbefore, hafter⟩ | ⟨front, found, rest, rfl, hreads, hbefore, hafter⟩
    · exact ⟨[], found, rest, htext, hreads, hbefore, hafter⟩
    · refine ⟨x :: front, found, rest, rfl, hreads, ?_, hafter⟩
      rw [lastOf_cons]
      exact hbefore

lemma held_nil : Held eq space before after items previous [] ↔
    (matchAt eq space before after items previous []).isSome = true := by
  rw [matchAt_isSome]
  constructor
  · intro h
    obtain ⟨front, found, rest, htext, hreads, hbefore, hafter⟩ := h
    obtain ⟨hfront, rfl⟩ := List.append_eq_nil_iff.1 htext.symm
    obtain ⟨rfl, rfl⟩ := List.append_eq_nil_iff.1 hfront
    exact ⟨[], [], rfl, hreads, hbefore, hafter⟩
  · intro h
    obtain ⟨found, rest, htext, hreads, hbefore, hafter⟩ := h
    exact ⟨[], found, rest, htext, hreads, hbefore, hafter⟩

/-- The search finds a match in a text that holds one, and in no other. -/
theorem search_isSome : (search eq space before after items previous start text).isSome = true ↔
    Held eq space before after items previous text := by
  induction text generalizing previous start with
  | nil =>
    rw [held_nil]
    cases h : matchAt eq space before after items previous [] with
    | none => rw [search_nil h]; rfl
    | some n => rw [search_of_some h]; rfl
  | cons x text ih =>
    rw [held_cons]
    cases h : matchAt eq space before after items previous (x :: text) with
    | none =>
      rw [search_cons h, ih]
      exact ⟨Or.inr, fun h => h.resolve_left (by simp)⟩
    | some n =>
      rw [search_of_some h]
      exact ⟨fun _ => Or.inl rfl, fun _ => rfl⟩

/-- A match that the search finds is one. -/
theorem search_sound (h : search eq space before after items previous start text = some (i, j)) : start ≤ i ∧ i ≤ j ∧
    j ≤ start + text.length ∧ Reads eq space items ((text.take (j - start)).drop (i - start)) := by
  induction text generalizing previous start with
  | nil =>
    cases hmatch : matchAt eq space before after items previous [] with
    | none => rw [search_nil hmatch] at h; cases h
    | some n =>
      rw [search_of_some hmatch] at h
      cases h
      obtain ⟨hle, hreads⟩ := matchAt_sound hmatch
      rw [Nat.add_sub_cancel_left, Nat.sub_self, List.drop_zero]
      exact ⟨le_rfl, Nat.le_add_right _ _, Nat.add_le_add_left hle _, hreads⟩
  | cons x text ih =>
    cases hmatch : matchAt eq space before after items previous (x :: text) with
    | none =>
      rw [search_cons hmatch] at h
      obtain ⟨hstart, hle, hend, hreads⟩ := ih h
      refine ⟨by omega, hle, by rw [List.length_cons]; omega, ?_⟩
      obtain ⟨a, rfl⟩ := Nat.exists_eq_add_of_le hstart
      obtain ⟨b, rfl⟩ := Nat.exists_eq_add_of_le hle
      rw [show start + 1 + a + b - (start + 1) = a + b by omega, show start + 1 + a - (start + 1) = a by omega] at hreads
      rwa [show start + 1 + a + b - start = a + b + 1 by omega, show start + 1 + a - start = a + 1 by omega,
        List.take_succ_cons, List.drop_succ_cons]
    | some n =>
      rw [search_of_some hmatch] at h
      cases h
      obtain ⟨hle, hreads⟩ := matchAt_sound hmatch
      rw [Nat.add_sub_cancel_left, Nat.sub_self, List.drop_zero]
      exact ⟨le_rfl, Nat.le_add_right _ _, Nat.add_le_add_left hle _, hreads⟩

end Phrases
