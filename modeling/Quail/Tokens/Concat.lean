import Quail.Lib.PySlice
import Mathlib.Data.List.Flatten
import Mathlib.Algebra.BigOperators.Group.List.Basic
import Mathlib.Algebra.GroupWithZero.Nat

/-!
# Concatenated tokens

`TokenView` and `TokenConcat` of `catalog/tokens.py`: token parts read in sequence without copying them. The
parts are lists or views of Arrow arrays, and nested concatenations are flattened. Slices of step one stay
lazy over the parts, each sliced to its share; the run lemma `slices_iter` reads every chain of slices as the
same chain over the list of the tokens.
-/

namespace Quail.Tokens

/-! ## The source -/

/-- Token values in an Arrow array, with each token's character range if it is known. -/
structure TokenView where
  values : List ℤ
  characterOffsets : Option (List (ℕ × ℕ))
  deriving Repr, DecidableEq

/-- A part of a concatenation: a list, tuple or array of tokens, or a view. -/
inductive TokenPart where
  | plain (tokens : List ℤ)
  | arrow (view : TokenView)
  deriving Repr, DecidableEq

/-- `list(part)`. -/
def TokenPart.iter : TokenPart → List ℤ
  | .plain tokens => tokens
  | .arrow view => view.values

/-- The parts of a `TokenConcat`, none of them empty. -/
structure TokenConcat where
  parts : List TokenPart
  nonempty : ∀ part ∈ parts, part.iter ≠ []

/-- What `TokenConcat` takes, and what a slice of one is. -/
inductive TokenSequence where
  | single (part : TokenPart)
  | joined (concat : TokenConcat)

/-- `token_parts`, without the empty ones. -/
def TokenSequence.kept : TokenSequence → List TokenPart
  | .single part => if part.iter.length = 0 then [] else [part]
  | .joined concat => concat.parts

lemma TokenSequence.kept_nonempty (sequence : TokenSequence) : ∀ part ∈ sequence.kept, part.iter ≠ [] := by
  cases sequence with
  | single part =>
    rw [kept]
    split
    · exact fun _ h => absurd h List.not_mem_nil
    · rename_i hne
      intro p hp
      obtain rfl := List.mem_singleton.1 hp
      exact fun hnil => hne (List.length_eq_zero_iff.2 hnil)
  | joined concat => exact concat.nonempty

/-- `TokenConcat(*parts)`. -/
def TokenConcat.of (parts : List TokenSequence) : TokenConcat where
  parts := parts.flatMap TokenSequence.kept
  nonempty := by
    intro part hpart
    obtain ⟨sequence, -, hkept⟩ := List.mem_flatMap.1 hpart
    exact sequence.kept_nonempty part hkept

namespace TokenConcat

/-- `len(concat)`. -/
def length (concat : TokenConcat) : ℕ := (concat.parts.map fun part => part.iter.length).sum

/-- `list(concat)`. -/
def iter (concat : TokenConcat) : List ℤ := concat.parts.flatMap TokenPart.iter

end TokenConcat

section
variable (arraySlice : (α : Type) → List α → ℤ → ℤ → Except PyError (List α))

/-- `TokenView.__getitem__` with a slice. -/
def TokenView.slice (view : TokenView) (s : PySlice) : Except PyError TokenPart := do
  let (start, stop, step) ← s.indices view.values.length
  if step ≠ 1 then return .plain (← s.get view.values)
  let offsets ← view.characterOffsets.mapM fun offsets => arraySlice (ℕ × ℕ) offsets start (stop - start)
  return .arrow ⟨← arraySlice ℤ view.values start (stop - start), offsets⟩

def TokenPart.slice : TokenPart → PySlice → Except PyError TokenPart
  | .plain tokens, s => (s.get tokens).map .plain
  | .arrow view, s => view.slice arraySlice s

/-- What a part at an offset adds to a slice. -/
def slicedPart (start stop offset : ℤ) (part : TokenPart) : Except PyError (List TokenSequence) :=
  if start < offset + part.iter.length ∧ offset < stop then
    (part.slice arraySlice ⟨some (max 0 (start - offset)), some (stop - offset), none⟩).map fun cut => [.single cut]
  else .ok []

/-- The parts covering `[start, stop)`, each sliced to it. -/
def slicedParts (start stop : ℤ) : ℤ → List TokenPart → Except PyError (List TokenSequence)
  | _, [] => .ok []
  | offset, part :: parts => do
    let cut ← slicedPart arraySlice start stop offset part
    if stop ≤ offset + part.iter.length then return cut
    return cut ++ (← slicedParts start stop (offset + part.iter.length) parts)

/-- `TokenConcat.__getitem__` with a slice. -/
def TokenConcat.slice (concat : TokenConcat) (s : PySlice) : Except PyError TokenSequence := do
  let (start, stop, step) ← s.indices concat.length
  if step ≠ 1 then return .single (.plain (← s.get concat.iter))
  return .joined (.of (← slicedParts arraySlice start stop 0 concat.parts))

def TokenSequence.slice : TokenSequence → PySlice → Except PyError TokenSequence
  | .single part, s => (part.slice arraySlice s).map .single
  | .joined concat, s => concat.slice arraySlice s

/-- A chain of slices. -/
def TokenSequence.slices : List PySlice → TokenSequence → Except PyError TokenSequence
  | [], sequence => .ok sequence
  | s :: rest, sequence => sequence.slice arraySlice s >>= slices rest

end

/-- `part[index]`. -/
def TokenPart.item (part : TokenPart) (index : ℤ) : Except PyError ℤ := PySlice.item part.iter index

/-- The token at an index, from the parts that hold it and what comes after. -/
def locate (index : ℤ) : List TokenPart → ℤ → Except PyError ℤ
  | [], _ => .error (.index (toString index))
  | part :: parts, left => if left < part.iter.length then part.item left else locate index parts (left - part.iter.length)

/-- `TokenConcat.__getitem__` with an index. -/
def TokenConcat.item (concat : TokenConcat) (index : ℤ) : Except PyError ℤ :=
  let index := PySlice.position concat.length index
  if ¬(0 ≤ index ∧ index < concat.length) then .error (.index (toString index)) else locate index concat.parts index

namespace TokenSequence

def length : TokenSequence → ℕ
  | .single part => part.iter.length
  | .joined concat => concat.length

def iter : TokenSequence → List ℤ
  | .single part => part.iter
  | .joined concat => concat.iter

def item : TokenSequence → ℤ → Except PyError ℤ
  | .single part, index => part.item index
  | .joined concat, index => concat.item index

end TokenSequence

/-! ## Nested concatenations -/

/-- Concatenations of concatenations of parts, as calls of `TokenConcat` nest. -/
inductive TokenTree where
  | leaf (part : TokenPart)
  | node (children : List TokenTree)

mutual

/-- The sequence a tree of calls makes. -/
def TokenTree.make : TokenTree → TokenSequence
  | .leaf part => .single part
  | .node children => .joined (.of (TokenTree.makeAll children))

def TokenTree.makeAll : List TokenTree → List TokenSequence
  | [] => []
  | child :: children => child.make :: TokenTree.makeAll children

end

mutual

/-- The tokens of the leaves, from left to right. -/
def TokenTree.tokens : TokenTree → List ℤ
  | .leaf part => part.iter
  | .node children => TokenTree.tokensAll children

def TokenTree.tokensAll : List TokenTree → List ℤ
  | [] => []
  | child :: children => child.tokens ++ TokenTree.tokensAll children

end

/-! ## One slice -/

variable {arraySlice : (α : Type) → List α → ℤ → ℤ → Except PyError (List α)} {part : TokenPart} {s : PySlice}
  {start stop offset : ℤ} {parts : List TokenPart} {concat : TokenConcat} {sequence : TokenSequence}

/-- A slice of an Arrow array: some elements from a position on, clamped to the array. -/
def IsArraySlice (arraySlice : (α : Type) → List α → ℤ → ℤ → Except PyError (List α)) : Prop :=
  ∀ (α : Type) (xs : List α) (i k : ℤ), 0 ≤ i → 0 ≤ k → arraySlice α xs i k = .ok ((xs.drop i.toNat).take k.toNat)

lemma TokenView.slice_iter {view : TokenView} (h : IsArraySlice arraySlice)
    (hs : s.indices view.values.length = .ok (start, stop, 1)) (hle : start ≤ stop) :
    ∃ cut, view.slice arraySlice s = .ok cut ∧ cut.iter = (view.values.take stop.toNat).drop start.toNat := by
  have hstart := (PySlice.indices_mem hs).1.1
  have hvalues := h ℤ view.values start (stop - start) hstart (by omega)
  have hcut : (view.values.drop start.toNat).take (stop - start).toNat
      = (view.values.take stop.toNat).drop start.toNat := by
    rw [List.drop_take]
    congr 1
    omega
  rw [slice, hs]
  cases hoffsets : view.characterOffsets with
  | none =>
    refine ⟨.arrow ⟨(view.values.drop start.toNat).take (stop - start).toNat, none⟩, ?_, hcut⟩
    simp [hvalues]
  | some offsets =>
    have hslice := h (ℕ × ℕ) offsets start (stop - start) hstart (by omega)
    refine ⟨.arrow ⟨(view.values.drop start.toNat).take (stop - start).toNat,
      some ((offsets.drop start.toNat).take (stop - start).toNat)⟩, ?_, hcut⟩
    simp [hslice, hvalues]

/-- A part's slice of step one holds the part between its ends; those of a view must be in order. -/
lemma TokenPart.slice_iter (h : IsArraySlice arraySlice) (hs : s.indices part.iter.length = .ok (start, stop, 1))
    (hle : ∀ view, part = .arrow view → start ≤ stop) :
    ∃ cut, part.slice arraySlice s = .ok cut ∧ cut.iter = (part.iter.take stop.toNat).drop start.toNat := by
  cases part with
  | plain tokens =>
    refine ⟨.plain ((tokens.take stop.toNat).drop start.toNat), ?_, rfl⟩
    exact congrArg (Except.map TokenPart.plain) (PySlice.get_of_indices hs)
  | arrow view => exact TokenView.slice_iter h hs (hle view rfl)

/-- No view holds both ends of a slice whose ends are out of order. -/
def InOrder (start stop offset : ℤ) (parts : List TokenPart) : Prop :=
  stop < start → ∀ before view after, parts = before ++ .arrow view :: after →
    ¬(offset + (before.map fun part => part.iter.length).sum < stop ∧
      start < offset + (before.map fun part => part.iter.length).sum + view.values.length)

/-- What one part adds to a slice. -/
lemma slicedPart_iter (h : IsArraySlice arraySlice) (horder : InOrder start stop offset (part :: parts)) :
    ∃ cut, slicedPart arraySlice start stop offset part = .ok cut ∧
      cut.flatMap TokenSequence.iter = (part.iter.take (stop - offset).toNat).drop (start - offset).toNat := by
  rw [slicedPart]
  split
  · rename_i hcover
    obtain ⟨hstart, hstop⟩ := hcover
    obtain ⟨a, ha⟩ := Int.eq_ofNat_of_zero_le (le_max_left 0 (start - offset))
    obtain ⟨b, hb⟩ := Int.eq_ofNat_of_zero_le (sub_nonneg.2 hstop.le)
    have hle : ∀ view, part = .arrow view → ((min a part.iter.length : ℕ) : ℤ) ≤ (min b part.iter.length : ℕ) := by
      intro view hview
      have hforward : start ≤ stop := by
        by_contra hgt
        subst hview
        refine horder (not_le.1 hgt) [] view parts rfl ⟨by simpa using hstop, ?_⟩
        simpa [TokenPart.iter] using hstart
      omega
    rw [ha, hb]
    obtain ⟨cut, hcut, hiter⟩ := TokenPart.slice_iter h PySlice.indices_natCast hle
    refine ⟨[.single cut], by rw [hcut]; rfl, ?_⟩
    rw [List.flatMap_singleton, TokenSequence.iter, hiter, Int.toNat_natCast, Int.toNat_natCast, PySlice.take_drop_min]
    congr 1
    omega
  · rename_i hcover
    refine ⟨[], rfl, ?_⟩
    -- the part ends before the slice starts, or starts after it stops
    rcases lt_or_ge start (offset + part.iter.length) with hstart | hstart
    · have hzero : (stop - offset).toNat = 0 := by
        have := not_lt.1 fun hstop => hcover ⟨hstart, hstop⟩
        omega
      rw [hzero, List.take_zero, List.drop_nil]
      rfl
    · rw [List.drop_of_length_le]
      · rfl
      · rw [List.length_take]
        omega

lemma InOrder.tail (horder : InOrder start stop offset (part :: parts)) :
    InOrder start stop (offset + part.iter.length) parts := by
  intro hlt before view after hparts hends
  refine horder hlt (part :: before) view after (by rw [hparts]; rfl) ?_
  rw [List.map_cons, List.sum_cons]
  constructor
  · have := hends.1
    omega
  · have := hends.2
    omega

/-- The sliced parts hold the tokens between the ends. -/
lemma slicedParts_iter (h : IsArraySlice arraySlice) (horder : InOrder start stop offset parts) :
    ∃ cuts, slicedParts arraySlice start stop offset parts = .ok cuts ∧ cuts.flatMap TokenSequence.iter
      = ((parts.flatMap TokenPart.iter).take (stop - offset).toNat).drop (start - offset).toNat := by
  induction parts generalizing offset with
  | nil => exact ⟨[], rfl, by simp⟩
  | cons part parts ih =>
    obtain ⟨cut, hcut, hiter⟩ := slicedPart_iter h horder
    obtain ⟨rest, hrest, hrestIter⟩ := ih horder.tail
    rw [slicedParts]
    rw [hcut, ok_bind, hrest, ok_bind, List.flatMap_cons, List.take_append, List.drop_append]
    split
    · rename_i hend
      refine ⟨cut, rfl, ?_⟩
      have hzero : (stop - offset).toNat - part.iter.length = 0 := by omega
      rw [hiter, hzero, List.take_zero, List.drop_nil, List.append_nil]
    · rename_i hend
      refine ⟨cut ++ rest, rfl, ?_⟩
      have hstop : (stop - offset).toNat - part.iter.length = (stop - (offset + part.iter.length)).toNat := by omega
      have hlength : (part.iter.take (stop - offset).toNat).length = part.iter.length := by
        rw [List.length_take]
        omega
      have hstart : (start - offset).toNat - part.iter.length = (start - (offset + part.iter.length)).toNat := by omega
      rw [List.flatMap_append, hiter, hrestIter, hlength, hstop, hstart]

lemma TokenConcat.length_eq : concat.length = concat.iter.length := by
  rw [length, iter, List.length_flatMap]

lemma TokenSequence.kept_iter (sequence : TokenSequence) : sequence.kept.flatMap TokenPart.iter = sequence.iter := by
  cases sequence with
  | single part =>
    rw [kept]
    split
    · rename_i hempty
      exact (List.length_eq_zero_iff.1 hempty).symm
    · rw [List.flatMap_singleton]
      rfl
  | joined concat => rfl

lemma TokenConcat.of_iter (sequences : List TokenSequence) :
    (TokenConcat.of sequences).iter = sequences.flatMap TokenSequence.iter := by
  rw [of, iter, List.flatMap_assoc]
  exact List.flatMap_congr fun sequence _ => sequence.kept_iter

lemma TokenSequence.length_eq : sequence.length = sequence.iter.length := by
  cases sequence with
  | single part => rfl
  | joined concat => exact TokenConcat.length_eq

/-- A slice of step one whose ends are out of order and inside one view. -/
def TokenSequence.Reversed (sequence : TokenSequence) (s : PySlice) : Prop :=
  ∃ start stop, s.indices sequence.length = .ok (start, stop, 1) ∧ match sequence with
    | .single part => stop < start ∧ ∃ view, part = .arrow view
    | .joined concat => ¬InOrder start stop 0 concat.parts

lemma TokenSequence.not_reversed (start stop : ℤ) (h : s.indices sequence.length = .ok (start, stop, 1)) (hle : start ≤ stop) :
    ¬sequence.Reversed s := by
  rintro ⟨first, last, hindices, hends⟩
  rw [h] at hindices
  cases hindices
  cases sequence with
  | single part => exact absurd hends.1 (not_lt.2 hle)
  | joined concat => exact hends fun hlt => absurd hlt (not_lt.2 hle)

lemma TokenPart.slice_get (h : IsArraySlice arraySlice)
    (hle : ∀ start stop, s.indices part.iter.length = .ok (start, stop, 1) → ∀ view, part = .arrow view → start ≤ stop) :
    (part.slice arraySlice s).map TokenPart.iter = s.get part.iter := by
  cases part with
  | plain tokens =>
    rw [slice]
    cases hget : s.get tokens <;> exact hget.symm
  | arrow view =>
    rw [slice, iter]
    cases hindices : s.indices view.values.length with
    | error e =>
      rw [TokenView.slice, PySlice.get_error hindices, hindices]
      rfl
    | ok ends =>
      obtain ⟨start, stop, step⟩ := ends
      by_cases hstep : step = 1
      · subst hstep
        obtain ⟨cut, hcut, hiter⟩ := TokenView.slice_iter h hindices (hle start stop hindices view rfl)
        rw [PySlice.get_of_indices hindices, ← hiter, hcut]
        rfl
      · rw [TokenView.slice, PySlice.get_ok hindices, hindices, ok_bind]
        dsimp only
        rw [if_pos hstep]
        rfl

lemma TokenConcat.slice_get (h : IsArraySlice arraySlice)
    (horder : ∀ start stop, s.indices concat.length = .ok (start, stop, 1) → InOrder start stop 0 concat.parts) :
    (concat.slice arraySlice s).map TokenSequence.iter = s.get concat.iter := by
  rw [slice, length_eq]
  rw [length_eq] at horder
  cases hindices : s.indices concat.iter.length with
  | error e =>
    rw [PySlice.get_error hindices]
    rfl
  | ok ends =>
    obtain ⟨start, stop, step⟩ := ends
    rw [ok_bind]
    dsimp only
    by_cases hstep : step = 1
    · subst hstep
      obtain ⟨cuts, hcuts, hiter⟩ := slicedParts_iter h (horder start stop hindices)
      rw [if_neg (not_not.2 rfl), hcuts, PySlice.get_of_indices hindices]
      rw [sub_zero, sub_zero] at hiter
      exact congrArg Except.ok ((TokenConcat.of_iter cuts).trans hiter)
    · rw [if_pos hstep, PySlice.get_ok hindices]
      rfl

/-- Any other slice of a sequence is the list's slice. -/
theorem TokenSequence.slice_iter (h : IsArraySlice arraySlice) (hs : ¬sequence.Reversed s) :
    (sequence.slice arraySlice s).map TokenSequence.iter = s.get sequence.iter := by
  cases sequence with
  | single part =>
    rw [slice, TokenSequence.iter, ← TokenPart.slice_get h]
    · cases part.slice arraySlice s <;> rfl
    · intro start stop hindices view hview
      by_contra hlt
      exact hs ⟨start, stop, hindices, not_le.1 hlt, view, hview⟩
  | joined concat =>
    refine concat.slice_get h fun start stop hindices => ?_
    by_contra horder
    exact hs ⟨start, stop, hindices, horder⟩

/-! ## Chains of slices -/

/-- The same chain of slices over a list. -/
def listSlices : List PySlice → List ℤ → Except PyError (List ℤ)
  | [], tokens => .ok tokens
  | s :: rest, tokens => s.get tokens >>= listSlices rest

/-- No slice of a chain has its ends out of order inside one view. -/
def TokenSequence.Forward (arraySlice : (α : Type) → List α → ℤ → ℤ → Except PyError (List α)) :
    List PySlice → TokenSequence → Prop
  | [], _ => True
  | s :: rest, sequence => ¬sequence.Reversed s ∧
      ∀ cut, sequence.slice arraySlice s = .ok cut → TokenSequence.Forward arraySlice rest cut

/-- A chain of slices reads as the same chain over the list of the tokens. -/
theorem TokenSequence.slices_iter {slices : List PySlice} (h : IsArraySlice arraySlice)
    (hforward : sequence.Forward arraySlice slices) :
    (sequence.slices arraySlice slices).map TokenSequence.iter = listSlices slices sequence.iter := by
  induction slices generalizing sequence with
  | nil => rfl
  | cons s rest ih =>
    obtain ⟨hs, hrest⟩ := hforward
    have hslice := TokenSequence.slice_iter h hs
    rw [slices, listSlices, ← hslice]
    cases hcut : sequence.slice arraySlice s with
    | error e => rfl
    | ok cut => exact ih (hrest cut hcut)

/-! ## Items -/

lemma locate_eq {index left : ℤ} (hleft : 0 ≤ left) (hlt : left < (parts.flatMap TokenPart.iter).length) :
    locate index parts left = PySlice.item (parts.flatMap TokenPart.iter) left := by
  induction parts generalizing left with
  | nil => simp at hlt; omega
  | cons part parts ih =>
    rw [List.flatMap_cons, List.length_append] at hlt
    obtain ⟨x, hx, hget⟩ := PySlice.item_of_lt (part.iter ++ parts.flatMap TokenPart.iter) hleft
      (by rw [List.length_append]; exact hlt)
    rw [List.flatMap_cons, hx, locate]
    split
    · rename_i hin
      rw [List.getElem?_append_left (by omega)] at hget
      obtain ⟨y, hy, hget'⟩ := PySlice.item_of_lt part.iter hleft hin
      rw [TokenPart.item, hy, Option.some.inj (hget'.symm.trans hget)]
    · rename_i hout
      have hshift : left.toNat - part.iter.length = (left - part.iter.length).toNat := by omega
      rw [List.getElem?_append_right (by omega), hshift] at hget
      obtain ⟨y, hy, hget'⟩ := @PySlice.item_of_lt _ (left - part.iter.length) (parts.flatMap TokenPart.iter)
        (by omega) (by push_cast at hlt ⊢; omega)
      rw [ih (by omega) (by push_cast at hlt ⊢; omega), hy, Option.some.inj (hget'.symm.trans hget)]

lemma TokenConcat.item_iter (index : ℤ) : PySlice.SameItem (concat.item index) (PySlice.item concat.iter index) := by
  rw [item, length_eq]
  split
  · rename_i hout
    exact Or.inr ⟨_, _, rfl, PySlice.item_error hout⟩
  · rename_i hin
    obtain ⟨hlow, hhigh⟩ := not_not.1 hin
    obtain ⟨x, hx, -⟩ := PySlice.item_of_lt concat.iter hlow hhigh
    exact Or.inl ⟨x, (locate_eq hlow hhigh).trans hx, (PySlice.item_position hlow).symm.trans hx⟩

/-- An index gives the list's token, or raises an IndexError where the list does. -/
theorem TokenSequence.item_iter (index : ℤ) : PySlice.SameItem (sequence.item index) (PySlice.item sequence.iter index) := by
  cases sequence with
  | single part => exact PySlice.sameItem_item
  | joined concat => exact concat.item_iter index

/-! ## Trees -/

mutual

/-- The sequence that nested calls make holds the tokens of all leaves. -/
theorem TokenTree.make_iter : ∀ tree : TokenTree, tree.make.iter = tree.tokens
  | .leaf _ => rfl
  | .node children => by
    rw [make, TokenSequence.iter, TokenConcat.of_iter, TokenTree.makeAll_iter children, tokens]

theorem TokenTree.makeAll_iter : ∀ children : List TokenTree,
    (TokenTree.makeAll children).flatMap TokenSequence.iter = TokenTree.tokensAll children
  | [] => rfl
  | child :: children => by
    rw [makeAll, List.flatMap_cons, TokenTree.make_iter child, TokenTree.makeAll_iter children, tokensAll]

end

end Quail.Tokens
