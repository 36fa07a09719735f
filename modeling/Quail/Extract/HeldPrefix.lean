import Quail.Lib.Phrases
import Quail.Tokens.TokenSpan
import Mathlib.Data.List.DropRight

/-!
# The longest prefix that a document holds

`held_prefix` and `_word_span` of `execution/spans.py`. A prefix of the phrase is looked for as whole words, first as
it is and then up to case and whitespace, and the longest one that is found by halving the number of its words and
marks. The halving finds it wherever shortening a prefix that is found gives one that is found, which a letter of
the document that equals a mark of the phrase up to case can break: the guard after the shorter prefix refuses it.
-/

namespace Quail.Extract
open Phrases Quail.Tokens

/-! ## The source -/

/-- What is known of characters: `str.isalnum`, and which character of a text `re.IGNORECASE` takes for which
character of a pattern. -/
structure CharTable where
  isalnum : Char → Bool
  sameCase : Char → Char → Bool
  isalnum_of_space : ∀ c, isspace c = true → isalnum c = false
  sameCase_refl : ∀ c, sameCase c c = true
  isspace_eq : ∀ c x, sameCase c x = true → isspace c = isspace x

/-- `\w` of a character. -/
def CharTable.word (table : CharTable) (c : Char) : Bool := table.isalnum c || c == '_'

/-- A word with one more character at its start. -/
def consHead (c : Char) : List (List Char) → List (List Char)
  | [] => [[c]]
  | word :: words => (c :: word) :: words

/-- `str.split()`. -/
def split : List Char → List (List Char)
  | [] => []
  | c :: rest =>
    if isspace c then split rest
    else if rest.head?.all isspace then [c] :: split rest
    else consHead c (split rest)

/-- `str.rstrip()`. -/
def rstrip : List Char → List Char
  | [] => []
  | c :: rest => if isspace c && (rstrip rest).isEmpty then [] else c :: rstrip rest

/-- `str.strip()`. -/
def strip (text : List Char) : List Char := (rstrip text).dropWhile isspace

/-- The words as they are, with a run of whitespace between each two. -/
def joined : List (List Char) → List (Item Char)
  | [] => []
  | [word] => word.map .lit
  | word :: next :: words => word.map .lit ++ .spaces :: joined (next :: words)

/-- `(?<!\w)` before a phrase that starts with a letter or digit. -/
def headGuard (table : CharTable) (stripped : List Char) (previous : Option Char) : Bool :=
  if stripped.head?.any table.isalnum then !previous.any table.word else true

/-- `(?!\w)` after a phrase that ends with a letter or digit. -/
def tailGuard (table : CharTable) (stripped : List Char) (next : Option Char) : Bool :=
  if stripped.getLast?.any table.isalnum then !next.any table.word else true

/-- The span where the document holds the phrase as whole words. -/
def wordSpan (table : CharTable) (document phrase : List Char) : Option (ℕ × ℕ) :=
  let words := split phrase
  if words = [] then none
  else
    let head := headGuard table (strip phrase)
    let tail := tailGuard table (strip phrase)
    (search (· == ·) isspace head tail ((strip phrase).map .lit) none 0 document).or
      (search table.sameCase isspace head tail (joined words) none 0 document)

/-- The ends of the words `\w+` and the marks `[^\w\s]` of a text, from a position on. -/
def wordEnds (table : CharTable) : ℕ → List Char → List ℕ
  | _, [] => []
  | start, c :: rest =>
    if table.word c && rest.head?.any table.word || isspace c then wordEnds table (start + 1) rest
    else (start + 1) :: wordEnds table (start + 1) rest

/-- The loop of `held_prefix`, for at most so many rounds. -/
def longest (found : ℕ → Bool) : ℕ → ℕ → ℕ → ℕ
  | 0, low, _ => low
  | rounds + 1, low, high =>
    if low < high then
      if found ((low + high + 1) / 2 - 1) then longest found rounds ((low + high + 1) / 2) high
      else longest found rounds low ((low + high + 1) / 2 - 1)
    else low

/-- `phrase[:ends[i]]`. -/
def prefixAt (table : CharTable) (phrase : List Char) (i : ℕ) : List Char :=
  phrase.take ((wordEnds table 0 phrase).getD i 0)

/-- The longest prefix of the phrase the document holds, and its span. -/
def heldPrefix (table : CharTable) (document phrase : List Char) : Option (List Char × Option (ℕ × ℕ)) :=
  let ends := wordEnds table 0 phrase
  let low := longest (fun i => (wordSpan table document (prefixAt table phrase i)).isSome) ends.length 0 ends.length
  if low = 0 then none
  else
    let held := strip (prefixAt table phrase (low - 1))
    some (held, wordSpan table document held)

variable {table : CharTable} {document phrase text front gap token rest : List Char} {c x : Char} {i k n : ℕ}
  {words : List (List Char)} {word : List Char}

/-! ## The halving -/

lemma longest_spec {p : ℕ → Bool} (hclosed : ∀ i j, i ≤ j → j < n → p j = true → p i = true) :
    ∀ rounds low high, low ≤ high → high ≤ n → high ≤ low + rounds → (∀ i < low, p i = true) →
      (∀ i, high ≤ i → i < n → p i = false) → longest p rounds low high ≤ n ∧
        (∀ i < longest p rounds low high, p i = true) ∧
        ∀ i, longest p rounds low high ≤ i → i < n → p i = false := by
  intro rounds
  induction rounds with
  | zero =>
    intro low high hle hn hrounds hlow hhigh
    obtain rfl : low = high := by omega
    exact ⟨hn, hlow, hhigh⟩
  | succ rounds ih =>
    intro low high hle hn hrounds hlow hhigh
    rw [longest]
    split
    · cases hfound : p ((low + high + 1) / 2 - 1) with
      | true =>
        rw [if_pos rfl]
        refine ih _ _ (by omega) hn (by omega) (fun i hi => ?_) hhigh
        exact hclosed i _ (by omega) (by omega) hfound
      | false =>
        rw [if_neg Bool.false_ne_true]
        refine ih _ _ (by omega) (by omega) (by omega) hlow fun i hi hin => ?_
        rw [Bool.eq_false_iff] at hfound ⊢
        exact fun h => hfound (hclosed _ i hi hin h)
    · obtain rfl : low = high := by omega
      exact ⟨hn, hlow, hhigh⟩

/-! ## The words of a text -/

lemma split_of_space (h : isspace c = true) : split (c :: text) = split text := by
  rw [split, if_pos h]

lemma split_last (h : isspace c = false) (hnext : text.head?.all isspace = true) :
    split (c :: text) = [c] :: split text := by
  rw [split, if_neg (Bool.not_eq_true _ ▸ h), if_pos hnext]

lemma split_cons (h : isspace c = false) (hx : isspace x = false) : split (c :: x :: text) =
    consHead c (split (x :: text)) := by
  rw [split, if_neg (Bool.not_eq_true _ ▸ h), if_neg]
  rw [List.head?_cons, Option.all_some, hx]
  exact Bool.false_ne_true

lemma split_ne_nil (h : isspace c = false) : split (c :: text) ≠ [] := by
  rw [split, if_neg (Bool.not_eq_true _ ▸ h)]
  split
  · exact List.cons_ne_nil _ _
  · cases Extract.split text <;> exact List.cons_ne_nil _ _

lemma consHead_append (h : words ≠ []) (more : List (List Char)) : consHead c (words ++ more) = consHead c words ++ more := by
  cases words with
  | nil => exact absurd rfl h
  | cons word words => rfl

lemma split_spaces (h : ∀ c ∈ gap, isspace c = true) (rest : List Char) : split (gap ++ rest) = split rest := by
  induction gap with
  | nil => rfl
  | cons c gap ih =>
    obtain ⟨hc, hgap⟩ := List.forall_mem_cons.1 h
    rw [List.cons_append, split_of_space hc, ih hgap]

/-- A space separates the words before it from the words after it. -/
lemma split_append_space (hx : isspace x = true) (rest : List Char) :
    split (text ++ x :: rest) = split text ++ split rest := by
  induction text with
  | nil => rw [List.nil_append, split_of_space hx]; rfl
  | cons c text ih =>
    cases hc : isspace c with
    | true => rw [List.cons_append, split_of_space hc, split_of_space hc, ih]
    | false =>
      cases text with
      | nil =>
        rw [List.cons_append, List.nil_append, split_last hc (by rw [List.head?_cons, Option.all_some, hx]),
          split_last hc rfl, split_of_space hx]
        rfl
      | cons d text =>
        cases hd : isspace d with
        | true =>
          have hnext : ∀ tail : List Char, (d :: tail).head?.all isspace = true := fun tail => hd
          rw [List.cons_append, List.cons_append, split_last hc (hnext _), ← List.cons_append, ih, split_last hc (hnext _)]
          rfl
        | false =>
          rw [List.cons_append, List.cons_append, split_cons hc hd, ← List.cons_append, ih, split_cons hc hd,
            consHead_append (split_ne_nil hd)]

lemma split_token (hne : token ≠ []) (h : ∀ c ∈ token, isspace c = false) : split token = [token] := by
  induction token with
  | nil => exact absurd rfl hne
  | cons c token ih =>
    obtain ⟨hc, htoken⟩ := List.forall_mem_cons.1 h
    cases token with
    | nil => exact split_last hc rfl
    | cons d token =>
      rw [split_cons hc (List.forall_mem_cons.1 htoken).1, ih (List.cons_ne_nil d token) htoken]
      rfl

/-- Characters right after a text that ends with no space lengthen its last word. -/
lemma split_glue (hlast : front.getLast? = some c) (hc : isspace c = false)
    (h : ∀ c ∈ token, isspace c = false) : ∃ words word, split front = words ++ [word] ∧
      split (front ++ token) = words ++ [word ++ token] := by
  induction front with
  | nil => cases hlast
  | cons d front ih =>
    cases front with
    | nil =>
      cases hlast
      refine ⟨[], [d], split_last hc rfl, ?_⟩
      exact split_token (List.cons_ne_nil d token) (List.forall_mem_cons.2 ⟨hc, h⟩)
    | cons e front =>
      rw [List.getLast?_cons_cons] at hlast
      obtain ⟨words, word, hfront, hglued⟩ := ih hlast
      cases hd : isspace d with
      | true => exact ⟨words, word, by rw [split_of_space hd, hfront], by rw [List.cons_append, split_of_space hd, hglued]⟩
      | false =>
        cases he : isspace e with
        | true =>
          have hnext : ∀ tail : List Char, (e :: tail).head?.all isspace = true := fun tail => he
          refine ⟨[d] :: words, word, by rw [split_last hd (hnext _), hfront]; rfl, ?_⟩
          rw [List.cons_append, List.cons_append, split_last hd (hnext _), ← List.cons_append, hglued]
          rfl
        | false =>
          rw [List.cons_append, List.cons_append, split_cons hd he, split_cons hd he, ← List.cons_append, hfront, hglued]
          cases words with
          | nil => exact ⟨[], d :: word, rfl, rfl⟩
          | cons first words => exact ⟨(d :: first) :: words, word, rfl, rfl⟩

/-- Words are not empty and hold no spaces. -/
lemma mem_split (h : word ∈ split text) : word ≠ [] ∧ ∀ c ∈ word, isspace c = false := by
  induction text generalizing word with
  | nil => cases h
  | cons c text ih =>
    cases hc : isspace c with
    | true =>
      rw [split_of_space hc] at h
      exact ih h
    | false =>
      have hone : ∀ d ∈ [c], isspace d = false := List.forall_mem_singleton.2 hc
      rw [split, if_neg (Bool.not_eq_true _ ▸ hc)] at h
      split at h
      · rcases List.mem_cons.1 h with rfl | h
        · exact ⟨List.cons_ne_nil c [], hone⟩
        · exact ih h
      · generalize hwords : split text = words at h ih
        cases words with
        | nil =>
          obtain rfl := List.mem_singleton.1 h
          exact ⟨List.cons_ne_nil c [], hone⟩
        | cons first words =>
          rcases List.mem_cons.1 h with rfl | h
          · exact ⟨List.cons_ne_nil c first, List.forall_mem_cons.2 ⟨hc, (ih (List.mem_cons_self ..)).2⟩⟩
          · exact ih (List.mem_cons_of_mem first h)

/-! ## The pattern of a text -/

lemma joined_one (word : List Char) : joined [word] = word.map .lit := rfl

lemma joined_cons_cons (first next : List Char) (words : List (List Char)) : joined (first :: next :: words) =
    first.map .lit ++ .spaces :: joined (next :: words) := rfl

lemma joined_snoc_append (words : List (List Char)) (word token : List Char) :
    joined (words ++ [word ++ token]) = joined (words ++ [word]) ++ token.map .lit := by
  induction words with
  | nil => exact List.map_append
  | cons first words ih =>
    cases words with
    | nil =>
      simp only [List.cons_append, List.nil_append, joined_cons_cons, joined_one, List.map_append, List.append_assoc]
    | cons next words =>
      simp only [List.cons_append, joined_cons_cons, List.append_assoc] at ih ⊢
      rw [ih]

lemma joined_snoc (h : words ≠ []) (word : List Char) :
    joined (words ++ [word]) = joined words ++ .spaces :: word.map .lit := by
  induction words with
  | nil => exact absurd rfl h
  | cons first words ih =>
    cases words with
    | nil => rfl
    | cons next words =>
      specialize ih (List.cons_ne_nil next words)
      simp only [List.cons_append, joined_cons_cons, List.append_assoc] at ih ⊢
      rw [ih]

lemma joined_cons (c : Char) (h : words ≠ []) : joined (consHead c words) = .lit c :: joined words := by
  cases words with
  | nil => exact absurd rfl h
  | cons word words => cases words <;> rfl

/-- What a word or mark adds to the pattern of the text before it. -/
lemma joined_append (hlast : front.getLast? = some c) (hc : isspace c = false) (hgap : ∀ c ∈ gap, isspace c = true)
    (hne : token ≠ []) (htoken : ∀ c ∈ token, isspace c = false) : joined (split (front ++ gap ++ token)) =
      joined (split front) ++ ((if gap = [] then [] else [.spaces]) ++ token.map .lit) := by
  cases gap with
  | nil =>
    obtain ⟨words, word, hfront, hglued⟩ := split_glue hlast hc htoken
    rw [List.append_nil, hfront, hglued, joined_snoc_append, if_pos rfl, List.nil_append]
  | cons x gap =>
    obtain ⟨hx, hgap⟩ := List.forall_mem_cons.1 hgap
    have hwords : split front ≠ [] := by
      intro h
      obtain ⟨words, word, hfront, -⟩ := split_glue hlast hc htoken
      rw [h] at hfront
      exact absurd hfront.symm (List.append_ne_nil_of_right_ne_nil _ (List.cons_ne_nil word []))
    rw [List.append_assoc, List.cons_append, split_append_space hx, split_spaces hgap, split_token hne htoken,
      joined_snoc hwords, if_neg (List.cons_ne_nil x gap)]
    rfl

/-- A text is read by the pattern of its own words, from the first of them on. -/
lemma reads_self (hlast : text.getLast? = some c) (hc : isspace c = false) :
    Reads table.sameCase isspace (joined (split text)) (text.dropWhile isspace) := by
  induction text with
  | nil => cases hlast
  | cons d text ih =>
    cases text with
    | nil =>
      cases hlast
      replace hc : isspace d = false := hc
      rw [List.dropWhile_cons_of_neg (Bool.not_eq_true _ ▸ hc), split_last hc rfl]
      exact Reads.lit (table.sameCase_refl d) Reads.nil
    | cons e text =>
      rw [List.getLast?_cons_cons] at hlast
      specialize ih hlast
      cases hd : isspace d with
      | true => rwa [List.dropWhile_cons_of_pos hd, split_of_space hd]
      | false =>
        rw [List.dropWhile_cons_of_neg (Bool.not_eq_true _ ▸ hd)]
        cases he : isspace e with
        | false =>
          rw [List.dropWhile_cons_of_neg (Bool.not_eq_true _ ▸ he)] at ih
          rw [split_cons hd he, joined_cons d (split_ne_nil he)]
          exact Reads.lit (table.sameCase_refl d) ih
        | true =>
          obtain ⟨words, word, hwords, -⟩ := split_glue hlast hc (List.forall_mem_singleton.2 hc)
          rw [split_last hd (show (e :: text).head?.all isspace = true from he)]
          have hjoined : joined ([d] :: split (e :: text)) = .lit d :: .spaces :: joined (split (e :: text)) := by
            rw [hwords]
            cases words <;> rfl
          have hrun : Reads table.sameCase isspace (.spaces :: joined (split (e :: text)))
              ((e :: text).takeWhile isspace ++ (e :: text).dropWhile isspace) := by
            refine Reads.run ?_ (fun x hx => List.mem_takeWhile_imp hx) ih
            rw [List.takeWhile_cons_of_pos he]
            exact List.cons_ne_nil e _
          rw [List.takeWhile_append_dropWhile] at hrun
          rw [hjoined]
          exact Reads.lit (table.sameCase_refl d) hrun

/-- Some words equal others up to case. -/
def SameWords (table : CharTable) (words others : List (List Char)) : Prop :=
  List.Forall₂ (List.Forall₂ fun c x => table.sameCase c x = true) words others

lemma not_space_of_forall₂ (h : List.Forall₂ (fun c x => table.sameCase c x = true) word text)
    (hword : ∀ c ∈ word, isspace c = false) : ∀ x ∈ text, isspace x = false := by
  induction h with
  | nil => exact hword
  | cons hsame _ ih =>
    obtain ⟨hc, hword⟩ := List.forall_mem_cons.1 hword
    exact List.forall_mem_cons.2 ⟨(table.isspace_eq _ _ hsame).symm.trans hc, ih hword⟩

/-- The words of a text that a pattern reads are those of the pattern. -/
lemma sameWords_of_reads (hwords : ∀ word ∈ words, word ≠ [] ∧ ∀ c ∈ word, isspace c = false)
    (h : Reads table.sameCase isspace (joined words) text) : SameWords table words (split text) := by
  induction words generalizing text with
  | nil =>
    cases h
    exact List.Forall₂.nil
  | cons word words ih =>
    obtain ⟨⟨hne, hword⟩, hwords⟩ := List.forall_mem_cons.1 hwords
    cases words with
    | nil =>
      have hsame := reads_lits.1 h
      rw [split_token _ (not_space_of_forall₂ hsame hword)]
      · exact List.Forall₂.cons hsame List.Forall₂.nil
      · rintro rfl
        cases hsame
        exact hne rfl
    | cons next words =>
      obtain ⟨first, second, rfl, hfirst, hsecond⟩ := Reads.split (h : Reads _ _ (word.map .lit ++ _) _)
      have hsame := reads_lits.1 hfirst
      obtain ⟨x, spaces, rest, rfl, hx, hspaces, hrest⟩ := Reads.run_inv hsecond
      rw [split_append_space hx, split_spaces hspaces, split_token _ (not_space_of_forall₂ hsame hword)]
      · exact List.Forall₂.cons hsame (ih hwords hrest)
      · rintro rfl
        cases hsame
        exact hne rfl

/-! ## Words and marks -/

/-- A word up to where it ends, or a mark. -/
def Token (table : CharTable) (token rest : List Char) : Prop :=
  token ≠ [] ∧ (∀ c ∈ token, isspace c = false) ∧
    ((∀ c ∈ token, table.word c = true) ∧ rest.head?.any table.word = false ∨ ∃ c, token = [c] ∧ table.word c = false)

lemma not_space_of_word (h : table.word c = true) : isspace c = false := by
  rw [Bool.eq_false_iff]
  intro hspace
  rw [CharTable.word, table.isalnum_of_space c hspace, Bool.false_or, beq_iff_eq] at h
  rw [h] at hspace
  exact absurd hspace (by decide)

/-- The first end of a text is after the spaces at its start and one word or mark. -/
lemma wordEnds_eq_cons {start stop : ℕ} {ends : List ℕ} (h : wordEnds table start text = stop :: ends) :
    ∃ gap token rest, text = gap ++ token ++ rest ∧ (∀ c ∈ gap, isspace c = true) ∧ Token table token rest ∧
      stop = start + (gap ++ token).length ∧ ends = wordEnds table stop rest := by
  induction text generalizing start with
  | nil => cases h
  | cons c text ih =>
    cases hc : isspace c with
    | true =>
      rw [wordEnds, if_pos (by rw [hc, Bool.or_true])] at h
      obtain ⟨gap, token, rest, rfl, hgap, htoken, rfl, hends⟩ := ih h
      exact ⟨c :: gap, token, rest, rfl, List.forall_mem_cons.2 ⟨hc, hgap⟩, htoken,
        by simp only [List.cons_append, List.length_cons]; omega, hends⟩
    | false =>
      have hone : ∀ d ∈ [c], isspace d = false := List.forall_mem_singleton.2 hc
      cases hword : table.word c && text.head?.any table.word with
      | false =>
        rw [wordEnds, if_neg (by rw [hword, hc]; exact Bool.false_ne_true)] at h
        cases h
        refine ⟨[], [c], text, rfl, List.forall_mem_nil _, ⟨List.cons_ne_nil c [], hone, ?_⟩, rfl, rfl⟩
        rcases Bool.and_eq_false_iff.1 hword with hmark | hend
        · exact Or.inr ⟨c, rfl, hmark⟩
        · cases hmark : table.word c with
          | true => exact Or.inl ⟨List.forall_mem_singleton.2 hmark, hend⟩
          | false => exact Or.inr ⟨c, rfl, hmark⟩
      | true =>
        obtain ⟨hchar, hnext⟩ := Bool.and_eq_true_iff.1 hword
        rw [wordEnds, if_pos (by rw [hword, Bool.true_or])] at h
        obtain ⟨gap, token, rest, rfl, hgap, ⟨hne, hspaces, hkind⟩, rfl, hends⟩ := ih h
        -- the word goes on, so no space comes before the rest of it
        cases gap with
        | cons d gap =>
          exact absurd (not_space_of_word hnext) (by rw [(List.forall_mem_cons.1 hgap).1]; exact Bool.false_ne_true.symm)
        | nil =>
          rcases hkind with ⟨hall, hend⟩ | ⟨d, rfl, hmark⟩
          · refine ⟨[], c :: token, rest, rfl, hgap, ⟨List.cons_ne_nil c token, List.forall_mem_cons.2 ⟨hc, hspaces⟩,
              Or.inl ⟨List.forall_mem_cons.2 ⟨hchar, hall⟩, hend⟩⟩, ?_, hends⟩
            simp only [List.nil_append, List.length_cons]
            omega
          · exact absurd hnext (by rw [show Option.any table.word _ = table.word d from rfl, hmark]; exact Bool.false_ne_true)

/-- The phrase is cut after its word or mark `i`. -/
structure Cut (table : CharTable) (phrase : List Char) (i : ℕ) (front rest : List Char) : Prop where
  phrase_eq : phrase = front ++ rest
  get : (wordEnds table 0 phrase)[i]? = some front.length
  drop : (wordEnds table 0 phrase).drop (i + 1) = wordEnds table front.length rest
  last : ∃ c, front.getLast? = some c ∧ isspace c = false ∧ (table.word c = true → rest.head?.any table.word = false)

lemma Token.last (h : Token table token rest) : ∃ c, token.getLast? = some c ∧ isspace c = false ∧
    (table.word c = true → rest.head?.any table.word = false) := by
  obtain ⟨hne, hspaces, hkind⟩ := h
  refine ⟨token.getLast hne, List.getLast?_eq_some_getLast hne, hspaces _ (List.getLast_mem hne), fun hword => ?_⟩
  rcases hkind with ⟨-, hend⟩ | ⟨c, rfl, hmark⟩
  · exact hend
  · exact absurd hword (by rw [List.getLast_singleton, hmark]; exact Bool.false_ne_true)

lemma Cut.prefixAt_eq (h : Cut table phrase i front rest) : prefixAt table phrase i = front := by
  rw [prefixAt, List.getD_eq_getElem?_getD, h.get, Option.getD_some, h.phrase_eq, List.take_left]

/-- The prefix of one more word or mark, that some spaces may come before. -/
lemma Cut.next (h : Cut table phrase i front rest) (hi : i + 1 < (wordEnds table 0 phrase).length) :
    ∃ gap token after, rest = gap ++ token ++ after ∧ (∀ c ∈ gap, isspace c = true) ∧ Token table token after ∧
      Cut table phrase (i + 1) (front ++ gap ++ token) after := by
  have hcons := List.drop_eq_getElem_cons hi
  rw [h.drop] at hcons
  obtain ⟨gap, token, after, rfl, hgap, htoken, hstop, hends⟩ := wordEnds_eq_cons hcons
  refine ⟨gap, token, after, rfl, hgap, htoken, ⟨?_, ?_, ?_, ?_⟩⟩
  · rw [h.phrase_eq, List.append_assoc, List.append_assoc, List.append_assoc]
  · rw [List.getElem?_eq_getElem hi, hstop, List.append_assoc, ← List.length_append]
  · rw [hends, hstop, List.append_assoc, ← List.length_append]
  · obtain ⟨c, hlast, hc⟩ := htoken.last
    exact ⟨c, by rw [List.getLast?_append, hlast]; rfl, hc⟩

lemma cut_zero (h : 0 < (wordEnds table 0 phrase).length) : ∃ front rest, Cut table phrase 0 front rest := by
  have hcons := List.drop_eq_getElem_cons h
  rw [List.drop_zero] at hcons
  obtain ⟨gap, token, after, rfl, hgap, htoken, hstop, hends⟩ := wordEnds_eq_cons hcons
  rw [Nat.zero_add] at hstop
  refine ⟨gap ++ token, after, ⟨rfl, ?_, ?_, ?_⟩⟩
  · rw [List.getElem?_eq_getElem h, hstop]
  · rw [hends, hstop]
  · obtain ⟨c, hlast, hc⟩ := htoken.last
    exact ⟨c, by rw [List.getLast?_append, hlast]; rfl, hc⟩

/-- Each word or mark of the phrase ends a prefix of it. -/
lemma cut_exists (h : i < (wordEnds table 0 phrase).length) : ∃ front rest, Cut table phrase i front rest := by
  induction i with
  | zero => exact cut_zero h
  | succ i ih =>
    obtain ⟨front, rest, hcut⟩ := ih (Nat.lt_of_succ_lt h)
    obtain ⟨gap, token, after, -, -, -, hnext⟩ := hcut.next h
    exact ⟨_, _, hnext⟩

/-! ## Prefixes that a document holds -/

lemma rstrip_eq (hlast : front.getLast? = some c) (hc : isspace c = false) : rstrip front = front := by
  induction front with
  | nil => rfl
  | cons d front ih =>
    cases front with
    | nil =>
      cases hlast
      replace hc : isspace d = false := hc
      rw [rstrip, hc]
      rfl
    | cons e front =>
      rw [List.getLast?_cons_cons] at hlast
      rw [rstrip, ih hlast, List.isEmpty_cons, Bool.and_false]
      rfl

lemma strip_eq (hlast : front.getLast? = some c) (hc : isspace c = false) : strip front = front.dropWhile isspace := by
  rw [strip, rstrip_eq hlast hc]

/-- Only spaces are stripped, so a text that ends with no space keeps its last character. -/
lemma getLast?_strip (hlast : front.getLast? = some c) (hc : isspace c = false) : (strip front).getLast? = some c := by
  rw [strip_eq hlast hc]
  have hfront := List.takeWhile_append_dropWhile (p := isspace) (l := front)
  cases h : front.dropWhile isspace with
  | nil =>
    have hspace : isspace c = true := by
      refine List.mem_takeWhile_imp (l := front) ?_
      rw [h, List.append_nil] at hfront
      rw [hfront]
      exact List.mem_of_getLast? hlast
    rw [hc] at hspace
    cases hspace
  | cons d text =>
    rw [← hfront, h, List.getLast?_append] at hlast
    rw [List.getLast?_cons] at hlast ⊢
    exact hlast

lemma split_strip (hlast : front.getLast? = some c) (hc : isspace c = false) : split (strip front) = split front := by
  rw [strip_eq hlast hc]
  conv_rhs => rw [← List.takeWhile_append_dropWhile (p := isspace) (l := front)]
  exact (split_spaces (fun x hx => List.mem_takeWhile_imp hx) _).symm

lemma strip_strip (hlast : front.getLast? = some c) (hc : isspace c = false) : strip (strip front) = strip front := by
  rw [strip_eq (getLast?_strip hlast hc) hc, strip_eq hlast hc, List.dropWhile_idempotent]

/-- A longer text starts with the same character, the spaces before it aside. -/
lemma headGuard_append (hlast : front.getLast? = some c) (hc : isspace c = false) (hlonger : (front ++ text).getLast? = some x)
    (hx : isspace x = false) : headGuard table (strip (front ++ text)) = headGuard table (strip front) := by
  have hne : (strip front).head? ≠ none := by
    intro h
    have hnil := getLast?_strip hlast hc
    rw [List.head?_eq_none_iff.1 h] at hnil
    cases hnil
  have hhead : (strip (front ++ text)).head? = (strip front).head? := by
    rw [strip_eq hlast hc] at hne ⊢
    rw [strip_eq hlonger hx, List.dropWhile_append, if_neg, List.head?_append_of_ne_nil]
    · exact fun h => hne (by rw [h]; rfl)
    · rw [List.isEmpty_iff]
      exact fun h => hne (by rw [h]; rfl)
  funext previous
  rw [headGuard, headGuard, hhead]

/-- The document holds the words up to case and whitespace, the next character satisfying a guard. -/
def Holds (table : CharTable) (document front : List Char) (next : Option Char → Bool) : Prop :=
  Held table.sameCase isspace (headGuard table (strip front)) next (joined (split front)) none document

lemma eq_of_reads (h : Reads (· == ·) isspace (front.map .lit) text) : text = front := by
  have hsame := reads_lits.1 h
  simp only [beq_iff_eq, List.forall₂_eq_eq_eq] at hsame
  exact hsame.symm

/-- A prefix is found where the document holds its words. -/
lemma wordSpan_isSome (hlast : front.getLast? = some c) (hc : isspace c = false) :
    (wordSpan table document front).isSome = true ↔ Holds table document front (tailGuard table (strip front)) := by
  obtain ⟨words, word, hwords, -⟩ := split_glue hlast hc (List.forall_mem_nil _)
  have hne : split front ≠ [] := by
    rw [hwords]
    exact List.append_ne_nil_of_right_ne_nil _ (List.cons_ne_nil word [])
  rw [wordSpan, if_neg hne, Option.isSome_or, Bool.or_eq_true, search_isSome, search_isSome, or_iff_right_of_imp]
  · rfl
  · intro h
    obtain ⟨before, found, after, hdocument, hreads, hguards⟩ := h
    refine ⟨before, found, after, hdocument, ?_, hguards⟩
    rw [eq_of_reads hreads, strip_eq hlast hc]
    exact reads_self hlast hc

/-- The span of a prefix that is found holds the prefix's words, up to case and whitespace. -/
lemma wordSpan_sound {start stop : ℕ} (hlast : front.getLast? = some c) (hc : isspace c = false)
    (h : wordSpan table document front = some (start, stop)) : start ≤ stop ∧ stop ≤ document.length ∧
      SameWords table (split front) (split ((document.take stop).drop start)) := by
  rw [wordSpan] at h
  split at h
  · cases h
  · rcases Option.or_eq_some_iff.1 h with hexact | ⟨-, hblind⟩
    · obtain ⟨-, hle, hstop, hreads⟩ := search_sound hexact
      rw [Nat.zero_add] at hstop
      rw [Nat.sub_zero, Nat.sub_zero] at hreads
      refine ⟨hle, hstop, ?_⟩
      rw [eq_of_reads hreads, split_strip hlast hc]
      exact List.forall₂_same.2 fun word _ => List.forall₂_same.2 fun c _ => table.sameCase_refl c
    · obtain ⟨-, hle, hstop, hreads⟩ := search_sound hblind
      rw [Nat.zero_add] at hstop
      rw [Nat.sub_zero, Nat.sub_zero] at hreads
      exact ⟨hle, hstop, sameWords_of_reads (fun word => mem_split) hreads⟩

/-! ## Shorter prefixes -/

/-- The document holds the longer prefix only where it holds the shorter one: with no word character after it, or with
one that is the next mark up to case. -/
lemma holds_next (hcut : Cut table phrase i front (gap ++ token ++ rest)) (hgap : ∀ c ∈ gap, isspace c = true)
    (htoken : Token table token rest) {next : Option Char → Bool} (h : Holds table document (front ++ gap ++ token) next) :
    Holds table document front (tailGuard table (strip front)) ∨ ∃ c, gap ++ token = [c] ∧ table.word c = false ∧
      front.getLast?.any table.isalnum = true ∧
      Holds table document front fun next => next.any fun x => table.word x && table.sameCase c x := by
  obtain ⟨c, hlast, hc, hend⟩ := hcut.last
  obtain ⟨d, hlonger, hd, -⟩ := htoken.last
  have hlonger' : (front ++ (gap ++ token)).getLast? = some d := by
    rw [List.getLast?_append, List.getLast?_append, hlonger]
    rfl
  obtain ⟨before, both, after, hdocument, hreads, hbefore, -⟩ := h
  rw [joined_append hlast hc hgap htoken.1 htoken.2.1] at hreads
  rw [List.append_assoc, headGuard_append hlast hc hlonger' hd] at hbefore
  obtain ⟨found, second, rfl, hfound, hsecond⟩ := hreads.split
  have hplace : document = before ++ found ++ (second ++ after) := by
    rw [hdocument]
    simp only [List.append_assoc]
  have hguard : ∀ next, tailGuard table (strip front) next = if table.isalnum c then !next.any table.word else true := by
    intro next
    rw [tailGuard, getLast?_strip hlast hc]
    rfl
  cases halnum : table.isalnum c with
  | false =>
    refine Or.inl ⟨before, found, second ++ after, hplace, hfound, hbefore, ?_⟩
    rw [hguard, halnum]
    rfl
  | true =>
    have hword : table.word c = true := by rw [CharTable.word, halnum, Bool.true_or]
    specialize hend hword
    cases gap with
    | cons y gap =>
      -- a space follows the shorter prefix
      rw [if_neg (List.cons_ne_nil y gap), List.singleton_append] at hsecond
      obtain ⟨x, spaces, tail, rfl, hx, -⟩ := hsecond.run_inv
      refine Or.inl ⟨before, found, _, hplace, hfound, hbefore, ?_⟩
      rw [hguard, halnum, if_pos rfl]
      change (!table.word x) = true
      rw [Bool.not_eq_true']
      cases hnext : table.word x with
      | false => rfl
      | true => exact absurd hx (by rw [not_space_of_word hnext]; exact Bool.false_ne_true)
    | nil =>
      rw [if_pos rfl, List.nil_append] at hsecond
      obtain ⟨hne, -, ⟨hall, -⟩ | ⟨mark, rfl, hmark⟩⟩ := htoken
      · cases token with
        | nil => exact absurd rfl hne
        | cons e token =>
          rw [show Option.any table.word _ = table.word e from rfl, hall e (List.mem_cons_self ..)] at hend
          cases hend
      · cases hsecond with
        | lit hsame hsecond =>
          cases hsecond
          rename_i x
          cases hx : table.word x with
          | false =>
            refine Or.inl ⟨before, found, _, hplace, hfound, hbefore, ?_⟩
            rw [hguard, halnum, if_pos rfl]
            change (!table.word x) = true
            rw [hx]
            rfl
          | true =>
            refine Or.inr ⟨mark, rfl, hmark, ?_, before, found, _, hplace, hfound, hbefore, ?_⟩
            · rw [hlast]
              exact halnum
            · change (table.word x && table.sameCase mark x) = true
              rw [hx, hsame]
              rfl

/-- Where a character that is the next mark up to case comes after the prefix, the document holds the longer prefix. -/
lemma holds_mark (hcut : Cut table phrase i front (c :: rest)) (hmark : table.word c = false) (hc : isspace c = false)
    (h : Holds table document front fun next => next.any fun x => table.word x && table.sameCase c x) :
    Holds table document (front ++ [c]) (tailGuard table (strip (front ++ [c]))) := by
  obtain ⟨d, hlast, hd, -⟩ := hcut.last
  have hlonger : (front ++ [c]).getLast? = some c := List.getLast?_concat
  obtain ⟨before, found, after, hdocument, hreads, hbefore, hafter⟩ := h
  cases after with
  | nil => cases hafter
  | cons x after =>
    obtain ⟨-, hsame⟩ := Bool.and_eq_true_iff.1 (show (table.word x && table.sameCase c x) = true from hafter)
    refine ⟨before, found ++ [x], after, by rw [hdocument]; simp only [List.append_assoc, List.singleton_append], ?_, ?_, ?_⟩
    · have hjoined : joined (split (front ++ [] ++ [c])) = _ := joined_append hlast hd (List.forall_mem_nil _)
        (List.cons_ne_nil c []) (List.forall_mem_singleton.2 hc)
      rw [List.append_nil, if_pos rfl, List.nil_append] at hjoined
      rw [hjoined]
      exact hreads.append (Reads.lit hsame Reads.nil)
    · rwa [headGuard_append hlast hd hlonger hc]
    · rw [tailGuard, getLast?_strip hlonger hc, if_neg]
      rw [show Option.any table.isalnum (some c) = table.isalnum c from rfl]
      rw [CharTable.word, Bool.or_eq_false_iff] at hmark
      rw [hmark.1]
      exact Bool.false_ne_true

/-- The prefix that ends at word or mark `i` is found. -/
def Found (table : CharTable) (document phrase : List Char) (i : ℕ) : Prop :=
  (wordSpan table document (prefixAt table phrase i)).isSome = true

/-- A prefix is found if a longer one is. -/
def Closed (table : CharTable) (document phrase : List Char) : Prop :=
  ∀ i j, i ≤ j → j < (wordEnds table 0 phrase).length → Found table document phrase j → Found table document phrase i

/-- The longest prefix that is found, and a span that holds its words up to case and whitespace; none if none is
found. -/
def Longest (table : CharTable) (document phrase : List Char) (result : Option (List Char × Option (ℕ × ℕ))) : Prop :=
  (result = none ↔ ∀ i < (wordEnds table 0 phrase).length, ¬Found table document phrase i) ∧
    ∀ held span, result = some (held, span) → ∃ i < (wordEnds table 0 phrase).length,
      held = strip (prefixAt table phrase i) ∧ Found table document phrase i ∧
      (∀ j, i < j → j < (wordEnds table 0 phrase).length → ¬Found table document phrase j) ∧
      ∃ start stop, span = some (start, stop) ∧ start ≤ stop ∧ stop ≤ document.length ∧
        SameWords table (split held) (split ((document.take stop).drop start))

/-- Where the document has a prefix of the phrase that ends with a letter or digit, and after it a word character that
is the phrase's next mark up to case, it also has that prefix with no word character after it. -/
def Clear (table : CharTable) (document phrase : List Char) : Prop :=
  ∀ i < (wordEnds table 0 phrase).length, ∀ c, phrase[(wordEnds table 0 phrase).getD i 0]? = some c →
    table.word c = false → (prefixAt table phrase i).getLast?.any table.isalnum = true →
    Holds table document (prefixAt table phrase i) (fun next => next.any fun x => table.word x && table.sameCase c x) →
    Holds table document (prefixAt table phrase i) fun next => !next.any table.word

lemma Cut.found_iff (h : Cut table phrase i front rest) : Found table document phrase i ↔
    Holds table document front (tailGuard table (strip front)) := by
  obtain ⟨c, hlast, hc, -⟩ := h.last
  rw [Found, h.prefixAt_eq, wordSpan_isSome hlast hc]

lemma Cut.getElem? (h : Cut table phrase i front rest) : phrase[(wordEnds table 0 phrase).getD i 0]? = rest.head? := by
  rw [List.getD_eq_getElem?_getD, h.get, Option.getD_some, h.phrase_eq, List.getElem?_append_right le_rfl, Nat.sub_self,
    List.head?_eq_getElem?]

/-- The guard after a text that ends with a letter or digit. -/
lemma tailGuard_of_alnum (hlast : front.getLast? = some c) (hc : isspace c = false) (h : table.isalnum c = true) :
    tailGuard table (strip front) = fun next => !next.any table.word := by
  funext next
  rw [tailGuard, getLast?_strip hlast hc]
  exact if_pos h

/-- A prefix that is found without its last word or mark is found, where the document is clear. -/
lemma found_of_next (hclear : Clear table document phrase) (hi : i + 1 < (wordEnds table 0 phrase).length)
    (h : Found table document phrase (i + 1)) : Found table document phrase i := by
  obtain ⟨front, rest, hcut⟩ := cut_exists (Nat.lt_of_succ_lt hi)
  obtain ⟨gap, token, after, rfl, hgap, htoken, hnext⟩ := hcut.next hi
  rw [hnext.found_iff] at h
  rw [hcut.found_iff]
  rcases holds_next hcut hgap htoken h with hheld | ⟨c, hmark, hc, halnum, hexposed⟩
  · exact hheld
  · obtain ⟨d, hlast, hd, -⟩ := hcut.last
    have hget := hcut.getElem?
    rw [hmark, List.head?_append] at hget
    have hheld := hclear i (Nat.lt_of_succ_lt hi) c hget hc (hcut.prefixAt_eq.symm ▸ halnum)
      (hcut.prefixAt_eq.symm ▸ hexposed)
    rw [hlast] at halnum
    rwa [tailGuard_of_alnum hlast hd halnum, ← hcut.prefixAt_eq]

lemma closed_of_clear (hclear : Clear table document phrase) : Closed table document phrase := by
  intro i j hij
  induction hij with
  | refl => exact fun _ h => h
  | step _ ih => exact fun hj h => ih (Nat.lt_of_succ_lt hj) (found_of_next hclear hj h)

lemma clear_of_closed (hclosed : Closed table document phrase) : Clear table document phrase := by
  intro i hi c hc hmark halnum hexposed
  obtain ⟨front, rest, hcut⟩ := cut_exists hi
  rw [hcut.getElem?] at hc
  rw [hcut.prefixAt_eq] at halnum hexposed ⊢
  obtain ⟨d, hlast, hd, -⟩ := hcut.last
  cases rest with
  | nil => cases hc
  | cons e rest =>
    cases hc
    have hspace : isspace c = false := by
      obtain ⟨before, found, after, -, -, -, hafter⟩ := hexposed
      cases after with
      | nil => cases hafter
      | cons x after =>
        obtain ⟨hx, hsame⟩ := Bool.and_eq_true_iff.1 (show (table.word x && table.sameCase c x) = true from hafter)
        rw [table.isspace_eq c x hsame, not_space_of_word hx]
    have hdrop := hcut.drop
    rw [wordEnds, hmark, Bool.false_and, hspace, Bool.or_false, if_neg Bool.false_ne_true] at hdrop
    have hnext : i + 1 < (wordEnds table 0 phrase).length := by
      by_contra hge
      rw [List.drop_eq_nil_of_le (Nat.not_lt.1 hge)] at hdrop
      cases hdrop
    have hlonger : Cut table phrase (i + 1) (front ++ [c]) rest := by
      refine ⟨by rw [hcut.phrase_eq, List.append_assoc]; rfl, ?_, ?_, c, List.getLast?_concat, hspace, ?_⟩
      · rw [← List.head?_drop, hdrop, List.length_append]
        rfl
      · rw [← List.tail_drop, hdrop, List.length_append]
        rfl
      · rw [hmark]
        exact fun h => absurd h Bool.false_ne_true
    have hfound := hclosed i (i + 1) (Nat.le_succ i) hnext (hlonger.found_iff.2 (holds_mark hcut hmark hspace hexposed))
    rw [hlast] at halnum
    rwa [hcut.found_iff, tailGuard_of_alnum hlast hd halnum] at hfound

/-- The halving finds the longest prefix that is found, if a prefix is found wherever a longer one is. -/
lemma longest_of_closed (hclosed : Closed table document phrase) :
    Longest table document phrase (heldPrefix table document phrase) := by
  obtain ⟨hle, hbelow, habove⟩ := longest_spec (p := fun i => (wordSpan table document (prefixAt table phrase i)).isSome)
    (n := (wordEnds table 0 phrase).length) hclosed (wordEnds table 0 phrase).length 0 _ (Nat.zero_le _) le_rfl
    (Nat.zero_add _).ge (fun i hi => absurd hi (Nat.not_lt_zero i)) (fun i hi hn => absurd hn (Nat.not_lt.2 hi))
  rw [heldPrefix]
  generalize longest _ _ _ _ = low at *
  split
  · rename_i hzero
    subst hzero
    refine ⟨⟨fun _ i hi => ?_, fun _ => rfl⟩, fun held span h => by cases h⟩
    rw [Found, habove i (Nat.zero_le i) hi]
    exact Bool.false_ne_true
  · rename_i hpos
    have hlow : low - 1 < low := Nat.sub_one_lt hpos
    have hfound : Found table document phrase (low - 1) := hbelow _ hlow
    obtain ⟨front, rest, hcut⟩ := cut_exists (lt_of_lt_of_le hlow hle)
    obtain ⟨c, hlast, hc, -⟩ := hcut.last
    refine ⟨⟨fun h => (by cases h), fun h => absurd hfound (h _ (lt_of_lt_of_le hlow hle))⟩, fun held span h => ?_⟩
    cases h
    refine ⟨low - 1, lt_of_lt_of_le hlow hle, rfl, hfound, fun j hj hn => ?_, ?_⟩
    · rw [Found, habove j (by omega) hn]
      exact Bool.false_ne_true
    · rw [Found, hcut.prefixAt_eq] at hfound
      obtain ⟨span, hspan⟩ := Option.isSome_iff_exists.1 hfound
      have hstripped : wordSpan table document (strip front) = some span := by
        rw [← hspan, wordSpan, wordSpan, split_strip hlast hc, strip_strip hlast hc]
      rw [hcut.prefixAt_eq]
      obtain ⟨hstart, hstop, hwords⟩ := wordSpan_sound (getLast?_strip hlast hc) hc hstripped
      exact ⟨span.1, span.2, hstripped, hstart, hstop, hwords⟩

/-- Shortening a prefix that is found gives one that is found, and `held_prefix` gives the longest of them, exactly
where the document is clear of word characters that only case tells from the phrase's next mark. -/
theorem heldPrefix_iff (table : CharTable) (document phrase : List Char) :
    Closed table document phrase ∧ Longest table document phrase (heldPrefix table document phrase) ↔
      Clear table document phrase :=
  ⟨fun h => clear_of_closed h.1, fun h => ⟨closed_of_clear h, longest_of_closed (closed_of_clear h)⟩⟩

/-- The iota subscript is a mark, and up to case it is the letter iota. -/
def iotaTable : CharTable where
  isalnum c := c == 'a' || c == 'ι'
  sameCase c x := c == x || c == '\u0345' && x == 'ι' || c == 'ι' && x == '\u0345'
  isalnum_of_space c h := by
    rw [Bool.eq_false_iff]
    intro halnum
    rcases Bool.or_eq_true_iff.1 halnum with hc | hc <;> rw [beq_iff_eq.1 hc] at h <;> exact absurd h (by decide)
  sameCase_refl c := by rw [beq_self_eq_true, Bool.true_or, Bool.true_or]
  isspace_eq c x h := by
    simp only [Bool.or_eq_true, Bool.and_eq_true, beq_iff_eq] at h
    rcases h with (rfl | ⟨rfl, rfl⟩) | ⟨rfl, rfl⟩
    · rfl
    · decide
    · decide

/-- The document has the letter where the phrase has the mark: both words and marks are found, the first alone is
not, and none is returned. -/
theorem heldPrefix_exposed : heldPrefix iotaTable ['a', 'ι'] ['a', '\u0345'] = none ∧
    Found iotaTable ['a', 'ι'] ['a', '\u0345'] 1 ∧ ¬(Closed iotaTable ['a', 'ι'] ['a', '\u0345'] ∧
      Longest iotaTable ['a', 'ι'] ['a', '\u0345'] (heldPrefix iotaTable ['a', 'ι'] ['a', '\u0345'])) := by
  have hnone : heldPrefix iotaTable ['a', 'ι'] ['a', '\u0345'] = none := by decide +kernel
  have hfound : Found iotaTable ['a', 'ι'] ['a', '\u0345'] 1 := by
    rw [Found]
    decide +kernel
  refine ⟨hnone, hfound, fun h => ?_⟩
  exact h.2.1.1 hnone 1 (by decide +kernel) hfound

/-- A document is clear of such characters if no mark of the phrase is a word character up to case. -/
theorem clear_of_marks (h : ∀ c ∈ phrase, table.word c = false → ∀ x, table.sameCase c x = true → table.word x = false) :
    Clear table document phrase := by
  intro i hi c hc hmark halnum hexposed
  obtain ⟨before, found, after, -, -, -, hafter⟩ := hexposed
  cases after with
  | nil => cases hafter
  | cons x after =>
    obtain ⟨hx, hsame⟩ := Bool.and_eq_true_iff.1 (show (table.word x && table.sameCase c x) = true from hafter)
    rw [h c (List.mem_of_getElem? hc) hmark x hsame] at hx
    cases hx

end Quail.Extract
