import Mathlib.Data.List.Basic
import Mathlib.Data.Int.Basic
import Mathlib.Tactic.Common

/-!
# The answers file

`read_answers` of `remote/artifacts.py` on the text of an append-only file. `Answers.append` writes an entry as
one line of JSON, which holds no newline; the JSON is left as its text. A reader goes through the file while it
grows, and sees the text that is there when it gets to the end of what it reads.
-/

namespace Quail.Server

/-- The text of one entry. -/
abbrev Line := { text : List Char // '\n' ∉ text }

/-- The lines of a text, each with the newline that ends it; the last one may have none. -/
def fileLines : List Char → List (List Char)
  | [] => []
  | c :: text =>
    if c = '\n' then ['\n'] :: fileLines text
    else match fileLines text with
      | [] => [[c]]
      | line :: rest => (c :: line) :: rest

/-- The loop of `read_answers` over the numbered lines. -/
def readLines (after : ℤ) (limit : Option ℤ) : ℤ → List (List Char) → List (List Char) → List (List Char)
  | _, [], out => out
  | index, line :: rest, out =>
    -- the writer is still on this line
    if line.getLast? ≠ some '\n' then out
    else if index < after then readLines after limit (index + 1) rest out
    else if ∃ most ∈ limit, most ≤ out.length then out
    else readLines after limit (index + 1) rest (out ++ [line.dropLast])

/-- The saved anchor answers from line `after` on (`read_answers`). -/
def readAnswers (text : List Char) (after : ℤ) (limit : Option ℤ) : List (List Char) :=
  readLines after limit 0 (fileLines text) []

/-- A file of whole lines, and what shows of one that is being written. -/
def fileText (lines : List Line) (tail : List Char) : List Char :=
  lines.flatMap (fun line => line.1 ++ ['\n']) ++ tail

/-! ## What a reader gets -/

variable {line tail text : List Char} {lines : List Line} {after limit index : ℤ}

lemma fileLines_line (h : '\n' ∉ line) : fileLines (line ++ '\n' :: text) = (line ++ ['\n']) :: fileLines text := by
  induction line with
  | nil => rfl
  | cons c line ih =>
    obtain ⟨hc, hline⟩ := not_or.1 (List.mem_cons.not.1 h)
    rw [List.cons_append, fileLines, if_neg (Ne.symm hc), ih hline]
    rfl

lemma fileLines_tail (h : '\n' ∉ tail) : fileLines tail = if tail = [] then [] else [tail] := by
  induction tail with
  | nil => rfl
  | cons c tail ih =>
    obtain ⟨hc, htail⟩ := not_or.1 (List.mem_cons.not.1 h)
    rw [fileLines, if_neg (Ne.symm hc), ih htail]
    cases tail <;> rfl

lemma fileLines_text :
    fileLines (fileText lines tail) = lines.map (fun line => line.1 ++ ['\n']) ++ fileLines tail := by
  induction lines with
  | nil => rfl
  | cons line lines ih =>
    have hsplit : fileText (line :: lines) tail = line.1 ++ '\n' :: fileText lines tail := by
      simp [fileText, List.flatMap_cons, List.append_assoc]
    rw [hsplit, fileLines_line line.2, ih]
    rfl

/-- A line that is being written ends the loop. -/
lemma readLines_tail {out : List (List Char)} (h : '\n' ∉ tail) :
    readLines after (some limit) index (fileLines tail) out = out := by
  rw [fileLines_tail h]
  split_ifs with hnil
  · rfl
  · unfold readLines
    rw [if_pos]
    intro hlast
    exact h (List.mem_of_getLast? hlast)

/-- The loop collects whole lines from the first that is asked for, as many as the limit leaves room for. -/
lemma readLines_text {out : List (List Char)} (h : '\n' ∉ tail) :
    readLines after (some limit) index (lines.map (fun line => line.1 ++ ['\n']) ++ fileLines tail) out =
      out ++ ((lines.drop (after - index).toNat).take (limit - out.length).toNat).map Subtype.val := by
  induction lines generalizing index out with
  | nil => simpa using readLines_tail h
  | cons line lines ih =>
    have hend : (line.1 ++ ['\n']).getLast? = some '\n' := List.getLast?_concat
    rw [List.map_cons, List.cons_append, readLines, if_neg (not_not.2 hend)]
    by_cases hafter : index < after
    · rw [if_pos hafter, ih]
      obtain ⟨n, hn⟩ : ∃ n : ℕ, (after - index).toNat = n + 1 := ⟨(after - index).toNat - 1, by omega⟩
      have hnext : (after - (index + 1)).toNat = n := by omega
      rw [hn, hnext, List.drop_succ_cons]
    · rw [if_neg hafter]
      have hzero : (after - index).toNat = 0 := by omega
      rw [hzero, List.drop_zero]
      simp only [Option.mem_def, Option.some.injEq, exists_eq_left']
      by_cases hfull : limit ≤ out.length
      · have hroom : (limit - out.length).toNat = 0 := by omega
        rw [if_pos hfull, hroom, List.take_zero, List.map_nil, List.append_nil]
      · rw [if_neg hfull, ih]
        obtain ⟨n, hn⟩ : ∃ n : ℕ, (limit - out.length).toNat = n + 1 := ⟨(limit - out.length).toNat - 1, by omega⟩
        have hroom : (limit - (out ++ [(line.1 ++ ['\n']).dropLast]).length).toNat = n := by
          rw [List.length_append, List.length_singleton]
          omega
        have hdrop : (after - (index + 1)).toNat = 0 := by omega
        rw [hn, hroom, hdrop, List.drop_zero, List.dropLast_concat, List.take_succ_cons, List.map_cons,
          List.append_assoc]
        rfl

/-- A page holds the whole lines from the first that is asked for, up to the limit. -/
theorem readAnswers_text (h : '\n' ∉ tail) : readAnswers (fileText lines tail) after (some limit) =
    ((lines.drop after.toNat).take limit.toNat).map Subtype.val := by
  unfold readAnswers
  rw [fileLines_text, readLines_text h]
  simp

end Quail.Server
