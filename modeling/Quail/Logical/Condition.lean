import Quail.Lib.Kleene

/-!
# Conditions

A condition is a test of a column, or a `NOT`, `AND` or `OR` over conditions. Its value on a row is
true, false or null; `negate` and `normalize` are the rewrites the planner applies before it places a
condition's parts. Expressions and literals are parameters, for a condition never looks into either.
-/

namespace Quail.Logical

open Kleene

/-- `COLUMN_COMPARISONS`, the ways a column is tested. -/
inductive Comparison where
  | equal | notEqual | less | lessEqual | greater | greaterEqual
  | isIn | isNull | isNotNull | isTrue
  | like | ilike | contains | icontains | startsWith | endsWith | regex
  deriving Repr, DecidableEq

/-- `_NEGATED_COMPARISONS`, the comparisons whose negation is another comparison. -/
def Comparison.negated : Comparison → Option Comparison
  | .isNull => some .isNotNull
  | .isNotNull => some .isNull
  | _ => none

/-- A test of a value expression against a literal, or against none. -/
structure RegularPredicate (E V : Type) where
  expression : E
  comparison : Comparison
  value : Option V
  deriving Repr, DecidableEq

/-- The two connectives over several operands. -/
inductive Connective where
  | and | or
  deriving Repr, DecidableEq

/-- Arrow's kernel a connective is combined by. -/
def Connective.kernel : Connective → Kleene → Kleene → Kleene
  | .and => andKleene
  | .or => orKleene

/-- The connective De Morgan's law turns this one into. -/
def Connective.dual : Connective → Connective
  | .and => .or
  | .or => .and

/-- `CONDITION_TYPES`: a test, a `Not`, or an `And` or `Or` over a tuple of operands. -/
inductive Condition (E V : Type) where
  | test (predicate : RegularPredicate E V)
  | not (operand : Condition E V)
  | connect (kind : Connective) (operands : List (Condition E V))

variable {E V : Type}

namespace Condition

/-- The connective at the root. -/
def kind : Condition E V → Option Connective
  | .connect k _ => some k
  | _ => none

/-- Induction over a condition, with the hypothesis for every operand of a connective. -/
@[elab_as_elim, induction_eliminator]
theorem induct {motive : Condition E V → Prop} (test : ∀ predicate, motive (.test predicate))
    (not : ∀ operand, motive operand → motive (.not operand))
    (connect : ∀ kind operands, (∀ c ∈ operands, motive c) → motive (.connect kind operands)) :
    ∀ c, motive c
  | .test predicate => test predicate
  | .not operand => not operand (induct test not connect operand)
  | .connect kind operands =>
    connect kind operands fun c hc =>
      have := List.sizeOf_lt_of_mem hc
      induct test not connect c
termination_by c => sizeOf c

end Condition

/-! ## Values -/

/-- The values of the tests on a row: any three values, but that the two null tests of an expression
are each other's negation. -/
structure Assignment (E V : Type) where
  value : RegularPredicate E V → Kleene
  opposite : ∀ expression v w,
    value ⟨expression, .isNotNull, v⟩ = invert (value ⟨expression, .isNull, w⟩)

/-- A row: which expressions are null on it, and what the comparison kernels make of the others. -/
structure Row (E V : Type) where
  isNull : E → Bool
  kernel : RegularPredicate E V → Kleene

/-- `RegularPredicate.evaluate` on one row. A null test looks at nothing but the null mask. -/
def RegularPredicate.evaluate (row : Row E V) (p : RegularPredicate E V) : Kleene :=
  match p.comparison with
  | .isNull => some (row.isNull p.expression)
  | .isNotNull => some !row.isNull p.expression
  | _ => row.kernel p

/-- Every row assigns its tests values. -/
def Row.assignment (row : Row E V) : Assignment E V where
  value := RegularPredicate.evaluate row
  opposite _ _ _ := rfl

namespace Condition

mutual

/-- `tests`: the column tests under a condition, in written order. -/
def tests : Condition E V → List (RegularPredicate E V)
  | .test predicate => [predicate]
  | .not operand => tests operand
  | .connect _ operands => testsAll operands

/-- The tests of the operands. -/
def testsAll : List (Condition E V) → List (RegularPredicate E V)
  | [] => []
  | c :: cs => tests c ++ testsAll cs

end

mutual

/-- `evaluate` on one row. A connective over no operand raises, for `reduce` has nothing to start
from. -/
def evaluate (a : Assignment E V) : Condition E V → Option Kleene
  | .test predicate => some (a.value predicate)
  | .not operand => (evaluate a operand).map invert
  | .connect kind operands => (evaluateAll a operands).bind (reduce kind.kernel)

/-- The masks of the operands. -/
def evaluateAll (a : Assignment E V) : List (Condition E V) → Option (List Kleene)
  | [] => some []
  | c :: cs => (evaluate a c).bind fun mask => (evaluateAll a cs).map (mask :: ·)

end

/-! ## The rewrites -/

mutual

/-- `negate`. -/
def negate : Condition E V → Condition E V
  | .not operand => operand
  | .connect kind operands => .connect kind.dual (negateAll operands)
  | .test p =>
    match p.comparison.negated with
    | some comparison => .test ⟨p.expression, comparison, none⟩
    | none => .not (.test p)

/-- `negate` of each operand. -/
def negateAll : List (Condition E V) → List (Condition E V)
  | [] => []
  | c :: cs => negate c :: negateAll cs

end

/-- What an operand contributes to a connective: its own operands when it is of the same kind. -/
def spread (kind : Connective) : Condition E V → List (Condition E V)
  | .connect k operands => if k = kind then operands else [.connect k operands]
  | c => [c]

/-- `normalize`, with a bound on the depth of its calls: a `Not` is normalized again after it was
moved down, so the recursion is not one on the condition. -/
def normalize : ℕ → Condition E V → Option (Condition E V)
  | 0, _ => none
  | depth + 1, .not operand => do
    let operand ← normalize depth operand
    match negate operand with
    | .not c => some (.not c)
    | negated => normalize depth negated
  | depth + 1, .connect kind operands => do
    let operands ← operands.mapM (normalize depth)
    some (.connect kind (operands.flatMap (spread kind)))
  | _ + 1, .test p => some (.test p)

end Condition

end Quail.Logical
