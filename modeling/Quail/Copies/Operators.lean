import Quail.Copies.Expanded

/-!
# Model operators

The operators that are asked about documents or pairs, what each of them reads, and what it means that
its outputs are the answers of a model. A model answers by the key documents alone. `Expands` says
that a run over the reduced inputs, expanded, is the run over all of the inputs.
-/

namespace Quail.Copies
open Arrays

variable {γ : Type}

/-! ## Operators and their nodes -/

/-- How a question about two tables gets its pairs: every combination of the documents read, the
listed pairs of these, or the pairs of rows over both tables. -/
inductive Pairing where
  | product
  | listed
  | rows
  deriving DecidableEq

/-- The model operators: a filter over one table at a written position, an inference over one or two
tables, and a join of an anchor with one partner. -/
inductive Operator where
  | filter (a : Alias) (position : ℕ)
  | inference (a : Alias)
  | pairInference (a b : Alias) (pairing : Pairing)
  | join (anchor partner : Alias) (anti listed : Bool) (position : ℕ)

namespace Operator

/-- The ports for the documents of one table. -/
def documentsPort (source : NodeId) (name : String) (a : Alias) : InputPort :=
  ⟨name, .rows, source, .rows a⟩

/-- The input ports of a question about two tables. -/
def pairPorts (source : NodeId) (a b : Alias) : Pairing → List InputPort
  | .product => [documentsPort source "left" a, documentsPort source "right" b]
  | .listed => [documentsPort source "left" a, documentsPort source "right" b,
      ⟨"pairs", .pairs, source, .pairs 0⟩]
  | .rows => [⟨"pairs", .rows, source, .allRows⟩]

/-- The pairing of a join. -/
def joinPairing (listed : Bool) : Pairing := if listed then .listed else .product

/-- The operator as a node that reads other nodes. -/
def node (id source : NodeId) : Operator → Node
  | filter a _ => ⟨id, .aiFilter a, [documentsPort source "left" a],
      [⟨.rows a, .rows⟩, ⟨.filterAnswers a, .filterAnswers⟩]⟩
  | inference a => ⟨id, .aiInference, [documentsPort source "left" a], [⟨.rows a, .rows⟩]⟩
  | pairInference a b pairing => ⟨id, .aiInference, pairPorts source a b pairing, [⟨.allRows, .rows⟩]⟩
  | join anchor partner anti listed position =>
    ⟨id, .aiJoin anchor [partner] anti, pairPorts source anchor partner (joinPairing listed),
      [⟨.rows anchor, .rows⟩, ⟨.joinAnswers position, .joinAnswers⟩]⟩

end Operator

/-! ## Inputs -/

/-- The inputs of one node, by port name. -/
abbrev Inputs (γ : Type) := Dict String (Value γ)

/-- The documents at an input. -/
def documentsAt (inputs : Inputs γ) (name : String) : List ℕ :=
  match inputs.get? name with
  | some value => value.documentIds.toOption.getD []
  | none => []

/-- The listed pairs. -/
def listedPairs (inputs : Inputs γ) (a b : Alias) : List (ℕ × ℕ) :=
  match inputs.get? "pairs" with
  | some (.rows table) => table.rows.map fun row => (row.1 a, row.1 b)
  | some (.pairs table) => table.rows.map fun row => (row.1 a, row.1 b)
  | _ => []

/-- The pairs a question about two tables is asked about. -/
def askedPairs (inputs : Inputs γ) (a b : Alias) : Pairing → List (ℕ × ℕ)
  | .product => documentsAt inputs "left" ×ˢ documentsAt inputs "right"
  | .listed => (listedPairs inputs a b).filter fun p =>
      p.1 ∈ documentsAt inputs "left" ∧ p.2 ∈ documentsAt inputs "right"
  | .rows => listedPairs inputs a b

/-- A document's key document; a table that is not deduplicated is its own key. -/
def Context.keyOf (context : Context) (a : Alias) (document : ℕ) : ℕ :=
  if a ∈ context.deduplicate then ((context.firstDocument a).getD []).getD document document
  else document

/-- A document of the alias's table; ids are 32-bit integers. -/
def Context.InTable (context : Context) (a : Alias) (document : ℕ) : Prop :=
  document < 2 ^ 31 ∧
    (a ∈ context.deduplicate → document < ((context.firstDocument a).getD []).length)

/-- Every alias to deduplicate has its column of first documents. -/
def Context.WellFormed (context : Context) : Prop :=
  ∀ a ∈ context.deduplicate, ∃ groups, ∃ documents, firstDocuments groups = .ok documents ∧
    context.firstDocument a = some documents

/-- A value for a port that carries documents of one table, each of them once. -/
structure IsDocuments (context : Context) (a : Alias) (value : Value γ) : Prop where
  form : (∃ documents, value = .ids documents) ∨ ∃ table, value = .rows table ∧ table.aliases = [a]
  nodup : (value.documentIds.toOption.getD []).Nodup
  inTable : ∀ d ∈ value.documentIds.toOption.getD [], context.InTable a d

/-- A table of pairs, whose id columns are the two aliases in either order. -/
structure IsPairs (context : Context) (a b : Alias) (table : Table (List γ)) : Prop where
  aliases : table.aliases = [a, b] ∨ table.aliases = [b, a]
  left : ∀ row ∈ table.rows, context.InTable a (row.1 a)
  right : ∀ row ∈ table.rows, context.InTable b (row.1 b)

/-- The inputs of a question about two tables. -/
def ReadsPairs (context : Context) (inputs : Inputs γ) (a b : Alias) : Pairing → Prop
  | .product => (∃ left, inputs.get? "left" = some left ∧ IsDocuments context a left) ∧
      ∃ right, inputs.get? "right" = some right ∧ IsDocuments context b right
  | .listed => (∃ left, inputs.get? "left" = some left ∧ IsDocuments context a left) ∧
      (∃ right, inputs.get? "right" = some right ∧ IsDocuments context b right) ∧
      ∃ table, inputs.get? "pairs" = some (.pairs table) ∧ IsPairs context a b table
  | .rows => ∃ table, inputs.get? "pairs" = some (.rows table) ∧ IsPairs context a b table

/-- The inputs are as the operator's ports say. -/
def Operator.Reads (context : Context) (inputs : Inputs γ) : Operator → Prop
  | filter a _ => ∃ left, inputs.get? "left" = some left ∧ IsDocuments context a left
  | inference a => ∃ left, inputs.get? "left" = some left ∧ IsDocuments context a left
  | pairInference a b pairing => a ≠ b ∧ ReadsPairs context inputs a b pairing
  | join anchor partner _ listed _ =>
    anchor ≠ partner ∧ ReadsPairs context inputs anchor partner (joinPairing listed)

/-! ## Answers -/

/-- A model: its answers to each kind of question, by document. An inference may have no row. -/
structure Model (γ : Type) where
  passes : ℕ → Bool
  row : ℕ → Option (List γ)
  pairRow : ℕ → ℕ → Option (List γ)
  relates : ℕ → ℕ → Bool

/-- The rows are these, in this order or in any. -/
def Same {α : Type} (inOrder : Bool) (l l' : List α) : Prop := if inOrder then l = l' else l.Perm l'

/-- The elements of a list of documents come as they do in it; an ascending one keeps its order. -/
def AsRead (read l l' : List ℕ) : Prop := l.Perm l' ∧ (read.Pairwise (· < ·) → l = l')

/-- The table of a value that holds join answers. -/
def answersTable : Value γ → Except PyError (Table Bool)
  | .joinAnswers table => .ok table
  | .joinRecord record => record.table
  | _ => .error (.type "join answers are a table or a record")

/-- The outputs answer what the operator is asked: one answer for every document, or pair, that it
reads. With `inOrder` the answers come in the order of the documents or of the listed pairs; a full
product lists no order. -/
def Operator.Answered (inOrder : Bool) (model : Model γ) (inputs : Inputs γ)
    (outputs : Dict PortName (Value γ)) : Operator → Prop
  | filter a position =>
    (∃ table, outputs.get? (.rows a) = some (.rows table) ∧ table.aliases = [a] ∧
      Same inOrder (table.rows.map fun row => row.1 a)
        ((documentsAt inputs "left").filter model.passes)) ∧
    ∃ table, outputs.get? (.filterAnswers a) = some (.filterAnswers table) ∧ table.aliases = [a] ∧
      Same inOrder (table.rows.map fun row => (row.1 a, row.2))
        ((documentsAt inputs "left").map fun d => (d, position, model.passes d))
  | inference a =>
    ∃ table, outputs.get? (.rows a) = some (.rows table) ∧ table.aliases = [a] ∧
      Same inOrder (table.rows.map fun row => (row.1 a, row.2))
        ((documentsAt inputs "left").filterMap fun d => (model.row d).map fun row => (d, row))
  | pairInference a b pairing =>
    ∃ table, outputs.get? .allRows = some (.rows table) ∧ table.aliases = [a, b] ∧
      Same (inOrder && decide (pairing ≠ .product))
        (table.rows.map fun row => ((row.1 a, row.1 b), row.2))
        ((askedPairs inputs a b pairing).filterMap fun p =>
          (model.pairRow p.1 p.2).map fun row => (p, row))
  | join anchor partner anti listed position =>
    (∃ value table, outputs.get? (.joinAnswers position) = some value ∧
      answersTable value = .ok table ∧ table.aliases = [anchor, partner] ∧
      Same (inOrder && listed) (table.rows.map fun row => ((row.1 anchor, row.1 partner), row.2))
        ((askedPairs inputs anchor partner (joinPairing listed)).map fun p =>
          (p, model.relates p.1 p.2))) ∧
    ∃ table, outputs.get? (.rows anchor) = some (.rows table) ∧ table.aliases = [anchor] ∧
      AsRead (documentsAt inputs "left") (table.rows.map fun row => row.1 anchor)
        ((documentsAt inputs "left").filter fun a => keeps anti
          ((askedPairs inputs anchor partner (joinPairing listed)).any fun p =>
            decide (p.1 = a) && model.relates p.1 p.2))

/-- The model asked about key documents in place of the documents. -/
def Model.byKey (model : Model γ) (context : Context) : Operator → Model γ
  | .filter a _ => { model with passes := fun d => model.passes (context.keyOf a d) }
  | .inference a => { model with row := fun d => model.row (context.keyOf a d) }
  | .pairInference a b _ =>
    { model with pairRow := fun x y => model.pairRow (context.keyOf a x) (context.keyOf b y) }
  | .join a b _ _ _ =>
    { model with relates := fun x y => model.relates (context.keyOf a x) (context.keyOf b y) }

/-- Running the operator over the reduced inputs and expanding the result is running it over all of
them: whatever the model answers by key, from any result over the reduced inputs. -/
def Expands [DecidableEq γ] (join : List ℕ → List ℕ → List (ℕ × ℕ)) (op : Operator)
    (id source : NodeId) (context : Context) (inputs : Inputs γ) : Prop :=
  match deduplicate [op.node id source] (Dict.empty.set id inputs) context with
  | .error _ => False
  | .ok none => True
  | .ok (some d) => ∃ reduced, d.inputs.get? id = some reduced ∧
      ∀ (model : Model γ) (result : NodeResult γ),
        op.Answered false (model.byKey context op) reduced result.outputs →
        ∃ results expanded, d.expanded join (Dict.empty.set id result) = .ok results ∧
          results.get? id = some expanded ∧
          op.Answered true (model.byKey context op) inputs expanded.outputs

end Quail.Copies
