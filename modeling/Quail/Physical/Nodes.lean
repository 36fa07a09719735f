import Quail.Physical.Graph

/-!
# The built in nodes

What the nodes of `physical/nodes/` say of themselves: their ports, the documents they process one at a
time, the prompt head they show them under, and which operators they follow and precede.
-/

namespace Quail.Physical

/-- A token id of the model's vocabulary. -/
abbrev Token := ℕ

/-- How a join keeps its anchors. -/
inductive Semantics
  | full
  | exists_
  | anti
  deriving DecidableEq

/-- Bound inputs and output columns of one model call. -/
structure InferenceSpec where
  name : String
  aliases : List Alias
  promptTokenParts : List (List Token)

/-- The settings two extractions must share to use one decoder. -/
structure Decoding where
  maxAnswerTokens : ℕ
  draftTokens : ℕ
  draftPolicy : String
  expectedAnswerTokens : ℕ
  roundCostPerToken : ℚ
  topTokens : ℕ
  firstWindowChars : ℕ
  windowChars : ℕ
  deriving DecidableEq

/-- What a node does. A Project computes expressions over result rows, or projects source columns and model
answers by document ID. -/
inductive Operator
  | scan (alias_ : Alias)
  | filter (aliases : List Alias) (writtenPosition : ℕ) (columns : List String)
  | aiFilter (alias_ : Alias) (documentHead : List Token)
  | aiJoin (anchor : Alias) (partners : List Alias) (semantics : Semantics) (writtenPosition : ℕ)
      (documentHead : List Token)
  | hashJoin (left right : Alias) (writtenPosition : ℤ)
  | barrier (aliases : List Alias)
  | exchange (anchor : Alias)
  | recombine (aliasOrder : List Alias)
  | project (resultColumns : List String) (fromRows : Bool)
  | aggregate (columns : List String)
  | sort (columns : List String)
  | window (columns : List String)
  | unnest (lists : List String) (outer : Bool) (columns : List String)
  | limit (count : ℕ)
  | queryStage (columns : List String)
  | aiClassify (backendName : String) (spec : InferenceSpec)
  | aiExtract (backendName : String) (spec : InferenceSpec) (decoding : Decoding)
  | aiMap (backendName : String) (spec : InferenceSpec)
  | aiSaeFeatures (backendName : String) (spec : InferenceSpec)
  | aiScore (backendName : String) (spec : InferenceSpec) (stateTailTokens : ℕ)

/-- A built in node. -/
structure Node where
  id : NodeId
  inputs : List InputPort
  operator : Operator

namespace InferenceSpec

/-- The document IDs and computed columns. -/
def outputColumns (spec : InferenceSpec) : List String := spec.aliases ++ [spec.name]

/-- The output carrying the rows: per alias for one table, rows for pairs. -/
def rowsPort (spec : InferenceSpec) : Port :=
  match spec.aliases with
  | [a] => "rows:" ++ a
  | _ => "rows"

/-- The token ids a document is shown under. -/
def documentHead (spec : InferenceSpec) : List Token := spec.promptTokenParts.headD []

/-- The partner table of a classification of pairs. -/
def partner (spec : InferenceSpec) : Option Alias :=
  match spec.aliases with
  | [_, partner] => some partner
  | _ => none

/-- The columns of the rows an operator answers. -/
def output (spec : InferenceSpec) (columns : List String) : List OutputPort :=
  [⟨spec.rowsPort, .rows, columns⟩]

end InferenceSpec

namespace Operator

def runtimeKey : Operator → String
  | scan .. => "quail.scan"
  | filter .. => "quail.filter"
  | aiFilter .. => "quail.ai_filter"
  | aiJoin .. => "quail.ai_join"
  | hashJoin .. => "quail.hash_join"
  | barrier .. => "quail.barrier"
  | exchange .. => "quail.exchange"
  | recombine .. => "quail.recombine"
  | project .. => "quail.project"
  | aggregate .. => "quail.aggregate"
  | sort .. => "quail.sort"
  | window .. => "quail.window"
  | unnest .. => "quail.unnest"
  | limit .. => "quail.limit"
  | queryStage .. => "quail.query_stage"
  | aiClassify .. => "quail.ai_classify"
  | aiExtract .. => "quail.ai_extract"
  | aiMap .. => "quail.ai_map"
  | aiSaeFeatures .. => "quail.ai_sae_features"
  | aiScore .. => "quail.ai_score"

def outputs : Operator → List OutputPort
  | scan a => [⟨"rows:" ++ a, .rows, [a]⟩]
  | filter [] _ columns => [⟨"rows", .rows, columns⟩]
  | filter [a] _ _ => [⟨"rows:" ++ a, .rows, []⟩, ⟨"filter_answers:" ++ a, .filterAnswers, []⟩]
  | filter _ position _ => [⟨"rows", .rows, []⟩, ⟨"join_answers:" ++ toString position, .joinAnswers, []⟩]
  | aiFilter a _ =>
    [⟨"rows:" ++ a, .rows, [a]⟩, ⟨"filter_answers:" ++ a, .filterAnswers, [a, "predicate", "answer"]⟩]
  | aiJoin anchor partners _ position _ =>
    [⟨"rows:" ++ anchor, .rows, [anchor]⟩,
      ⟨"join_answers:" ++ toString position, .joinAnswers, anchor :: partners ++ ["answer"]⟩]
  | hashJoin left right position => [⟨"pairs:" ++ toString position, .pairs, [left, right]⟩]
  | barrier aliases => aliases.map fun a => ⟨"rows:" ++ a, .rows, [a]⟩
  | exchange anchor => [⟨"rows:" ++ anchor, .rows, [anchor]⟩]
  | recombine aliases => [⟨"tuples", .rows, aliases⟩]
  | project columns _ => [⟨"rows", .rows, columns⟩]
  | aggregate columns => [⟨"rows", .rows, columns⟩]
  | sort columns => [⟨"rows", .rows, columns⟩]
  | window columns => [⟨"rows", .rows, columns⟩]
  | unnest _ _ columns => [⟨"rows", .rows, columns⟩]
  | limit _ => [⟨"rows", .rows, []⟩]
  | queryStage columns => [⟨"rows", .rows, columns⟩]
  | aiClassify _ spec => spec.output spec.outputColumns
  | aiExtract _ spec _ => spec.output (spec.outputColumns ++ [spec.name ++ "_span"])
  | aiMap _ spec => spec.output spec.outputColumns
  | aiSaeFeatures _ spec => spec.output spec.outputColumns
  | aiScore _ spec _ => spec.output spec.outputColumns

/-- The model backend of an operator that asks a model. -/
def backend : Operator → Option String
  | aiFilter .. => some "quail"
  | aiJoin .. => some "quail"
  | aiClassify name _ => some name
  | aiExtract name _ _ => some name
  | aiMap name _ => some name
  | aiSaeFeatures name _ => some name
  | aiScore name _ _ => some name
  | _ => none

/-- The alias an operator can process one document at a time. A score does under set attention only. -/
def documentAlias : Operator → Option Alias
  | filter [a] _ _ => some a
  | aiFilter a _ => some a
  | aiJoin anchor .. => some anchor
  | aiClassify _ spec => spec.aliases.head?
  | aiExtract _ spec _ => spec.aliases.head?
  | aiMap _ spec => spec.aliases.head?
  | aiSaeFeatures _ spec => spec.aliases.head?
  | aiScore _ spec tail => if tail = 0 then none else spec.aliases.head?
  | _ => none

/-- The token ids an operator shows a document under. -/
def documentHead : Operator → List Token
  | aiFilter _ head => head
  | aiJoin _ _ _ _ head => head
  | aiClassify _ spec => spec.documentHead
  | aiExtract _ spec _ => spec.documentHead
  | aiMap _ spec => spec.documentHead
  | aiSaeFeatures _ spec => spec.documentHead
  | aiScore _ spec _ => spec.documentHead
  | _ => []

/-- The output of a join that holds its answers. -/
def joinAnswers : Operator → Port
  | aiJoin _ _ _ position _ => "join_answers:" ++ toString position
  | _ => ""

/-- The outputs that can feed the next operator for a document. -/
def documentOutputs (op : Operator) (a : Alias) : List Port :=
  match op with
  | aiJoin .. => [op.joinAnswers, "rows:" ++ a]
  | _ => ["rows:" ++ a]

def isJoin : Operator → Bool
  | aiJoin .. => true
  | _ => false

def isClassify : Operator → Bool
  | aiClassify .. => true
  | _ => false

/-- Whether a classification reads a join's surviving pairs. -/
def classifiesJoin : Operator → Operator → Bool
  | aiClassify _ spec, aiJoin anchor partners .. =>
    spec.partner.isSome && spec.aliases.head? == some anchor && spec.aliases.isPerm (anchor :: partners)
  | _, _ => false

/-- Whether an operator can use the preceding document KV. -/
def canFollow (op previous first : Operator) : Bool :=
  match op, previous with
  -- a condition reads no KV
  | filter .., _ => true
  | aiClassify .., aiJoin .. => op.classifiesJoin previous
  | aiClassify _ spec, _ => spec.partner.isNone && spec.documentHead == first.documentHead
  -- consecutive extractions share one decoder
  | aiExtract _ spec decoding, aiExtract _ _ decoding' =>
    decide (decoding' = decoding) && first.documentHead == spec.documentHead
  | _, _ => first.documentHead == op.documentHead

/-- Whether a consumer can run before other documents finish. -/
def canPrecede (op consumer : Operator) : Bool :=
  match op, consumer with
  | aiJoin anchor _ semantics .., aiJoin anchor' _ semantics' .. =>
    anchor == anchor' && decide (semantics = .full) && decide (semantics' = .full)
  | aiJoin .., _ => consumer.classifiesJoin op
  | _, _ => true

end Operator

instance : PhysicalNode Node where
  nodeId := Node.id
  inputs := Node.inputs
  outputs node := node.operator.outputs
  runtimeKey node := node.operator.runtimeKey
  backend node := node.operator.backend
  documentAlias node := node.operator.documentAlias
  documentOutputs node := node.operator.documentOutputs
  canFollow node previous first := node.operator.canFollow previous.operator first.operator
  canPrecede node consumer := node.operator.canPrecede consumer.operator
  isJoin node := node.operator.isJoin
  isClassify node := node.operator.isClassify
  joinAnswers node := node.operator.joinAnswers
  classifiesJoin node join := node.operator.classifiesJoin join.operator

end Quail.Physical
