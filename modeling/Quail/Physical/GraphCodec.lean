import Quail.Physical.Accepted

/-!
# The codec of graphs

`NodeCodec`, `encode_graph` and `decode_graph` of `physical/codec.py`: a node is encoded under its type name with its
id, its inputs and its other fields, and decoded by the codec that its type name names; a decoded graph is validated.
-/

namespace Quail.Codec

variable {κ F : Type}

/-! ## The source -/

/-- The classes of the program, with the type names of nodes and the class of port references. -/
structure NodeClasses (κ F : Type) extends Classes κ F where
  typeName : κ → String
  portRef : κ

/-- `NodeCodec`: encode and decode one registered physical node type. -/
structure NodeCodec (κ : Type) where
  nodeType : κ

/-- `getattr(value, name)` -/
def getField (name : String) (fields : List (String × Value κ F)) : Except PyError (Value κ F) :=
  match Dict.find name fields with
  | none => .error (.runtime "AttributeError")
  | some value => .ok value

/-- `value[key]` -/
def entry (key : String) (entries : List (String × Encoded F)) : Except PyError (Encoded F) :=
  match Dict.find key entries with
  | none => .error (.key key)
  | some value => .ok value

/-- The fields that a node's codec encodes on its own. -/
def ownFields : List String := ["node_id", "inputs"]

/-- `node.node_id`, as it is. -/
def nodeId (fields : List (String × Value κ F)) : Except PyError (Encoded F) := do
  match ← getField "node_id" fields with
  | .scalar s => return .scalar s
  | _ => .error (.type "a node id is a string")

namespace NodeCodec

/-- Encode a node: its type name, its id, its inputs and its other fields. -/
def encode (N : NodeClasses κ F) (codec : NodeCodec κ) : Value κ F → Except PyError (Encoded F)
  | .object kind fields =>
    if N.subclass kind codec.nodeType then do
      let id ← nodeId fields
      let inputs ← encodeValue N.toClasses (← getField "inputs" fields)
      let attributes ← encodeFields N.toClasses (fields.filter fun f => f.1 ∉ ownFields)
      return .dict [(typeKey, .scalar (.str (N.typeName codec.nodeType))), ("id", id), ("inputs", inputs),
        ("attributes", .dict attributes)]
    else .error (.type ("codec '" ++ N.typeName codec.nodeType ++ "' cannot encode " ++ N.name kind))
  | _ => .error (.type ("codec '" ++ N.typeName codec.nodeType ++ "' cannot encode the value"))

/-- The keys of an encoded node. -/
def keys : List String := [typeKey, "id", "inputs", "attributes"]

/-- Decode a node of the codec's type. -/
def decode (N : NodeClasses κ F) (codec : NodeCodec κ) : Encoded F → Except PyError (Value κ F)
  | .dict entries => do
    let missing := keys.filter (· ∉ entries.map Prod.fst)
    let unknown := (entries.map Prod.fst).filter (· ∉ keys)
    if missing ≠ [] then .error (.value ("physical node is missing fields " ++ namesText (sortedNames missing)))
    else if unknown ≠ [] then .error (.value ("physical node has unknown fields " ++ namesText (sortedNames unknown)))
    else
      match ← entry typeKey entries with
      | .scalar (.str name) =>
        if name = N.typeName codec.nodeType then do
          match Dict.find "inputs" (N.fields codec.nodeType) with
          | none => .error (.key "inputs")
          | some ann => do
            let inputs ← decodeValue N.toClasses (← entry "inputs" entries) ann
            match ← entry "attributes" entries with
            | .dict attributes => do
              let given := [("node_id", raw (← entry "id" entries)), ("inputs", inputs)]
              decodeFields N.toClasses codec.nodeType (parts N.toClasses (.dict attributes)) given
            | _ => .error (.type "the attributes are not a mapping")
        else .error (.value ("codec '" ++ N.typeName codec.nodeType ++ "' cannot decode '" ++ name ++ "'"))
      | _ => .error (.value ("codec '" ++ N.typeName codec.nodeType ++ "' cannot decode the type"))
  | _ => .error (.type "a physical node is a mapping")

end NodeCodec

/-- A graph: its nodes, and the port it answers with. -/
structure Graph (κ F : Type) where
  nodes : List (Value κ F)
  root : Value κ F

/-- `codecs[node.type_name].encode(node)` -/
def encodeNode (N : NodeClasses κ F) (codecs : Dict String (NodeCodec κ)) : Value κ F → Except PyError (Encoded F)
  | .object kind fields =>
    match codecs.get? (N.typeName kind) with
    | none => .error (.key (N.typeName kind))
    | some codec => codec.encode N (.object kind fields)
  | _ => .error (.runtime "AttributeError")

/-- Encode one physical graph. -/
def encodeGraph (N : NodeClasses κ F) (codecs : Dict String (NodeCodec κ)) (g : Graph κ F) : Except PyError (Encoded F) := do
  let nodes ← g.nodes.mapM (encodeNode N codecs)
  return .dict [("nodes", .list nodes), ("root", ← encodeValue N.toClasses g.root)]

/-- Decode a node by the codec of its type name. -/
def decodeNode (N : NodeClasses κ F) (codecs : Dict String (NodeCodec κ)) : Encoded F → Except PyError (Value κ F)
  | .dict entries => do
    match ← entry typeKey entries with
    | .scalar (.str name) =>
      match codecs.get? name with
      | none => .error (.value ("unknown physical node type '" ++ name ++ "'"))
      | some codec => codec.decode N (.dict entries)
    | .scalar _ => .error (.value "unknown physical node type")
    | _ => .error (.type "unhashable type")
  | _ => .error (.type "indices must be integers")

/-- What a loop over a value goes through. -/
def iterate : Encoded F → Except PyError (List (Encoded F))
  | .list items => .ok items
  | .dict entries => .ok (entries.map fun e => .scalar (.str e.1))
  | .scalar (.str s) => .ok (s.toList.map fun c => .scalar (.str (String.singleton c)))
  | .scalar _ => .error (.type "object is not iterable")

/-- Decode and validate one physical graph. -/
def decodeGraph (N : NodeClasses κ F) (validate : Graph κ F → Except PyError Unit) (codecs : Dict String (NodeCodec κ)) :
    Encoded F → Except PyError (Graph κ F)
  | .dict entries =>
    if (entries.map Prod.fst).all (· ∈ ["nodes", "root"]) ∧ ["nodes", "root"].all (· ∈ entries.map Prod.fst) then do
      let nodes ← (← iterate (← entry "nodes" entries)).mapM (decodeNode N codecs)
      let root ← decodeValue N.toClasses (← entry "root" entries) (.cls N.portRef)
      validate ⟨nodes, root⟩
      return ⟨nodes, root⟩
    else .error (.value "a physical graph has nodes and a root")
  | _ => .error (.value "a physical graph has nodes and a root")

/-! ## Nodes -/

/-- A class of nodes that has a codec: it has an id and inputs, and the codec of its type name is its own. -/
structure Registered (N : NodeClasses κ F) (codecs : Dict String (NodeCodec κ)) (kind : κ) : Prop where
  id : ("node_id", .str) ∈ N.fields kind
  inputs : ∃ a, ("inputs", a) ∈ N.fields kind
  codec : codecs.get? (N.typeName kind) = some ⟨kind⟩

/-- A node of a class that has a codec. -/
inductive NodeOf (N : NodeClasses κ F) (codecs : Dict String (NodeCodec κ)) : Value κ F → Prop
  | object {kind : κ} {fields : List (String × Value κ F)} : Registered N codecs kind →
    Typed N.toClasses kind fields → N.postInit kind fields = .ok fields → NodeOf N codecs (.object kind fields)

section

variable {N : NodeClasses κ F} {codecs : Dict String (NodeCodec κ)}

/-- Fields without a tag are those of the annotation itself. -/
lemma decodeFields_untagged {C : Classes κ F} {c : κ} {es : List (String × Encoded F)} {given : List (String × Value κ F)}
    (h : typeKey ∉ es.map Prod.fst) : decodeFields C c (parts C (.dict es)) given =
      construct C c (es.map fun e => (e.1, decodeValue C e.2)) given := by
  have hnone : Dict.find typeKey es = none := by
    cases hfind : Dict.find typeKey es with
    | none => rfl
    | some e => exact absurd (List.mem_map_of_mem (Dict.mem_of_find hfind)) h
  rw [decodeFields]
  show (taggedType C (Dict.find typeKey es) (some c) >>= _) = _
  rw [hnone]
  rfl

/-- The value of a field of a class. -/
lemma Typed.field {C : Classes κ F} {kind : κ} {fields : List (String × Value κ F)} (h : Typed C kind fields)
    (hC : C.Regular) {name : String} {a : Ann κ} (ha : (name, a) ∈ C.fields kind) :
    ∃ v, (name, v) ∈ fields ∧ Dict.find name fields = some v ∧ HasType C v a := by
  have hname : name ∈ fields.map Prod.fst := h.names ▸ List.mem_map_of_mem ha
  obtain ⟨f, hf, hname⟩ := List.mem_map.1 hname
  obtain ⟨name', v⟩ := f
  obtain rfl : name' = name := hname
  exact ⟨v, hf, Dict.find_of_mem (h.names ▸ hC.distinct kind) hf, h.types _ _ _ ha hf⟩

/-- The keys of an encoded node are all there, and no others. -/
lemma keys_node {id inputs attributes type_ : Encoded F} :
    NodeCodec.keys.filter (fun key => key ∉ ([(typeKey, type_), ("id", id), ("inputs", inputs),
      ("attributes", attributes)] : List (String × Encoded F)).map Prod.fst) = [] ∧
    (([(typeKey, type_), ("id", id), ("inputs", inputs), ("attributes", attributes)] : List (String × Encoded F)).map
      Prod.fst).filter (fun key => key ∉ NodeCodec.keys) = [] := by
  constructor <;> rfl

/-- A node of a class that has a codec is decoded to itself from what it is encoded to. -/
lemma trip_node (hC : N.toClasses.Regular) {kind : κ} {fields : List (String × Value κ F)}
    (hregistered : Registered N codecs kind) (htyped : Typed N.toClasses kind fields)
    (hinit : N.postInit kind fields = .ok fields) : ∃ entries, encodeNode N codecs (.object kind fields) = .ok (.dict entries) ∧
      decodeNode N codecs (.dict entries) = .ok (.object kind fields) := by
  obtain ⟨idValue, -, hid, hidType⟩ := htyped.field hC hregistered.id
  obtain ⟨id, rfl⟩ : ∃ id, idValue = .scalar (.str id) := by
    cases hidType
    exact ⟨_, rfl⟩
  obtain ⟨a, ha⟩ := hregistered.inputs
  obtain ⟨inputs, -, hinputs, hinputsType⟩ := htyped.field hC ha
  obtain ⟨encodedInputs, hinputsTrip⟩ := exists_trip hC hinputsType (hC.clear kind _ ha)
  have hattributes : ∀ f ∈ fields.filter (fun f => f.1 ∉ ownFields), ∃ e, encodeValue N.toClasses f.2 = .ok e ∧
      ∀ b, (f.1, b) ∈ N.fields kind → decodeValue N.toClasses e b = .ok f.2 := by
    intro f hf
    have hmem := List.mem_of_mem_filter hf
    have hname : f.1 ∈ (N.fields kind).map Prod.fst := htyped.names ▸ List.mem_map_of_mem hmem
    obtain ⟨field, hfield, hname⟩ := List.mem_map.1 hname
    obtain ⟨name, b⟩ := field
    obtain rfl : name = f.1 := hname
    obtain ⟨e, htrip⟩ := exists_trip hC (htyped.types _ _ _ hfield hmem) (hC.clear kind _ hfield)
    refine ⟨e, htrip.encode, fun b' hb' => ?_⟩
    have hb := Dict.find_of_mem (hC.distinct kind) hfield
    rw [Dict.find_of_mem (hC.distinct kind) hb'] at hb
    exact Option.some.inj hb ▸ htrip.decode
  obtain ⟨es, hes, hforall⟩ := encodeFields_ok (R := fun name v e => ∀ b, (name, b) ∈ N.fields kind →
    decodeValue N.toClasses e b = .ok v) hattributes
  have hkeys := encodeFields_keys hes
  have hnodup : (fields.map Prod.fst).Nodup := htyped.names ▸ hC.distinct kind
  have hesNodup : (es.map Prod.fst).Nodup := hkeys ▸ hnodup.sublist (List.filter_sublist.map _)
  have hmemKeys : ∀ name, name ∈ es.map Prod.fst ↔ name ∈ (N.fields kind).map Prod.fst ∧ name ∉ ownFields := by
    intro name
    rw [hkeys, ← htyped.names]
    constructor
    · intro hmem
      obtain ⟨f, hf, rfl⟩ := List.mem_map.1 hmem
      rw [List.mem_filter, decide_eq_true_eq] at hf
      exact ⟨List.mem_map_of_mem hf.1, hf.2⟩
    · intro hmem
      obtain ⟨f, hf, rfl⟩ := List.mem_map.1 hmem.1
      exact List.mem_map_of_mem (List.mem_filter.2 ⟨hf, decide_eq_true hmem.2⟩)
  have huntagged : typeKey ∉ es.map Prod.fst := fun h => hC.untagged kind ((hmemKeys typeKey).1 h).1
  have hencode : encodeNode N codecs (.object kind fields) =
      .ok (.dict [(typeKey, .scalar (.str (N.typeName kind))), ("id", .scalar (.str id)), ("inputs", encodedInputs),
        ("attributes", .dict es)]) := by
    simp only [encodeNode, hregistered.codec, NodeCodec.encode, hC.refl kind, if_true, nodeId, getField, hid, ok_bind,
      hinputs, hinputsTrip.encode, hes]
    rfl
  refine ⟨_, hencode, ?_⟩
  have hconstruct : construct N.toClasses kind (es.map fun e => (e.1, decodeValue N.toClasses e.2))
      [("node_id", .scalar (.str id)), ("inputs", inputs)] = .ok (.object kind fields) := by
    refine construct_ok (fun name _ => ?_) (hC.untagged kind) ?_ htyped.names (fun name v hv => ?_)
      (fun name b v hb hv hnone => ?_) hinit
    · rw [List.map_map]
      exact hmemKeys name
    · intro e he
      obtain rfl | he := List.mem_cons.1 he
      · exact List.mem_map_of_mem hregistered.id
      · rw [List.mem_singleton.1 he]
        exact List.mem_map_of_mem ha
    · have hfind := Dict.find_of_mem hnodup hv
      rw [Dict.find, Dict.find, Dict.find]
      split
      · rename_i heq
        rw [← heq, hid] at hfind
        exact .inr hfind
      · split
        · rename_i heq
          rw [← heq, hinputs] at hfind
          exact .inr hfind
        · exact .inl rfl
    · have hown : name ∉ ownFields := by
        intro hmem
        obtain rfl | hmem := List.mem_cons.1 hmem
        · cases hnone
        · obtain rfl := List.mem_singleton.1 hmem
          cases hnone
      obtain ⟨e, he, hname, hdecode⟩ := forall₂_exists_right hforall (List.mem_filter.2 ⟨hv, decide_eq_true hown⟩)
      refine ⟨decodeValue N.toClasses e.2, Dict.find_of_mem ?_ (List.mem_map.2 ⟨e, he, by rw [hname]⟩), hdecode b hb⟩
      rw [List.map_map]
      exact hesNodup
  have hannotation := Dict.find_of_mem (hC.distinct kind) ha
  rw [decodeNode]
  show (match codecs.get? (N.typeName kind) with
    | none => _
    | some codec => codec.decode N _) = _
  rw [hregistered.codec]
  dsimp only
  rw [NodeCodec.decode, keys_node.1, keys_node.2]
  simp only [ne_eq, not_true_eq_false, if_false]
  show (if N.typeName kind = N.typeName kind then _ else _) = _
  rw [if_pos rfl, hannotation]
  show (decodeValue N.toClasses encodedInputs a >>= _) = _
  rw [hinputsTrip.decode, ok_bind]
  show decodeFields N.toClasses kind (parts N.toClasses (.dict es)) [("node_id", .scalar (.str id)), ("inputs", inputs)] = _
  rw [decodeFields_untagged huntagged, hconstruct]

/-- Nodes of registered classes are decoded to themselves. -/
lemma trip_nodes (hC : N.toClasses.Regular) {nodes : List (Value κ F)} (h : ∀ node ∈ nodes, NodeOf N codecs node) :
    ∃ es, nodes.mapM (encodeNode N codecs) = .ok es ∧ es.mapM (decodeNode N codecs) = .ok nodes := by
  induction nodes with
  | nil => exact ⟨[], rfl, rfl⟩
  | cons node nodes ih =>
    obtain ⟨hnode, hnodes⟩ := List.forall_mem_cons.1 h
    obtain ⟨es, hencodes, hdecodes⟩ := ih hnodes
    cases hnode with
    | object hregistered htyped hinit =>
      obtain ⟨entries, hencode, hdecode⟩ := trip_node hC hregistered htyped hinit
      refine ⟨.dict entries :: es, ?_, ?_⟩
      · rw [List.mapM_cons, hencode, hencodes]
        rfl
      · rw [List.mapM_cons, hdecode, hdecodes]
        rfl

end

namespace PortClass

/-- The program, in which the barriers are nodes. -/
def nodeProgram : NodeClasses PortClass ℤ where
  toClasses := program
  typeName kind := if kind = barrier then "quail.barrier" else ""
  portRef := portRef

/-- The codec of barriers. -/
def codecs : Dict String (NodeCodec PortClass) := Dict.empty.set "quail.barrier" ⟨barrier⟩

/-- A graph of one barrier, that answers with the rows of one table. -/
def graph : Graph PortClass ℤ where
  nodes := [.object barrier [("node_id", .scalar (.str "move")), ("inputs", .tuple []), ("next_anchor", .scalar (.str "r")),
    ("aliases", .tuple [.scalar (.str "r")])]]
  root := .object portRef [("node_id", .scalar (.str "move")), ("port", .scalar (.str "rows:r"))]

lemma graph_nodes : ∀ node ∈ graph.nodes, NodeOf nodeProgram codecs node := by
  intro node hnode
  obtain rfl := List.mem_singleton.1 hnode
  refine .object ⟨List.mem_cons_self, ⟨_, List.mem_cons_of_mem _ List.mem_cons_self⟩, rfl⟩ ⟨rfl, fun name a v ha hv => ?_⟩ rfl
  simp only [nodeProgram, program, fields, List.mem_cons, List.not_mem_nil, or_false, Prod.mk.injEq] at ha hv
  obtain ⟨rfl, rfl⟩ | ⟨rfl, rfl⟩ | ⟨rfl, rfl⟩ | ⟨rfl, rfl⟩ := ha <;> simp at hv <;> subst hv
  · exact .str _
  · exact .tupleOf fun v hv => by cases hv
  · exact .str _
  · exact .tupleOf fun v hv => List.mem_singleton.1 hv ▸ .str _

lemma graph_root : HasType program graph.root (.cls portRef) := by
  refine .object rfl rfl (fun name a v ha hv => ?_) rfl
  simp only [program, fields, List.mem_cons, List.not_mem_nil, or_false, Prod.mk.injEq] at ha hv
  obtain ⟨rfl, rfl⟩ | ⟨rfl, rfl⟩ := ha <;> simp at hv <;> subst hv
  · exact .str _
  · exact .str _

end PortClass

end Quail.Codec
