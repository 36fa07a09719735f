import Quail.Lib.Dict
import Quail.Lib.Python

/-!
# Codec

`physical/codec.py`: a dataclass is encoded from its fields and decoded from its field annotations. Tuples become
lists, enumerations their values, and a dataclass a dictionary that carries its class under `"type"`. The classes of
the program, their fields and their modules are parameters.
-/

namespace Quail.Codec

variable {κ F : Type}

/-! ## Values and annotations -/

/-- A value that JSON has too. -/
inductive Scalar (F : Type) where
  | none
  | bool (b : Bool)
  | int (i : ℤ)
  | float (x : F)
  | str (s : String)

/-- A value of the program: `generic` is a numpy scalar, `enum` a member of an enumeration of strings, `object` a
dataclass with its fields, and `other` a value of any other type. -/
inductive Value (κ F : Type) where
  | scalar (s : Scalar F)
  | generic (s : Scalar F)
  | enum (name value : String)
  | tuple (items : List (Value κ F))
  | list (items : List (Value κ F))
  | dict (entries : List (String × Value κ F))
  | object (kind : κ) (fields : List (String × Value κ F))
  | other (name : String)

/-- JSON-ready data. -/
inductive Encoded (F : Type) where
  | scalar (s : Scalar F)
  | list (items : List (Encoded F))
  | dict (entries : List (String × Encoded F))

/-- A type annotation. `tuple` has no arguments, `tupleOf` is `tuple[item, ...]`, `dict` has keys that stay as they
are, and `other` is one that the codec cannot decode. -/
inductive Ann (κ : Type) where
  | any
  | none
  | bool
  | int
  | float
  | str
  | cls (kind : κ)
  | enum (name : String) (members : List String)
  | tuple
  | tupleOf (item : Ann κ)
  | tupleFixed (first : Ann κ) (rest : List (Ann κ))
  | list (item : Ann κ)
  | dict (item : Ann κ)
  | union (members : List (Ann κ))
  | other

/-- `member is type(None)` -/
def Ann.isNone : Ann κ → Bool
  | .none => true
  | _ => false

/-- The dataclass of an annotation, when it is one. -/
def Ann.class? : Ann κ → Option κ
  | .cls kind => some kind
  | _ => .none

/-- The members that `_decode_union` tries in turn. -/
def Ann.isPlain (a : Ann κ) : Bool := !a.isNone && a.class?.isNone

/-- The classes of the program: their modules and names, their fields with annotations, who is a subclass of whom,
what importing a module gives, what `__post_init__` makes of the fields, what `float` makes of an integer, and the
text of JSON-ready data that is not a string. -/
structure Classes (κ F : Type) where
  moduleName : κ → String
  name : κ → String
  fields : κ → List (String × Ann κ)
  subclass : κ → κ → Bool
  importModule : String → Except PyError (String → Option κ)
  postInit : κ → List (String × Value κ F) → Except PyError (List (String × Value κ F))
  toFloat : ℤ → Except PyError F
  text : Encoded F → String

/-! ## Encoding -/

/-- `TYPE_KEY` -/
def typeKey : String := "type"

/-- `_tag`: the class's module and qualified name. -/
def Classes.tag (C : Classes κ F) (kind : κ) : String := C.moduleName kind ++ "." ++ C.name kind

/-- `{TYPE_KEY: tag, **fields}` -/
def tagged (tag : String) (fields : List (String × Encoded F)) : List (String × Encoded F) :=
  fields.foldl (fun entries e => Dict.put e.1 e.2 entries) [(typeKey, .scalar (.str tag))]

mutual

/-- Encode a dataclass, tuple, enum, or scalar as JSON-ready data. -/
def encodeValue (C : Classes κ F) : Value κ F → Except PyError (Encoded F)
  | .object kind fields => do return .dict (tagged (C.tag kind) (← encodeFields C fields))
  | .enum _ value => .ok (.scalar (.str value))
  | .tuple items => do return .list (← encodeItems C items)
  | .list items => do return .list (← encodeItems C items)
  | .dict entries => do return .dict (← encodeFields C entries)
  | .generic s => .ok (.scalar s)
  | .scalar s => .ok (.scalar s)
  | .other name => .error (.type ("cannot encode a " ++ name ++ " value"))

/-- The items of a list, encoded. -/
def encodeItems (C : Classes κ F) : List (Value κ F) → Except PyError (List (Encoded F))
  | [] => .ok []
  | item :: items => do return (← encodeValue C item) :: (← encodeItems C items)

/-- The fields of a dataclass, encoded, without a class tag. -/
def encodeFields (C : Classes κ F) : List (String × Value κ F) → Except PyError (List (String × Encoded F))
  | [] => .ok []
  | (name, value) :: fields => do return (name, ← encodeValue C value) :: (← encodeFields C fields)

end

/-! ## Decoding -/

mutual

/-- JSON-ready data as a value of the program. -/
def raw : Encoded F → Value κ F
  | .scalar s => .scalar s
  | .list items => .list (rawItems items)
  | .dict entries => .dict (rawEntries entries)

/-- The items of a list, as they are. -/
def rawItems : List (Encoded F) → List (Value κ F)
  | [] => []
  | item :: items => raw item :: rawItems items

/-- The entries of a dictionary, as they are. -/
def rawEntries : List (String × Encoded F) → List (String × Value κ F)
  | [] => []
  | (key, value) :: entries => (key, raw value) :: rawEntries entries

end

mutual

/-- Lists become tuples, down to the first dictionary (`_decode_untyped`). -/
def decodeUntyped : Encoded F → Value κ F
  | .list items => .tuple (untypedItems items)
  | .scalar s => .scalar s
  | .dict entries => .dict (rawEntries entries)

/-- The items of a list. -/
def untypedItems : List (Encoded F) → List (Value κ F)
  | [] => []
  | item :: items => decodeUntyped item :: untypedItems items

end

/-- `text.rpartition(".")`, without the separator. -/
def rpartition (text : String) : String × String :=
  let reversed := text.toList.reverse
  match reversed.dropWhile (· ≠ '.') with
  | [] => ("", text)
  | _ :: before => (String.ofList before.reverse, String.ofList (reversed.takeWhile (· ≠ '.')).reverse)

/-- `str(tag)` -/
def tagText (C : Classes κ F) : Encoded F → String
  | .scalar (.str s) => s
  | tag => C.text tag

/-- `getattr(import_module(module), name, None)`, when it is a class. -/
def findClass (C : Classes κ F) (text : String) : Except PyError (Option κ) :=
  let (module_, name) := rpartition text
  if module_ = "" then .ok none
  else do return (← C.importModule module_) name

/-- The class that a tag names; an annotation of none is `object` (`_tagged_type`). -/
def taggedType (C : Classes κ F) (tag : Option (Encoded F)) (ann : Option κ) : Except PyError (Option κ) :=
  match tag with
  | none => .ok ann
  | some (.scalar .none) => .ok ann
  | some tag => do
    match ← findClass C (tagText C tag) with
    | none => .error (.value (tagText C tag ++ " is not a class"))
    | some kind =>
      if ann.all (C.subclass kind) then .ok (some kind)
      else .error (.value (tagText C tag ++ " is not a subclass of the annotation"))

/-- What decodes a value for an annotation. -/
abbrev Decoder (κ F : Type) := Ann κ → Except PyError (Value κ F)

/-- An encoded value, and what decodes its items or its entries. -/
structure Parts (κ F : Type) where
  value : Encoded F
  items : List (Decoder κ F)
  entries : List (String × Decoder κ F)

/-- A string has no parts. -/
def Parts.str (s : String) : Parts κ F := ⟨.scalar (.str s), [], []⟩

/-- The encoded entry of a key. -/
def Encoded.get? (key : String) : Encoded F → Option (Encoded F)
  | .dict entries => Dict.find key entries
  | _ => none

/-- The text of a list of names. -/
def namesText (names : List String) : String :=
  "[" ++ ", ".intercalate (names.map fun name => "'" ++ name ++ "'") ++ "]"

/-- The names, in order (`sorted`). -/
def sortedNames (names : List String) : List String := names.insertionSort (· ≤ ·)

/-- The argument for a field: the given one, or what its entry decodes to. -/
def argument (entries : List (String × Decoder κ F)) (given : List (String × Value κ F)) (field : String × Ann κ) :
    Except PyError (String × Value κ F) :=
  match Dict.find field.1 given with
  | some value => .ok (field.1, value)
  | none =>
    match Dict.find field.1 entries with
    | none => .error (.key field.1)
    | some decoder => do return (field.1, ← decoder field.2)

/-- `kind(**given, **fields)`, with every field of the class, and no other, decoded or given. -/
def construct (C : Classes κ F) (kind : κ) (entries : List (String × Decoder κ F)) (given : List (String × Value κ F)) :
    Except PyError (Value κ F) := do
  let expected := ((C.fields kind).map Prod.fst).filter (· ∉ given.map Prod.fst)
  let actual := (entries.map Prod.fst).filter (· ≠ typeKey)
  let missing := expected.filter (· ∉ actual)
  if missing ≠ [] then .error (.value (C.name kind ++ " is missing fields " ++ namesText (sortedNames missing)))
  else
    let unknown := actual.filter (· ∉ expected)
    if unknown ≠ [] then .error (.value (C.name kind ++ " has unknown fields " ++ namesText (sortedNames unknown)))
    else
      let arguments ← (C.fields kind).mapM (argument entries given)
      if given.any fun e => e.1 ∉ (C.fields kind).map Prod.fst then .error (.type "got an unexpected keyword argument")
      else return .object kind (← C.postInit kind arguments)

/-- Decode a dataclass from its encoded fields, every field present (`decode_fields`). -/
def decodeFields (C : Classes κ F) (ann : κ) (p : Parts κ F) (given : List (String × Value κ F)) :
    Except PyError (Value κ F) :=
  match p.value with
  | .dict _ => do
    match ← taggedType C (p.value.get? typeKey) (some ann) with
    | none => .error (.type "must be called with a dataclass type or instance")
    | some kind => construct C kind p.entries given
  | _ => .error (.value ("expected a " ++ C.name ann ++ " dict"))

/-- `except (ValueError, TypeError)` -/
def refuses : PyError → Bool
  | .value _ => true
  | .type _ => true
  | _ => false

/-- The dataclasses among the members of a union. -/
def unionClasses (members : List (Ann κ)) : List κ := members.filterMap Ann.class?

/-- The dataclass of a union that a dictionary's tag names. -/
def decodeTagged (C : Classes κ F) (members : List (Ann κ)) (p : Parts κ F) : Except PyError (Value κ F) := do
  let kind ← taggedType C (p.value.get? typeKey) none
  match kind.bind fun kind => (unionClasses members).find? (C.subclass kind) with
  | none => .error (.value "the tag is none of the members")
  | some base => decodeFields C base p []

mutual

/-- `decode_value`, when the parts of the value have their decoders. -/
def fit (C : Classes κ F) : Ann κ → Parts κ F → Except PyError (Value κ F)
  | .any, p => .ok (decodeUntyped p.value)
  | .union members, p =>
    match p.value with
    | .scalar .none => if members.any Ann.isNone then .ok (.scalar .none) else fitFirst C members p
    | .dict _ => if unionClasses members = [] then fitFirst C members p else decodeTagged C members p
    | _ => fitFirst C members p
  | .cls kind, p => decodeFields C kind p []
  | .enum name members, p =>
    match p.value with
    | .scalar (.str s) => if s ∈ members then .ok (.enum name s) else .error (.value ("not a valid " ++ name))
    | _ => .error (.value ("not a valid " ++ name))
  | .tuple, p =>
    match p.value with
    | .list _ => .ok (decodeUntyped p.value)
    | _ => .error (.value "expected a list")
  | .tupleOf item, p =>
    match p.value with
    | .list _ => do return .tuple (← p.items.mapM fun decoder => decoder item)
    | _ => .error (.value "expected a list")
  | .tupleFixed first rest, p =>
    match p.value with
    | .list _ =>
      if (first :: rest).length ≠ p.items.length then
        .error (.value ("expected " ++ toString (first :: rest).length ++ " items, got " ++ toString p.items.length))
      else do return .tuple (← ((first :: rest).zip p.items).mapM fun e => e.2 e.1)
    | _ => .error (.value "expected a list")
  | .list item, p =>
    match p.value with
    | .list _ => do return .list (← p.items.mapM fun decoder => decoder item)
    | .scalar (.str s) => do return .list (← s.toList.mapM fun c => fit C item (.str (String.singleton c)))
    | .dict entries => do return .list (← (entries.map Prod.fst).mapM fun key => fit C item (.str key))
    | _ => .error (.type "object is not iterable")
  | .dict item, p =>
    match p.value with
    | .dict _ => do return .dict (← p.entries.mapM fun e => do return (e.1, ← e.2 item))
    | _ => .error (.runtime "AttributeError")
  | .float, p =>
    match p.value with
    | .scalar (.int i) => do return .scalar (.float (← C.toFloat i))
    | .scalar (.float x) => .ok (.scalar (.float x))
    | _ => .error (.value "expected float")
  | .int, p =>
    match p.value with
    | .scalar (.int i) => .ok (.scalar (.int i))
    | .scalar (.bool b) => .ok (.scalar (.bool b))
    | _ => .error (.value "expected int")
  | .bool, p =>
    match p.value with
    | .scalar (.bool b) => .ok (.scalar (.bool b))
    | _ => .error (.value "expected bool")
  | .str, p =>
    match p.value with
    | .scalar (.str s) => .ok (.scalar (.str s))
    | _ => .error (.value "expected str")
  | .none, p =>
    match p.value with
    | .scalar .none => .ok (.scalar .none)
    | _ => .error (.value "expected NoneType")
  | .other, _ => .error (.type "cannot decode a value of the annotation")

/-- The first plain member of a union that takes the value. -/
def fitFirst (C : Classes κ F) : List (Ann κ) → Parts κ F → Except PyError (Value κ F)
  | [], _ => .error (.value "the value fits none of the members")
  | member :: members, p =>
    if member.isPlain then
      match fit C member p with
      | .ok value => .ok value
      | .error e => if refuses e then fitFirst C members p else .error e
    else fitFirst C members p

end

mutual

/-- Decode what `encodeValue` wrote, guided by a type annotation (`decode_value`). -/
def decodeValue (C : Classes κ F) : Encoded F → Decoder κ F
  | .scalar s => fun ann => fit C ann ⟨.scalar s, [], []⟩
  | .list items => fun ann => fit C ann ⟨.list items, decodeItems C items, []⟩
  | .dict entries => fun ann => fit C ann ⟨.dict entries, [], decodeEntries C entries⟩

/-- The decoders of a list's items. -/
def decodeItems (C : Classes κ F) : List (Encoded F) → List (Decoder κ F)
  | [] => []
  | item :: items => decodeValue C item :: decodeItems C items

/-- The decoders of a dictionary's entries. -/
def decodeEntries (C : Classes κ F) : List (String × Encoded F) → List (String × Decoder κ F)
  | [] => []
  | (key, value) :: entries => (key, decodeValue C value) :: decodeEntries C entries

end

end Quail.Codec
