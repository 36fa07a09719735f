import Quail.Lib.Fallible
import Quail.Physical.Codec

/-!
# The codec's round trip

A value of an annotation's type is decoded to itself from what it is encoded to, when the annotation is clear: no
member of a union takes what another member's values are encoded to. What is decoded is of the annotation's type, and
so are the classes, whose fields are all there.
-/

namespace Quail.Codec

variable {κ F : Type} {C : Classes κ F}

/-! ## Types -/

/-- A value of the type that an annotation names, as decoding gives it. -/
inductive HasType (C : Classes κ F) : Value κ F → Ann κ → Prop
  | any (e : Encoded F) : HasType C (decodeUntyped e) .any
  | none : HasType C (.scalar .none) .none
  | bool (b : Bool) : HasType C (.scalar (.bool b)) .bool
  | int (i : ℤ) : HasType C (.scalar (.int i)) .int
  | flag (b : Bool) : HasType C (.scalar (.bool b)) .int
  | float (x : F) : HasType C (.scalar (.float x)) .float
  | str (s : String) : HasType C (.scalar (.str s)) .str
  | enum {name : String} {members : List String} {s : String} : s ∈ members → HasType C (.enum name s) (.enum name members)
  | tuple (items : List (Encoded F)) : HasType C (decodeUntyped (.list items)) .tuple
  | tupleOf {items : List (Value κ F)} {a : Ann κ} : (∀ v ∈ items, HasType C v a) → HasType C (.tuple items) (.tupleOf a)
  | tupleFixed {items : List (Value κ F)} {first : Ann κ} {rest : List (Ann κ)} : items.length = (first :: rest).length →
    (∀ e ∈ items.zip (first :: rest), HasType C e.1 e.2) → HasType C (.tuple items) (.tupleFixed first rest)
  | list {items : List (Value κ F)} {a : Ann κ} : (∀ v ∈ items, HasType C v a) → HasType C (.list items) (.list a)
  | dict {entries : List (String × Value κ F)} {a : Ann κ} : (∀ e ∈ entries, HasType C e.2 a) →
    HasType C (.dict entries) (.dict a)
  | object {kind c : κ} {fields : List (String × Value κ F)} : C.subclass kind c →
    fields.map Prod.fst = (C.fields kind).map Prod.fst →
    (∀ name a v, (name, a) ∈ C.fields kind → (name, v) ∈ fields → HasType C v a) → C.postInit kind fields = .ok fields →
    HasType C (.object kind fields) (.cls c)
  | union {v : Value κ F} {m : Ann κ} {members : List (Ann κ)} : m ∈ members → HasType C v m → HasType C v (.union members)

/-! ## Clear annotations -/

/-- The kinds of JSON-ready data. -/
inductive Shape where
  | none
  | bool
  | int
  | float
  | str
  | list
  | dict
  deriving DecidableEq

/-- Every kind. -/
def Shape.all : List Shape := [.none, .bool, .int, .float, .str, .list, .dict]

@[simp] lemma Shape.mem_all (s : Shape) : s ∈ Shape.all := by cases s <;> decide

/-- The kind of JSON-ready data. -/
def Encoded.shape : Encoded F → Shape
  | .scalar .none => .none
  | .scalar (.bool _) => .bool
  | .scalar (.int _) => .int
  | .scalar (.float _) => .float
  | .scalar (.str _) => .str
  | .list _ => .list
  | .dict _ => .dict

mutual

/-- The kinds that an annotation does not refuse. -/
def takes : Ann κ → List Shape
  | .any => Shape.all
  | .none => [.none]
  | .bool => [.bool]
  | .int => [.int, .bool]
  | .float => [.float, .int]
  | .str => [.str]
  | .cls _ => [.dict]
  | .enum _ _ => [.str]
  | .tuple => [.list]
  | .tupleOf _ => [.list]
  | .tupleFixed _ _ => [.list]
  | .list _ => [.list, .str, .dict]
  | .dict _ => Shape.all
  | .union members => takesAny members
  | .other => []

/-- The kinds that some member of a union does not refuse. -/
def takesAny : List (Ann κ) → List Shape
  | [] => []
  | m :: members => takes m ++ takesAny members

end

lemma mem_takesAny {members : List (Ann κ)} {m : Ann κ} {shape : Shape} (hm : m ∈ members) (h : shape ∈ takes m) :
    shape ∈ takesAny members := by
  induction members with
  | nil => cases hm
  | cons m' members ih =>
    rw [takesAny, List.mem_append]
    cases hm with
    | head => exact .inl h
    | tail _ hm => exact .inr (ih hm)

mutual

/-- The kinds that the values of an annotation are encoded to. -/
def gives : Ann κ → List Shape
  | .any => Shape.all
  | .none => [.none]
  | .bool => [.bool]
  | .int => [.int, .bool]
  | .float => [.float]
  | .str => [.str]
  | .cls _ => [.dict]
  | .enum _ _ => [.str]
  | .tuple => [.list]
  | .tupleOf _ => [.list]
  | .tupleFixed _ _ => [.list]
  | .list _ => [.list]
  | .dict _ => [.dict]
  | .union members => givesAny members
  | .other => []

/-- The kinds that the values of some member of a union are encoded to. -/
def givesAny : List (Ann κ) → List Shape
  | [] => []
  | m :: members => gives m ++ givesAny members

end

/-- No plain member takes what a later one gives. -/
def apart : List (Ann κ) → Bool
  | [] => true
  | m :: members =>
    (!m.isPlain || members.all fun m' => !m'.isPlain || (gives m').all fun shape => shape ∉ takes m) && apart members

/-- A union's members are told apart, and none but its classes give dictionaries when it has classes. -/
def clearUnion (members : List (Ann κ)) : Bool :=
  apart members && ((unionClasses members).isEmpty || members.all fun m => !m.isPlain || .dict ∉ gives m)

mutual

/-- The unions in an annotation tell their members apart. -/
def clear : Ann κ → Bool
  | .tupleOf a => clear a
  | .tupleFixed first rest => clear first && clearAll rest
  | .list a => clear a
  | .dict a => clear a
  | .union members => clearUnion members && clearAll members
  | _ => true

/-- So do those in all of them. -/
def clearAll : List (Ann κ) → Bool
  | [] => true
  | a :: as => clear a && clearAll as

end

/-- What the codec needs of a program's classes: each is found in its module under its name, has no field twice and
none named as the tag, and its annotations are clear. -/
structure Classes.Regular (C : Classes κ F) : Prop where
  named : ∀ kind, C.moduleName kind ≠ ""
  plain : ∀ kind, '.' ∉ (C.name kind).toList
  found : ∀ kind, ∃ attributes, C.importModule (C.moduleName kind) = .ok attributes ∧ attributes (C.name kind) = some kind
  refl : ∀ kind, C.subclass kind kind
  distinct : ∀ kind, ((C.fields kind).map Prod.fst).Nodup
  untagged : ∀ kind, typeKey ∉ (C.fields kind).map Prod.fst
  clear : ∀ kind, ∀ field ∈ C.fields kind, clear field.2

/-! ## Parts -/

lemma encodeFields_eq {fields : List (String × Value κ F)} :
    encodeFields C fields = fields.mapM fun e => do return (e.1, ← encodeValue C e.2) := by
  induction fields with
  | nil => rfl
  | cons e fields ih =>
    obtain ⟨name, value⟩ := e
    rw [encodeFields, ih, List.mapM_cons]
    cases encodeValue C value with
    | error e => rfl
    | ok encoded => rfl

/-- JSON-ready data with the decoders of its parts. -/
def parts (C : Classes κ F) : Encoded F → Parts κ F
  | .scalar s => ⟨.scalar s, [], []⟩
  | .list items => ⟨.list items, items.map (decodeValue C), []⟩
  | .dict entries => ⟨.dict entries, [], entries.map fun e => (e.1, decodeValue C e.2)⟩

@[simp] lemma parts_value {e : Encoded F} : (parts C e).value = e := by cases e <;> rfl

lemma decodeItems_eq {items : List (Encoded F)} : decodeItems C items = items.map (decodeValue C) := by
  induction items with
  | nil => rfl
  | cons item items ih => rw [decodeItems, ih, List.map_cons]

lemma decodeEntries_eq {entries : List (String × Encoded F)} :
    decodeEntries C entries = entries.map fun e => (e.1, decodeValue C e.2) := by
  induction entries with
  | nil => rfl
  | cons e entries ih =>
    obtain ⟨key, value⟩ := e
    rw [decodeEntries, ih, List.map_cons]

/-- Decoding fits the parts. -/
lemma decodeValue_eq {e : Encoded F} {a : Ann κ} : decodeValue C e a = fit C a (parts C e) := by
  cases e with
  | scalar s => rw [decodeValue, parts]
  | list items => rw [decodeValue, parts, decodeItems_eq]
  | dict entries => rw [decodeValue, parts, decodeEntries_eq]

/-! ## Refusal -/

/-- Data of a kind that is taken was not refused. -/
lemma untaken {p : Parts κ F} {e : Encoded F} {taken : List Shape} (h : p.value.shape ∉ taken) (he : p.value = e)
    (hmem : e.shape ∈ taken) : False := h (he ▸ hmem)

mutual

/-- An annotation refuses data of a kind that it does not take. -/
lemma fit_refuses : ∀ (a : Ann κ) (p : Parts κ F), p.value.shape ∉ takes a → ∃ e, fit C a p = .error e ∧ refuses e = true
  | .any, p, h => absurd (Shape.mem_all _) h
  | .dict _, p, h => absurd (Shape.mem_all _) h
  | .other, p, h => ⟨_, rfl, rfl⟩
  | .none, p, h => by
    rw [fit]
    split
    · rename_i he
      exact (untaken h he (List.mem_singleton_self _)).elim
    · exact ⟨_, rfl, rfl⟩
  | .bool, p, h => by
    rw [fit]
    split
    · rename_i he
      exact (untaken h he (List.mem_singleton_self _)).elim
    · exact ⟨_, rfl, rfl⟩
  | .int, p, h => by
    rw [fit]
    split
    · rename_i he
      exact (untaken h he List.mem_cons_self).elim
    · rename_i he
      exact (untaken h he (List.mem_cons_of_mem _ List.mem_cons_self)).elim
    · exact ⟨_, rfl, rfl⟩
  | .float, p, h => by
    rw [fit]
    split
    · rename_i he
      exact (untaken h he (List.mem_cons_of_mem _ List.mem_cons_self)).elim
    · rename_i he
      exact (untaken h he List.mem_cons_self).elim
    · exact ⟨_, rfl, rfl⟩
  | .str, p, h => by
    rw [fit]
    split
    · rename_i he
      exact (untaken h he (List.mem_singleton_self _)).elim
    · exact ⟨_, rfl, rfl⟩
  | .enum _ _, p, h => by
    rw [fit]
    split
    · rename_i he
      exact (untaken h he (List.mem_singleton_self _)).elim
    · exact ⟨_, rfl, rfl⟩
  | .cls _, p, h => by
    rw [fit, decodeFields]
    split
    · rename_i he
      exact (untaken h he (List.mem_singleton_self _)).elim
    · exact ⟨_, rfl, rfl⟩
  | .tuple, p, h => by
    rw [fit]
    split
    · rename_i he
      exact (untaken h he (List.mem_singleton_self _)).elim
    · exact ⟨_, rfl, rfl⟩
  | .tupleOf _, p, h => by
    rw [fit]
    split
    · rename_i he
      exact (untaken h he (List.mem_singleton_self _)).elim
    · exact ⟨_, rfl, rfl⟩
  | .tupleFixed _ _, p, h => by
    rw [fit]
    split
    · rename_i he
      exact (untaken h he (List.mem_singleton_self _)).elim
    · exact ⟨_, rfl, rfl⟩
  | .list _, p, h => by
    rw [fit]
    split
    · rename_i he
      exact (untaken h he List.mem_cons_self).elim
    · rename_i he
      exact (untaken h he (List.mem_cons_of_mem _ List.mem_cons_self)).elim
    · rename_i he
      exact (untaken h he (List.mem_cons_of_mem _ (List.mem_cons_of_mem _ List.mem_cons_self))).elim
    · exact ⟨_, rfl, rfl⟩
  | .union members, p, h => by
    have hrest := fitFirst_refuses members p h
    rw [fit]
    split
    · rename_i he
      split
      · rename_i hnone
        obtain ⟨m, hm, hisNone⟩ := List.any_eq_true.1 hnone
        refine (untaken h he (mem_takesAny hm ?_)).elim
        cases m <;> cases hisNone
        exact List.mem_singleton_self _
      · exact hrest
    · rename_i he
      split
      · exact hrest
      · rename_i hclasses
        obtain ⟨c, hc⟩ := List.exists_mem_of_ne_nil _ hclasses
        obtain ⟨m, hm, hclass⟩ := List.mem_filterMap.1 hc
        refine (untaken h he (mem_takesAny hm ?_)).elim
        cases m <;> cases hclass
        exact List.mem_singleton_self _
    · exact hrest

/-- So do the plain members of a union. -/
lemma fitFirst_refuses : ∀ (members : List (Ann κ)) (p : Parts κ F), p.value.shape ∉ takesAny members →
    ∃ e, fitFirst C members p = .error e ∧ refuses e = true
  | [], _, _ => ⟨_, rfl, rfl⟩
  | m :: members, p, h => by
    rw [takesAny, List.mem_append, not_or] at h
    have hrest := fitFirst_refuses members p h.2
    rw [fitFirst]
    split
    · obtain ⟨e, he, hrefuses⟩ := fit_refuses m p h.1
      simp only [he, hrefuses, if_true]
      exact hrest
    · exact hrest

end

/-! ## Encoding -/

mutual

/-- JSON-ready data is encoded to itself. -/
lemma encode_raw : ∀ e : Encoded F, encodeValue C (raw e) = .ok e
  | .scalar _ => rfl
  | .list items => by
    rw [raw, encodeValue, encode_rawItems items]
    rfl
  | .dict entries => by
    rw [raw, encodeValue, encode_rawEntries entries]
    rfl

lemma encode_rawItems : ∀ items : List (Encoded F), encodeItems C (rawItems items) = .ok items
  | [] => rfl
  | item :: items => by
    rw [rawItems, encodeItems, encode_raw item, encode_rawItems items]
    rfl

lemma encode_rawEntries : ∀ entries : List (String × Encoded F), encodeFields C (rawEntries entries) = .ok entries
  | [] => rfl
  | (key, value) :: entries => by
    rw [rawEntries, encodeFields, encode_raw value, encode_rawEntries entries]
    rfl

end

mutual

/-- What was decoded without an annotation is encoded to what it was decoded from. -/
lemma encode_untyped : ∀ e : Encoded F, encodeValue C (decodeUntyped e) = .ok e
  | .scalar _ => rfl
  | .list items => by
    rw [decodeUntyped, encodeValue, encode_untypedItems items]
    rfl
  | .dict entries => by
    rw [decodeUntyped, encodeValue, encode_rawEntries entries]
    rfl

lemma encode_untypedItems : ∀ items : List (Encoded F), encodeItems C (untypedItems items) = .ok items
  | [] => rfl
  | item :: items => by
    rw [untypedItems, encodeItems, encode_untyped item, encode_untypedItems items]
    rfl

end

/-- Items that round trip do so in a list. -/
lemma encodeItems_ok {items : List (Value κ F)} {a : Ann κ}
    (h : ∀ v ∈ items, ∃ e, encodeValue C v = .ok e ∧ decodeValue C e a = .ok v) :
    ∃ es, encodeItems C items = .ok es ∧ (es.map (decodeValue C)).mapM (fun decoder => decoder a) = .ok items := by
  induction items with
  | nil => exact ⟨[], rfl, rfl⟩
  | cons v items ih =>
    obtain ⟨⟨e, hencode, hdecode⟩, h⟩ := List.forall_mem_cons.1 h
    obtain ⟨es, hencodes, hdecodes⟩ := ih h
    refine ⟨e :: es, ?_, ?_⟩
    · rw [encodeItems, hencode, hencodes]
      rfl
    · rw [List.map_cons, List.mapM_cons, hdecode, hdecodes]
      rfl

/-- So do items of different types. -/
lemma encodeZip_ok {items : List (Value κ F)} : ∀ {as : List (Ann κ)}, items.length = as.length →
    (∀ e ∈ items.zip as, ∃ encoded, encodeValue C e.1 = .ok encoded ∧ decodeValue C encoded e.2 = .ok e.1) →
    ∃ es, encodeItems C items = .ok es ∧ es.length = as.length ∧
      (as.zip (es.map (decodeValue C))).mapM (fun e => e.2 e.1) = .ok items := by
  induction items with
  | nil =>
    intro as hlength _
    rw [List.length_eq_zero_iff.1 hlength.symm]
    exact ⟨[], rfl, rfl, rfl⟩
  | cons v items ih =>
    intro as hlength h
    cases as with
    | nil => cases hlength
    | cons a as =>
      obtain ⟨⟨e, hencode, hdecode⟩, h⟩ := List.forall_mem_cons.1 (List.zip_cons_cons ▸ h)
      obtain ⟨es, hencodes, hcount, hdecodes⟩ := ih (Nat.succ.inj hlength) h
      refine ⟨e :: es, ?_, congrArg Nat.succ hcount, ?_⟩
      · rw [encodeItems, hencode, hencodes]
        rfl
      · rw [List.map_cons, List.zip_cons_cons, List.mapM_cons]
        show (decodeValue C e a >>= _) = _
        rw [hdecode, ok_bind, hdecodes]
        rfl

/-- The entries of a dictionary keep their keys. -/
lemma encodeFields_ok {fields : List (String × Value κ F)} {R : String → Value κ F → Encoded F → Prop}
    (h : ∀ f ∈ fields, ∃ e, encodeValue C f.2 = .ok e ∧ R f.1 f.2 e) :
    ∃ es, encodeFields C fields = .ok es ∧
      List.Forall₂ (fun (f : String × Value κ F) (e : String × Encoded F) => e.1 = f.1 ∧ R f.1 f.2 e.2) fields es := by
  rw [encodeFields_eq]
  refine mapM_ok fun f hf => ?_
  obtain ⟨e, hencode, hR⟩ := h f hf
  exact ⟨(f.1, e), by rw [hencode]; rfl, rfl, hR⟩

lemma encodeFields_keys {fields : List (String × Value κ F)} {es : List (String × Encoded F)}
    (h : encodeFields C fields = .ok es) : es.map Prod.fst = fields.map Prod.fst := by
  induction fields generalizing es with
  | nil =>
    obtain rfl := Except.ok.inj h
    rfl
  | cons f fields ih =>
    obtain ⟨name, value⟩ := f
    rw [encodeFields] at h
    obtain ⟨e, -, h⟩ := bind_eq_ok h
    obtain ⟨rest, hrest, h⟩ := bind_eq_ok h
    obtain rfl := Except.ok.inj h
    rw [List.map_cons, List.map_cons, ih hrest]

/-- The tag comes before the fields when none is named as it is. -/
lemma tagged_eq {tag : String} {es : List (String × Encoded F)} (hnodup : (es.map Prod.fst).Nodup)
    (hkey : typeKey ∉ es.map Prod.fst) : tagged tag es = (typeKey, .scalar (.str tag)) :: es := by
  suffices hrun : ∀ (es past : List (String × Encoded F)), (es.map Prod.fst).Nodup →
      (∀ name ∈ es.map Prod.fst, name ∉ past.map Prod.fst) →
      es.foldl (fun entries e => Dict.put e.1 e.2 entries) past = past ++ es from
    hrun es [(typeKey, .scalar (.str tag))] hnodup fun name hname hmem =>
      hkey ((List.mem_singleton.1 hmem : name = typeKey) ▸ hname)
  intro es
  induction es with
  | nil => exact fun past _ _ => (List.append_nil past).symm
  | cons e es ih =>
    intro past hnodup hpast
    obtain ⟨hfirst, hnodup⟩ := List.nodup_cons.1 hnodup
    rw [List.foldl_cons, Dict.put_new (hpast e.1 List.mem_cons_self), ih _ hnodup, List.append_assoc]
    · rfl
    · intro name hname hmem
      rw [List.map_append, List.mem_append] at hmem
      obtain hmem | hmem := hmem
      · exact hpast name (List.mem_cons_of_mem _ hname) hmem
      · exact hfirst (List.mem_singleton.1 hmem ▸ hname)

/-! ## Tags -/

/-- A module and a name without a dot are read back from the tag. -/
lemma rpartition_tag {module_ name : String} (h : '.' ∉ name.toList) : rpartition (module_ ++ "." ++ name) = (module_, name) := by
  have hpass : ∀ c ∈ name.toList.reverse, decide (c ≠ '.') = true := fun c hc =>
    decide_eq_true fun heq => h (heq ▸ List.mem_reverse.1 hc)
  have hreversed : (module_ ++ "." ++ name).toList.reverse = name.toList.reverse ++ '.' :: module_.toList.reverse := by
    rw [String.toList_append, String.toList_append, List.reverse_append, List.reverse_append]
    rfl
  have hdrop : (name.toList.reverse ++ '.' :: module_.toList.reverse).dropWhile (· ≠ '.') = '.' :: module_.toList.reverse := by
    rw [List.dropWhile_append_of_pos hpass]
    rfl
  have htake : (name.toList.reverse ++ '.' :: module_.toList.reverse).takeWhile (· ≠ '.') = name.toList.reverse := by
    rw [List.takeWhile_append_of_pos hpass]
    exact List.append_nil _
  rw [rpartition]
  simp only [hreversed, hdrop, htake, List.reverse_reverse, String.ofList_toList]

/-- A class's tag names the class. -/
lemma taggedType_tag (hC : C.Regular) {kind : κ} {ann : Option κ} (h : ann.all (C.subclass kind) = true) :
    taggedType C (some (.scalar (.str (C.tag kind)))) ann = .ok (some kind) := by
  obtain ⟨attributes, himport, hfound⟩ := hC.found kind
  have hclass : findClass C (C.tag kind) = .ok (some kind) := by
    rw [findClass, Classes.tag, rpartition_tag (hC.plain kind)]
    dsimp only
    rw [if_neg (hC.named kind), himport, ok_bind, hfound]
    rfl
  rw [taggedType, tagText, hclass, ok_bind]
  · exact if_pos h
  · exact fun heq => by cases heq

/-! ## Objects -/

/-- A loop over a class's fields that gives each its value gives the fields. -/
lemma mapM_fields {g : String × Ann κ → Except PyError (String × Value κ F)} {annotations : List (String × Ann κ)}
    {fields : List (String × Value κ F)} (hnames : fields.map Prod.fst = annotations.map Prod.fst)
    (h : ∀ name a v, (name, a) ∈ annotations → (name, v) ∈ fields → g (name, a) = .ok (name, v)) :
    annotations.mapM g = .ok fields := by
  induction annotations generalizing fields with
  | nil =>
    rw [List.map_eq_nil_iff.1 hnames]
    rfl
  | cons field annotations ih =>
    cases fields with
    | nil => cases hnames
    | cons f fields =>
      obtain ⟨name, a⟩ := field
      obtain ⟨name', v⟩ := f
      obtain ⟨hname, hrestNames⟩ := List.cons.inj hnames
      obtain rfl : name' = name := hname
      have hfirst := h name' a v List.mem_cons_self List.mem_cons_self
      have hrest := ih hrestNames fun name a v ha hv => h name a v (List.mem_cons_of_mem _ ha) (List.mem_cons_of_mem _ hv)
      rw [List.mapM_cons, hfirst, hrest]
      rfl

/-- A class is constructed from entries for the fields that are not given, and no others. -/
lemma construct_ok {kind : κ} {entries : List (String × Decoder κ F)} {given fields : List (String × Value κ F)}
    (hentries : ∀ name, name ≠ typeKey → (name ∈ entries.map Prod.fst ↔
      name ∈ (C.fields kind).map Prod.fst ∧ name ∉ given.map Prod.fst))
    (huntagged : typeKey ∉ (C.fields kind).map Prod.fst) (hgiven : ∀ e ∈ given, e.1 ∈ (C.fields kind).map Prod.fst)
    (hnames : fields.map Prod.fst = (C.fields kind).map Prod.fst)
    (hgivens : ∀ name v, (name, v) ∈ fields → Dict.find name given = none ∨ Dict.find name given = some v)
    (hdecode : ∀ name a v, (name, a) ∈ C.fields kind → (name, v) ∈ fields → Dict.find name given = none →
      ∃ decoder, Dict.find name entries = some decoder ∧ decoder a = .ok v) (hinit : C.postInit kind fields = .ok fields) :
    construct C kind entries given = .ok (.object kind fields) := by
  have hmissing : (((C.fields kind).map Prod.fst).filter (· ∉ given.map Prod.fst)).filter
      (· ∉ (entries.map Prod.fst).filter (· ≠ typeKey)) = [] := by
    refine List.filter_eq_nil_iff.2 fun name hname => ?_
    rw [List.mem_filter, decide_eq_true_eq] at hname
    have hkey : name ≠ typeKey := fun h => huntagged (h ▸ hname.1)
    rw [decide_eq_true_eq, not_not, List.mem_filter, decide_eq_true_eq]
    exact ⟨(hentries name hkey).2 hname, hkey⟩
  have hunknown : ((entries.map Prod.fst).filter (· ≠ typeKey)).filter
      (· ∉ ((C.fields kind).map Prod.fst).filter (· ∉ given.map Prod.fst)) = [] := by
    refine List.filter_eq_nil_iff.2 fun name hname => ?_
    rw [List.mem_filter, decide_eq_true_eq] at hname
    rw [decide_eq_true_eq, not_not, List.mem_filter, decide_eq_true_eq]
    exact (hentries name hname.2).1 hname.1
  have harguments : (C.fields kind).mapM (argument entries given) = .ok fields := by
    refine mapM_fields hnames fun name a v ha hv => ?_
    obtain hnone | hsome := hgivens name v hv
    · obtain ⟨decoder, hfind, hrun⟩ := hdecode name a v ha hv hnone
      simp only [argument, hnone, hfind, hrun, ok_bind]
      rfl
    · simp only [argument, hsome]
  have hexpected : (given.any fun e => e.1 ∉ (C.fields kind).map Prod.fst) = false :=
    List.any_eq_false.2 fun e he => by simpa using hgiven e he
  rw [construct]
  simp only [hmissing, hunknown, ne_eq, not_true_eq_false, if_false]
  rw [harguments]
  simp only [ok_bind, hexpected, Bool.false_eq_true, if_false, hinit]
  rfl

/-- The class of a tag is constructed whatever annotation it is a subclass of. -/
lemma decodeFields_tag (hC : C.Regular) {kind c : κ} {es : List (String × Encoded F)} (h : C.subclass kind c = true)
    {given : List (String × Value κ F)} :
    decodeFields C c (parts C (.dict ((typeKey, .scalar (.str (C.tag kind))) :: es))) given =
      construct C kind ((typeKey, decodeValue C (.scalar (.str (C.tag kind)))) ::
        es.map fun e => (e.1, decodeValue C e.2)) given := by
  have htag : taggedType C (some (.scalar (.str (C.tag kind)))) (some c) = .ok (some kind) := taggedType_tag hC h
  rw [decodeFields]
  show (taggedType C (some (.scalar (.str (C.tag kind)))) (some c) >>= _) = _
  rw [htag]
  rfl

/-- An object is encoded to its tag and its fields. -/
lemma encode_object (hC : C.Regular) {kind : κ} {fields : List (String × Value κ F)} {es : List (String × Encoded F)}
    (hnames : fields.map Prod.fst = (C.fields kind).map Prod.fst) (hes : encodeFields C fields = .ok es) :
    encodeValue C (.object kind fields) = .ok (.dict ((typeKey, .scalar (.str (C.tag kind))) :: es)) := by
  have hkeys := (encodeFields_keys hes).trans hnames
  rw [encodeValue, hes, ← tagged_eq (hkeys ▸ hC.distinct kind) (hkeys ▸ hC.untagged kind)]
  rfl

/-! ## Unions -/

/-- The first plain member that takes the value is the one that gives it. -/
lemma fitFirst_ok {members : List (Ann κ)} {m : Ann κ} {p : Parts κ F} {v : Value κ F} (hm : m ∈ members)
    (hplain : m.isPlain = true) (hfit : fit C m p = .ok v) (hshape : p.value.shape ∈ gives m) (hapart : apart members = true) :
    fitFirst C members p = .ok v := by
  induction members with
  | nil => cases hm
  | cons m' members ih =>
    rw [apart, Bool.and_eq_true] at hapart
    rw [fitFirst]
    cases hm with
    | head =>
      rw [if_pos hplain, hfit]
    | tail _ hm =>
      have hrest := ih hm hapart.2
      cases hplain' : m'.isPlain with
      | false => exact hrest
      | true =>
        have hsome := hapart.1
        rw [hplain', Bool.not_true, Bool.false_or, List.all_eq_true] at hsome
        have hthis := hsome m hm
        rw [hplain, Bool.not_true, Bool.false_or, List.all_eq_true] at hthis
        obtain ⟨e, he, hrefuses⟩ := @fit_refuses κ F C m' p (of_decide_eq_true (hthis _ hshape))
        simp only [he, hrefuses, if_true]
        exact hrest

lemma mem_givesAny {members : List (Ann κ)} {m : Ann κ} {shape : Shape} (hm : m ∈ members) (h : shape ∈ gives m) :
    shape ∈ givesAny members := by
  induction members with
  | nil => cases hm
  | cons m' members ih =>
    rw [givesAny, List.mem_append]
    cases hm with
    | head => exact .inl h
    | tail _ hm => exact .inr (ih hm)

lemma clear_of_mem {members : List (Ann κ)} {m : Ann κ} (hm : m ∈ members) (h : clearAll members = true) :
    clear m = true := by
  induction members with
  | nil => cases hm
  | cons m' members ih =>
    rw [clearAll, Bool.and_eq_true] at h
    cases hm with
    | head => exact h.1
    | tail _ hm => exact ih hm h.2

/-- Only `None` is encoded to null. -/
lemma HasType.eq_none {v : Value κ F} {a : Ann κ} (h : HasType C v a) (he : encodeValue C v = .ok (.scalar .none)) :
    v = .scalar .none := by
  induction h with
  | any e =>
    rw [encode_untyped] at he
    rw [Except.ok.inj he]
    rfl
  | none => rfl
  | tuple items =>
    rw [encode_untyped] at he
    cases he
  | tupleOf _ =>
    obtain ⟨_, -, he⟩ := bind_eq_ok he
    cases he
  | tupleFixed _ _ =>
    obtain ⟨_, -, he⟩ := bind_eq_ok he
    cases he
  | list _ =>
    obtain ⟨_, -, he⟩ := bind_eq_ok he
    cases he
  | dict _ =>
    obtain ⟨_, -, he⟩ := bind_eq_ok he
    cases he
  | object _ _ _ _ =>
    obtain ⟨_, -, he⟩ := bind_eq_ok he
    cases he
  | union _ _ ih => exact ih he
  | _ => cases he

/-! ## Round trip -/

/-- A value and what it is encoded to, for an annotation. -/
structure Trip (C : Classes κ F) (v : Value κ F) (a : Ann κ) (e : Encoded F) : Prop where
  encode : encodeValue C v = .ok e
  shape : e.shape ∈ gives a
  decode : decodeValue C e a = .ok v

/-- The fields of an object that is of a class round trip. -/
lemma trip_object (hC : C.Regular) {kind c : κ} {fields : List (String × Value κ F)} (hsub : C.subclass kind c = true)
    (hnames : fields.map Prod.fst = (C.fields kind).map Prod.fst)
    (h : ∀ name a v, (name, a) ∈ C.fields kind → (name, v) ∈ fields → ∃ e, Trip C v a e)
    (hinit : C.postInit kind fields = .ok fields) : ∃ e, Trip C (.object kind fields) (.cls c) e := by
  have hfields : ∀ f ∈ fields, ∃ e, encodeValue C f.2 = .ok e ∧
      ∀ a, (f.1, a) ∈ C.fields kind → decodeValue C e a = .ok f.2 := by
    intro f hf
    have hname : f.1 ∈ (C.fields kind).map Prod.fst := hnames ▸ List.mem_map_of_mem hf
    obtain ⟨field, hfield, hname⟩ := List.mem_map.1 hname
    obtain ⟨name, a⟩ := field
    obtain rfl : name = f.1 := hname
    obtain ⟨e, htrip⟩ := h f.1 a f.2 hfield hf
    refine ⟨e, htrip.encode, fun b hb => ?_⟩
    obtain rfl : a = b := by
      have ha := Dict.find_of_mem (hC.distinct kind) hfield
      rw [Dict.find_of_mem (hC.distinct kind) hb] at ha
      exact (Option.some.inj ha).symm
    exact htrip.decode
  obtain ⟨es, hes, hforall⟩ := encodeFields_ok (R := fun name v e => ∀ a, (name, a) ∈ C.fields kind →
    decodeValue C e a = .ok v) hfields
  have hkeys : es.map Prod.fst = (C.fields kind).map Prod.fst := (encodeFields_keys hes).trans hnames
  refine ⟨_, encode_object hC hnames hes, List.mem_singleton_self _, ?_⟩
  rw [decodeValue_eq, fit, decodeFields_tag hC hsub]
  refine construct_ok (fun name hname => ?_) (hC.untagged kind) (fun e he => (by cases he)) hnames (fun _ _ _ => .inl rfl)
    (fun name a v ha hv _ => ?_) hinit
  · rw [List.map_cons, List.mem_cons, List.map_map, ← hkeys]
    simp [hname, Function.comp_def]
  · obtain ⟨e, he, hname, hdecode⟩ := forall₂_exists_right hforall hv
    refine ⟨decodeValue C e.2, ?_, hdecode a ha⟩
    have hkey : typeKey ≠ name := fun heq => hC.untagged kind (heq ▸ List.mem_map_of_mem ha)
    rw [Dict.find, if_neg hkey]
    refine Dict.find_of_mem ?_ (List.mem_map.2 ⟨e, he, by rw [hname]⟩)
    rw [List.map_map]
    exact hkeys ▸ hC.distinct kind

/-- A value of a union's member round trips in the union. -/
lemma trip_union (hC : C.Regular) {members : List (Ann κ)} {m : Ann κ} {v : Value κ F} {e : Encoded F} (hm : m ∈ members)
    (htype : HasType C v m) (hclear : clearUnion members = true) (h : Trip C v m e) : Trip C v (.union members) e := by
  rw [clearUnion, Bool.and_eq_true] at hclear
  refine ⟨h.encode, mem_givesAny hm h.shape, ?_⟩
  have hfit : fit C m (parts C e) = .ok v := decodeValue_eq ▸ h.decode
  rw [decodeValue_eq, fit, parts_value]
  cases hclass : m.class? with
  | some c =>
    obtain rfl : m = .cls c := by
      cases m <;> cases hclass
      rfl
    cases htype with
    | @object kind _ fields hsub hnames hfields hinit =>
      -- a dictionary whose tag names a class of the union
      obtain ⟨es, hes, -⟩ := bind_eq_ok h.encode
      obtain rfl := Except.ok.inj (h.encode.symm.trans (encode_object hC hnames hes))
      have hc : c ∈ unionClasses members := List.mem_filterMap.2 ⟨.cls c, hm, rfl⟩
      have hbase : ∃ base, (unionClasses members).find? (C.subclass kind) = some base :=
        Option.isSome_iff_exists.1 (List.find?_isSome.2 ⟨c, hc, hsub⟩)
      obtain ⟨base, hbase⟩ := hbase
      have htag : taggedType C (some (.scalar (.str (C.tag kind)))) none = .ok (some kind) := taggedType_tag hC rfl
      rw [fit, decodeFields_tag hC hsub] at hfit
      simp only [if_neg (List.ne_nil_of_mem hc)]
      rw [decodeTagged, parts_value]
      show (taggedType C (some (.scalar (.str (C.tag kind)))) none >>= _) = _
      rw [htag, ok_bind]
      simp only [Option.bind_some, hbase]
      rw [decodeFields_tag hC (List.find?_some hbase)]
      exact hfit
  | none =>
    cases hnone : m.isNone with
    | true =>
      obtain rfl : m = .none := by
        cases m <;> cases hnone
        rfl
      cases htype
      obtain rfl := Except.ok.inj h.encode
      exact if_pos (List.any_eq_true.2 ⟨_, hm, hnone⟩)
    | false =>
      have hplain : m.isPlain = true := by rw [Ann.isPlain, hclass, hnone]; rfl
      have hfirst := fitFirst_ok hm hplain hfit (by rw [parts_value]; exact h.shape) hclear.1
      split
      · split
        · rw [htype.eq_none h.encode]
        · exact hfirst
      · rename_i entries
        split
        · exact hfirst
        · rename_i hclasses
          have hdict := hclear.2
          rw [Bool.or_eq_true, List.isEmpty_iff, List.all_eq_true] at hdict
          have hthis := hdict.resolve_left hclasses m hm
          rw [hplain, Bool.not_true, Bool.false_or] at hthis
          exact absurd h.shape (of_decide_eq_true hthis)
      · exact hfirst

/-- A value of an annotation's type is encoded, and is decoded to itself from that. -/
theorem exists_trip (hC : C.Regular) {v : Value κ F} {a : Ann κ} (h : HasType C v a) (ha : clear a = true) :
    ∃ e, Trip C v a e := by
  induction h with
  | any e => exact ⟨e, encode_untyped e, Shape.mem_all _, by rw [decodeValue_eq, fit, parts_value]⟩
  | none => exact ⟨_, rfl, List.mem_singleton_self _, rfl⟩
  | bool b => exact ⟨_, rfl, List.mem_singleton_self _, rfl⟩
  | int i => exact ⟨_, rfl, List.mem_cons_self, rfl⟩
  | flag b => exact ⟨_, rfl, List.mem_cons_of_mem _ List.mem_cons_self, rfl⟩
  | float x => exact ⟨_, rfl, List.mem_singleton_self _, rfl⟩
  | str s => exact ⟨_, rfl, List.mem_singleton_self _, rfl⟩
  | enum hs =>
    refine ⟨_, rfl, List.mem_singleton_self _, ?_⟩
    rw [decodeValue_eq, fit]
    exact if_pos hs
  | tuple items => exact ⟨.list items, encode_untyped _, List.mem_singleton_self _, rfl⟩
  | tupleOf _ ih =>
    obtain ⟨es, hencode, hdecode⟩ := encodeItems_ok fun v hv => by
      obtain ⟨e, htrip⟩ := ih v hv ha
      exact ⟨e, htrip.encode, htrip.decode⟩
    refine ⟨.list es, by rw [encodeValue, hencode]; rfl, List.mem_singleton_self _, ?_⟩
    rw [decodeValue_eq, fit]
    simp only [parts, hdecode, ok_bind]
    rfl
  | tupleFixed hlength _ ih =>
    rw [clear, Bool.and_eq_true] at ha
    obtain ⟨es, hencode, hcount, hdecode⟩ := encodeZip_ok hlength fun e he => by
      have hclear : clear e.2 = true := by
        obtain hfirst | hrest := List.mem_cons.1 (List.of_mem_zip he).2
        · exact hfirst ▸ ha.1
        · exact clear_of_mem hrest ha.2
      obtain ⟨encoded, htrip⟩ := ih e he hclear
      exact ⟨encoded, htrip.encode, htrip.decode⟩
    refine ⟨.list es, by rw [encodeValue, hencode]; rfl, List.mem_singleton_self _, ?_⟩
    rw [decodeValue_eq, fit]
    simp only [parts, List.length_map, hcount, ne_eq, not_true_eq_false, if_false, hdecode, ok_bind]
    rfl
  | list _ ih =>
    obtain ⟨es, hencode, hdecode⟩ := encodeItems_ok fun v hv => by
      obtain ⟨e, htrip⟩ := ih v hv ha
      exact ⟨e, htrip.encode, htrip.decode⟩
    refine ⟨.list es, by rw [encodeValue, hencode]; rfl, List.mem_singleton_self _, ?_⟩
    rw [decodeValue_eq, fit]
    simp only [parts, hdecode, ok_bind]
    rfl
  | @dict entries a _ ih =>
    obtain ⟨es, hencode, hforall⟩ := encodeFields_ok (R := fun _ v e => decodeValue C e a = .ok v) fun f hf => by
      obtain ⟨e, htrip⟩ := ih f hf ha
      exact ⟨e, htrip.encode, htrip.decode⟩
    refine ⟨.dict es, by rw [encodeValue, hencode]; rfl, List.mem_singleton_self _, ?_⟩
    have hdecode : (es.map fun e => (e.1, decodeValue C e.2)).mapM
        (fun e => do return (e.1, ← e.2 a) : String × Decoder κ F → Except PyError (String × Value κ F)) = .ok entries := by
      clear ih hencode
      rename_i htype
      clear htype
      induction hforall with
      | nil => rfl
      | cons h _ ih =>
        rw [List.map_cons, List.mapM_cons, ih]
        simp only [h.1, h.2, ok_bind]
        rfl
    rw [decodeValue_eq, fit]
    simp only [parts, hdecode, ok_bind]
    rfl
  | object hsub hnames _ hinit ih =>
    refine trip_object hC hsub hnames (fun name a v hfield hv => ?_) hinit
    exact ih name a v hfield hv (hC.clear _ _ hfield)
  | union hm htype ih =>
    rw [clear, Bool.and_eq_true] at ha
    obtain ⟨e, htrip⟩ := ih (clear_of_mem hm ha.2)
    exact ⟨e, trip_union hC hm htype ha.1 htrip⟩

/-- `PortRef`, `InputPort`, `AnswerOutput` and `OutputPort` of `physical/base.py`, and `Barrier` of
`physical/nodes/join.py`. -/
inductive PortClass where
  | portRef
  | inputPort
  | answerOutput
  | outputPort
  | barrier
  deriving DecidableEq

namespace PortClass

/-- The members of `ValueType`. -/
def valueTypes : List String :=
  ["filter_answers", "join_answers", "label_answers", "extract_answers", "pairs", "rows", "any"]

/-- The fields of each class. -/
def fields : PortClass → List (String × Ann PortClass)
  | portRef => [("node_id", .str), ("port", .str)]
  | inputPort =>
    [("name", .str), ("value_type", .enum "ValueType" valueTypes), ("source", .cls portRef), ("schema", .tupleOf .str)]
  | answerOutput => [("kind", .str), ("name", .str), ("columns", .tupleOf .str)]
  | outputPort =>
    [("name", .str), ("value_type", .enum "ValueType" valueTypes), ("schema", .tupleOf .str),
      ("answer", .union [.cls answerOutput, .none])]
  | barrier =>
    [("node_id", .str), ("inputs", .tupleOf (.cls inputPort)), ("next_anchor", .str), ("aliases", .tupleOf .str)]

/-- The module of each class. -/
def moduleName : PortClass → String
  | barrier => "quail.physical.nodes.join"
  | _ => "quail.physical.base"

/-- The name of each class. -/
def name : PortClass → String
  | portRef => "PortRef"
  | inputPort => "InputPort"
  | answerOutput => "AnswerOutput"
  | outputPort => "OutputPort"
  | barrier => "Barrier"

/-- The class that a module has under a name. -/
def find (module_ name_ : String) : Option PortClass :=
  [portRef, inputPort, answerOutput, outputPort, barrier].find? fun kind => kind.moduleName = module_ ∧ kind.name = name_

/-- A program of these classes, of which none is a subclass of another. -/
def program : Classes PortClass ℤ where
  moduleName := moduleName
  name := name
  fields := fields
  subclass kind c := kind = c
  importModule module_ := .ok (find module_)
  postInit _ fields := .ok fields
  toFloat i := .ok i
  text _ := ""

lemma program_regular : program.Regular where
  named kind := by cases kind <;> decide
  plain kind := by cases kind <;> decide
  found kind := ⟨find kind.moduleName, rfl, by cases kind <;> decide⟩
  refl kind := decide_eq_true rfl
  distinct kind := by cases kind <;> decide
  untagged kind := by cases kind <;> decide
  clear kind := by cases kind <;> decide

/-- A port without an answer. -/
lemma program_port : HasType program (.object outputPort [("name", .scalar (.str "rows")), ("value_type", .enum "ValueType" "rows"),
    ("schema", .tuple []), ("answer", .scalar .none)]) (.union [.cls outputPort, .none]) := by
  refine .union List.mem_cons_self (.object rfl rfl (fun name a v ha hv => ?_) rfl)
  simp only [program, fields, List.mem_cons, List.not_mem_nil, or_false, Prod.mk.injEq] at ha hv
  obtain ⟨rfl, rfl⟩ | ⟨rfl, rfl⟩ | ⟨rfl, rfl⟩ | ⟨rfl, rfl⟩ := ha <;> simp at hv <;> subst hv
  · exact .str _
  · exact .enum (by decide)
  · exact .tupleOf fun v hv => by cases hv
  · exact .union (List.mem_cons_of_mem _ List.mem_cons_self) .none

end PortClass

end Quail.Codec
