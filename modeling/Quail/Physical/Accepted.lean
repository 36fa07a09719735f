import Quail.Physical.RoundTrip

/-!
# What the codec accepts

What is decoded for an annotation is of its type: a list has an item for each that was there, and an object is of the
annotation's class or of a subclass, with the class's own fields and no others. It is then encoded, and decoded again
to itself.
-/

namespace Quail.Codec

variable {κ F : Type} {C : Classes κ F}

/-- The fields of a class, each of its annotation's type. -/
structure Typed (C : Classes κ F) (kind : κ) (fields : List (String × Value κ F)) : Prop where
  names : fields.map Prod.fst = (C.fields kind).map Prod.fst
  types : ∀ name a v, (name, a) ∈ C.fields kind → (name, v) ∈ fields → HasType C v a

/-- `__post_init__` keeps the fields' types, and does nothing a second time. -/
def Settles (C : Classes κ F) : Prop := ∀ kind fields fields', Typed C kind fields → C.postInit kind fields = .ok fields' →
  Typed C kind fields' ∧ C.postInit kind fields' = .ok fields'

/-- The decoders of the parts give values of the annotations' types. -/
structure Sound (C : Classes κ F) (p : Parts κ F) : Prop where
  items : ∀ decoder ∈ p.items, ∀ a v, decoder a = .ok v → HasType C v a
  entries : ∀ e ∈ p.entries, ∀ a v, e.2 a = .ok v → HasType C v a

/-! ## Classes -/

/-- A tag names a class or a subclass of the annotation's. -/
lemma taggedType_sub (hC : C.Regular) {tag : Option (Encoded F)} {c : κ} {kind : Option κ}
    (h : taggedType C tag (some c) = .ok kind) : ∃ k, kind = some k ∧ C.subclass k c = true := by
  rw [taggedType.eq_def] at h
  split at h
  · obtain rfl := Except.ok.inj h
    exact ⟨c, rfl, hC.refl c⟩
  · obtain rfl := Except.ok.inj h
    exact ⟨c, rfl, hC.refl c⟩
  · obtain ⟨found, -, h⟩ := bind_eq_ok h
    split at h
    · cases h
    · split at h
      · rename_i hsub
        obtain rfl := Except.ok.inj h
        exact ⟨_, rfl, hsub⟩
      · cases h

/-- A class that was constructed had an entry for every field that was not given, and no others. -/
lemma construct_spec {kind : κ} {entries : List (String × Decoder κ F)} {given : List (String × Value κ F)} {v : Value κ F}
    (h : construct C kind entries given = .ok v) : ∃ arguments fields, v = .object kind fields ∧
      (C.fields kind).mapM (argument entries given) = .ok arguments ∧ C.postInit kind arguments = .ok fields ∧
      (∀ name, name ≠ typeKey → (name ∈ entries.map Prod.fst ↔
        name ∈ (C.fields kind).map Prod.fst ∧ name ∉ given.map Prod.fst)) := by
  rw [construct] at h
  simp only at h
  split at h
  · cases h
  · rename_i hmissing
    split at h
    · cases h
    · rename_i hunknown
      obtain ⟨arguments, harguments, h⟩ := bind_eq_ok h
      split at h
      · cases h
      · obtain ⟨fields, hfields, h⟩ := bind_eq_ok h
        refine ⟨arguments, fields, (Except.ok.inj h).symm, harguments, hfields, fun name hname => ?_⟩
        rw [not_not, List.filter_eq_nil_iff] at hmissing hunknown
        simp only [List.mem_filter, decide_eq_true_eq, not_not] at hmissing hunknown
        exact ⟨fun hmem => hunknown name ⟨hmem, hname⟩, fun hmem => (hmissing name hmem).1⟩

lemma forall₂_names {α β : Type} {R : String × α → String × β → Prop} {xs : List (String × α)} {ys : List (String × β)}
    (h : List.Forall₂ (fun x y => y.1 = x.1 ∧ R x y) xs ys) : ys.map Prod.fst = xs.map Prod.fst := by
  induction h with
  | nil => rfl
  | cons h _ ih => rw [List.map_cons, List.map_cons, h.1, ih]

/-- An object that was decoded is of the annotation's class or of a subclass. -/
lemma decodeFields_typed (hC : C.Regular) (hinit : Settles C) {c : κ} {p : Parts κ F} {v : Value κ F} (hp : Sound C p)
    (h : decodeFields C c p [] = .ok v) : HasType C v (.cls c) := by
  rw [decodeFields] at h
  split at h
  · obtain ⟨kind, htag, h⟩ := bind_eq_ok h
    obtain ⟨k, rfl, hsub⟩ := taggedType_sub hC htag
    obtain ⟨arguments, fields, rfl, harguments, hfields, -⟩ := construct_spec h
    have hforall := forall₂_of_mapM harguments
    have hdecoded : List.Forall₂ (fun (field : String × Ann κ) (argument : String × Value κ F) =>
        argument.1 = field.1 ∧ HasType C argument.2 field.2) (C.fields k) arguments := by
      refine hforall.imp fun field arg harg => ?_
      rw [argument, Dict.find] at harg
      cases hfind : Dict.find field.1 p.entries with
      | none =>
        rw [hfind] at harg
        cases harg
      | some decoder =>
        rw [hfind] at harg
        obtain ⟨value, hvalue, harg⟩ := bind_eq_ok harg
        obtain rfl := Except.ok.inj harg
        exact ⟨rfl, hp.entries _ (Dict.mem_of_find hfind) _ _ hvalue⟩
    have htyped : Typed C k arguments := by
      have hnames := forall₂_names hdecoded
      refine ⟨hnames, fun name a v ha hv => ?_⟩
      obtain ⟨arg, hmem, hname, htype⟩ := forall₂_exists_right hdecoded ha
      have hnodup := hnames ▸ hC.distinct k
      obtain ⟨name', value⟩ := arg
      obtain rfl : name' = name := hname
      have hfound := Dict.find_of_mem hnodup hmem
      rw [Dict.find_of_mem hnodup hv] at hfound
      exact Option.some.inj hfound ▸ htype
    obtain ⟨hlast, hagain⟩ := hinit k arguments fields htyped hfields
    exact .object hsub hlast.names hlast.types hagain
  · cases h

/-! ## Annotations -/

/-- A list's items were decoded each on its own. -/
lemma mapM_typed {α : Type} {f : α → Except PyError (Value κ F)} {xs : List α} {vs : List (Value κ F)} {a : Ann κ}
    (h : xs.mapM f = .ok vs) (hf : ∀ x ∈ xs, ∀ v, f x = .ok v → HasType C v a) : ∀ v ∈ vs, HasType C v a := by
  have hforall := forall₂_of_mapM h
  clear h
  induction hforall with
  | nil => exact fun v hv => by cases hv
  | cons h _ ih =>
    obtain ⟨hfirst, hrest⟩ := List.forall_mem_cons.1 hf
    exact List.forall_mem_cons.2 ⟨hfirst _ h, ih hrest⟩

/-- A string has no parts. -/
lemma sound_str {s : String} : Sound C (.str s) := ⟨fun _ h => (by cases h), fun _ h => (by cases h)⟩

/-- The tagged class of a union is one of its members. -/
lemma decodeTagged_typed (hC : C.Regular) (hinit : Settles C) {members : List (Ann κ)} {p : Parts κ F} {v : Value κ F}
    (hp : Sound C p) (h : decodeTagged C members p = .ok v) : HasType C v (.union members) := by
  rw [decodeTagged] at h
  obtain ⟨kind, -, h⟩ := bind_eq_ok h
  split at h
  · cases h
  · rename_i base hbase
    cases kind with
    | none => cases hbase
    | some kind =>
      have hmem : base ∈ unionClasses members := List.mem_of_find?_eq_some hbase
      obtain ⟨m, hm, hclass⟩ := List.mem_filterMap.1 hmem
      obtain rfl : m = .cls base := by
        cases m <;> cases hclass
        rfl
      exact .union hm (decodeFields_typed hC hinit hp h)

mutual

/-- What is decoded for an annotation is of its type. -/
lemma fit_typed (hC : C.Regular) (hinit : Settles C) : ∀ (a : Ann κ) {p : Parts κ F} {v : Value κ F}, Sound C p →
    fit C a p = .ok v → HasType C v a
  | .any, p, v, _, h => by
    rw [fit] at h
    exact Except.ok.inj h ▸ .any p.value
  | .none, p, v, _, h => by
    rw [fit] at h
    split at h
    · exact Except.ok.inj h ▸ .none
    · cases h
  | .bool, p, v, _, h => by
    rw [fit] at h
    split at h
    · exact Except.ok.inj h ▸ .bool _
    · cases h
  | .int, p, v, _, h => by
    rw [fit] at h
    split at h
    · exact Except.ok.inj h ▸ .int _
    · exact Except.ok.inj h ▸ .flag _
    · cases h
  | .float, p, v, _, h => by
    rw [fit] at h
    split at h
    · obtain ⟨x, -, h⟩ := bind_eq_ok h
      exact Except.ok.inj h ▸ .float x
    · exact Except.ok.inj h ▸ .float _
    · cases h
  | .str, p, v, _, h => by
    rw [fit] at h
    split at h
    · exact Except.ok.inj h ▸ .str _
    · cases h
  | .enum name members, p, v, _, h => by
    rw [fit] at h
    split at h
    · split at h
      · rename_i hmem
        exact Except.ok.inj h ▸ .enum hmem
      · cases h
    · cases h
  | .cls c, p, v, hp, h => by
    rw [fit] at h
    exact decodeFields_typed hC hinit hp h
  | .tuple, p, v, _, h => by
    rw [fit] at h
    split at h
    · rename_i items hitems
      rw [hitems] at h
      exact Except.ok.inj h ▸ .tuple items
    · cases h
  | .tupleOf a, p, v, hp, h => by
    rw [fit] at h
    split at h
    · obtain ⟨vs, hvs, h⟩ := bind_eq_ok h
      exact Except.ok.inj h ▸ .tupleOf (mapM_typed hvs fun decoder hd v hv => hp.items decoder hd a v hv)
    · cases h
  | .tupleFixed first rest, p, v, hp, h => by
    rw [fit] at h
    split at h
    · split at h
      · cases h
      · rename_i hlength
        obtain ⟨vs, hvs, h⟩ := bind_eq_ok h
        have hforall := forall₂_of_mapM hvs
        have hcount : vs.length = (first :: rest).length := by
          rw [← hforall.length_eq, List.length_zip, ← not_not.1 hlength, Nat.min_self]
        refine Except.ok.inj h ▸ .tupleFixed hcount fun e he => ?_
        obtain ⟨i, hi⟩ := List.mem_iff_getElem?.1 he
        rw [List.getElem?_zip_eq_some] at hi
        obtain ⟨hvalue, ha⟩ := hi
        have hlt : i < p.items.length := by
          rw [← not_not.1 hlength]
          exact (List.getElem?_eq_some_iff.1 ha).1
        have hdecoder := List.getElem?_eq_getElem hlt
        have hzip : ((first :: rest).zip p.items)[i]? = some (e.2, p.items[i]) :=
          List.getElem?_zip_eq_some.2 ⟨ha, hdecoder⟩
        have hrun := (List.forall₂_iff_get.1 hforall).2 i (List.getElem?_eq_some_iff.1 hzip).1
          (List.getElem?_eq_some_iff.1 hvalue).1
        rw [List.get_eq_getElem, List.get_eq_getElem, (List.getElem?_eq_some_iff.1 hzip).2,
          (List.getElem?_eq_some_iff.1 hvalue).2] at hrun
        exact hp.items _ (List.getElem_mem hlt) _ _ hrun
    · cases h
  | .list a, p, v, hp, h => by
    rw [fit] at h
    split at h
    · obtain ⟨vs, hvs, h⟩ := bind_eq_ok h
      exact Except.ok.inj h ▸ .list (mapM_typed hvs fun decoder hd v hv => hp.items decoder hd a v hv)
    · obtain ⟨vs, hvs, h⟩ := bind_eq_ok h
      exact Except.ok.inj h ▸ .list (mapM_typed hvs fun c _ v hv => fit_typed hC hinit a sound_str hv)
    · obtain ⟨vs, hvs, h⟩ := bind_eq_ok h
      exact Except.ok.inj h ▸ .list (mapM_typed hvs fun key _ v hv => fit_typed hC hinit a sound_str hv)
    · cases h
  | .dict a, p, v, hp, h => by
    rw [fit] at h
    split at h
    · obtain ⟨vs, hvs, h⟩ := bind_eq_ok h
      refine Except.ok.inj h ▸ .dict fun e he => ?_
      obtain ⟨entry, hentry, hrun⟩ := forall₂_exists_left (forall₂_of_mapM hvs) he
      obtain ⟨value, hvalue, hrun⟩ := bind_eq_ok hrun
      exact Except.ok.inj hrun ▸ hp.entries entry hentry a value hvalue
    · cases h
  | .union members, p, v, hp, h => by
    have hfirst : fitFirst C members p = .ok v → HasType C v (.union members) := fun h => by
      obtain ⟨m, hm, htype⟩ := fitFirst_typed hC hinit members hp h
      exact .union hm htype
    rw [fit] at h
    split at h
    · split at h
      · rename_i hnone
        obtain ⟨m, hm, hisNone⟩ := List.any_eq_true.1 hnone
        obtain rfl : m = .none := by
          cases m <;> cases hisNone
          rfl
        exact Except.ok.inj h ▸ .union hm .none
      · exact hfirst h
    · split at h
      · exact hfirst h
      · exact decodeTagged_typed hC hinit hp h
    · exact hfirst h
  | .other, p, v, _, h => by
    rw [fit] at h
    cases h

/-- What the plain members of a union decode is of the type of one of them. -/
lemma fitFirst_typed (hC : C.Regular) (hinit : Settles C) : ∀ (members : List (Ann κ)) {p : Parts κ F} {v : Value κ F},
    Sound C p → fitFirst C members p = .ok v → ∃ m ∈ members, HasType C v m
  | [], p, v, _, h => by
    rw [fitFirst] at h
    cases h
  | m :: members, p, v, hp, h => by
    have hrest : fitFirst C members p = .ok v → ∃ m' ∈ m :: members, HasType C v m' := fun h => by
      obtain ⟨m', hm', htype⟩ := fitFirst_typed hC hinit members hp h
      exact ⟨m', List.mem_cons_of_mem _ hm', htype⟩
    rw [fitFirst] at h
    split at h
    · split at h
      · rename_i hfit
        exact ⟨m, List.mem_cons_self, fit_typed hC hinit m hp (hfit.trans h)⟩
      · split at h
        · exact hrest h
        · cases h
    · exact hrest h

end

/-! ## Values -/

mutual

/-- What is decoded is of the annotation's type. -/
lemma decode_typed (hC : C.Regular) (hinit : Settles C) : ∀ (e : Encoded F) {a : Ann κ} {v : Value κ F},
    decodeValue C e a = .ok v → HasType C v a
  | .scalar s, a, v, h => by
    rw [decodeValue_eq] at h
    exact fit_typed hC hinit a ⟨fun _ h => (by cases h), fun _ h => (by cases h)⟩ h
  | .list items, a, v, h => by
    rw [decodeValue_eq] at h
    refine fit_typed hC hinit a ⟨fun decoder hd b w hw => ?_, fun _ h => (by cases h)⟩ h
    obtain ⟨item, hitem, rfl⟩ := List.mem_map.1 hd
    exact decode_typed_items hC hinit items item hitem hw
  | .dict entries, a, v, h => by
    rw [decodeValue_eq] at h
    refine fit_typed hC hinit a ⟨fun _ h => (by cases h), fun entry hentry b w hw => ?_⟩ h
    obtain ⟨e, he, rfl⟩ := List.mem_map.1 hentry
    exact decode_typed_entries hC hinit entries e he hw

lemma decode_typed_items (hC : C.Regular) (hinit : Settles C) : ∀ (items : List (Encoded F)), ∀ e ∈ items,
    ∀ {a : Ann κ} {v : Value κ F}, decodeValue C e a = .ok v → HasType C v a
  | [], e, he, a, v, h => by cases he
  | e :: items, e', he, a, v, h => by
    cases he with
    | head => exact decode_typed hC hinit e h
    | tail _ he => exact decode_typed_items hC hinit items e' he h

lemma decode_typed_entries (hC : C.Regular) (hinit : Settles C) : ∀ (entries : List (String × Encoded F)), ∀ e ∈ entries,
    ∀ {a : Ann κ} {v : Value κ F}, decodeValue C e.2 a = .ok v → HasType C v a
  | [], e, he, a, v, h => by cases he
  | (key, value) :: entries, e', he, a, v, h => by
    cases he with
    | head => exact decode_typed hC hinit value h
    | tail _ he => exact decode_typed_entries hC hinit entries e' he h

end

/-- A dictionary that is decoded for a class has the fields of the class it is decoded to, and no others. -/
lemma decode_fields (hC : C.Regular) {entries : List (String × Encoded F)} {c : κ} {v : Value κ F}
    (h : decodeValue C (.dict entries) (.cls c) = .ok v) : ∃ kind fields, v = .object kind fields ∧
      C.subclass kind c = true ∧ ∀ name, name ≠ typeKey →
        (name ∈ entries.map Prod.fst ↔ name ∈ (C.fields kind).map Prod.fst) := by
  rw [decodeValue_eq, fit, decodeFields] at h
  obtain ⟨kind, htag, h⟩ := bind_eq_ok h
  obtain ⟨k, rfl, hsub⟩ := taggedType_sub hC htag
  obtain ⟨arguments, fields, rfl, -, -, hnames⟩ := construct_spec h
  refine ⟨k, fields, rfl, hsub, fun name hname => ?_⟩
  have hentries := hnames name hname
  rw [parts, List.map_map] at hentries
  simpa [Function.comp_def] using hentries

end Quail.Codec
