import QueryCompiler.Proofs.Input.Descriptor
import QueryCompiler.Proofs.Scalar.Response
/-
# Variables are sent as the schema declares them

A request is sent with a table of type names, from which the lists around a type and the kinds of
types are gone.  For variables that conform to their declarations (`VariablesConform`) the walk
along that table nevertheless does what a walk along the schema does (`variablesSentAs`): every
registered scalar is converted once, at the depth at which its type is declared to stand, and
everything else stays.  The walk may go as deep as the variables do, even where input objects refer
back to each other, because the table is closed (`InputDescriptor.Describes`).

* `ScalarRegistry.marshalInput_sentAs`: one value of an input object that a descriptor knows;
* `ScalarRegistry.marshalInputs_sentAs`: the variables of an operation.
-/
namespace QueryCompiler

variable {r : ScalarRegistry} {s : Schema}

/-! ## 1. The walk along the schema -/

/-- The name that a key stands for.  Only texts are names. -/
def Datum.name? : Datum → Option String
  | .text name => some name
  | _ => none

/-- The type declared for a key. -/
def typeUnder? (types : Table String TypeRef) (key : Datum) : Option TypeRef :=
  key.name?.bind (Table.get? types)

/-- The types that the fields of an input object are declared with. -/
def fieldTypes (fields : List SchemaField) : Table String TypeRef :=
  fields.map fun f => (f.name, f.type)

/-- The types of the variables of an operation.  Of several declarations of one name the last one
counts. -/
def variableTypes (declarations : List VariableDefinition) : Table String TypeRef :=
  Table.ofRows (declarations.map fun v => (v.name, v.type))

namespace ScalarRegistry

/-- A value of a type that is no input object.  Where a list is declared, a single value may stand
for the list of it. -/
def leafSentAs (r : ScalarRegistry) (t : TypeRef) (d : Datum) : Except Error Datum :=
  match Table.get? r t.base with
  | none => .ok d
  | some h =>
    match d with
    | .null => .ok .null
    | d => do (← converter t.base h .marshal).under (if d.isList then t.wrappers else 0) d

mutual

/-- A value of a type as it is sent.  Again, a single object may stand for the list of it. -/
def sentAs (r : ScalarRegistry) (s : Schema) (t : TypeRef) (d : Datum) : Except Error Datum :=
  match s.inputFields? t.base with
  | none => r.leafSentAs t d
  | some fields =>
    match d with
    | .list items =>
      match t.item? with
      | some item => do return .list (← itemsSentAs r s item items)
      | none => .ok (.list items)
    | .object rows => do return .object (← rowsSentAs r s (fieldTypes fields) rows)
    | d => .ok d

def itemsSentAs (r : ScalarRegistry) (s : Schema) (t : TypeRef) :
    List Datum → Except Error (List Datum)
  | [] => .ok []
  | d :: items => do return (← sentAs r s t d) :: (← itemsSentAs r s t items)

/-- The rows with each value as it is sent.  What is not declared is sent as it is. -/
def rowsSentAs (r : ScalarRegistry) (s : Schema) (types : Table String TypeRef) :
    List (Datum × Datum) → Except Error (List (Datum × Datum))
  | [] => .ok []
  | (key, value) :: rows => do
    let value ←
      match typeUnder? types key with
      | none => .ok value
      | some t => sentAs r s t value
    return (key, value) :: (← rowsSentAs r s types rows)

end

/-- The variables of an operation as they are sent. -/
def variablesSentAs (r : ScalarRegistry) (s : Schema) (declarations : List VariableDefinition) :
    Datum → Except Error Datum
  | .object rows => do return .object (← r.rowsSentAs s (variableTypes declarations) rows)
  | d => .ok d

mutual

/-- A value conforms to a type.  Null may be in any place.  A registered scalar that is a list
stands in one list; of what is not registered nothing is asked.  A value of an input object is an
object, whose fields may be missing and which may have other keys, or as many lists of such values
as are declared. -/
def Conforms (r : ScalarRegistry) (s : Schema) (t : TypeRef) (d : Datum) : Prop :=
  match s.inputFields? t.base with
  | none => (Table.get? r t.base).isSome → d.isList = true → t.wrappers = 1
  | some fields =>
    match d with
    | .null => True
    | .list items => ∃ item, t.item? = some item ∧ ItemsConform r s item items
    | .object rows => RowsConform r s (fieldTypes fields) rows
    | _ => False

def ItemsConform (r : ScalarRegistry) (s : Schema) (t : TypeRef) : List Datum → Prop
  | [] => True
  | d :: items => Conforms r s t d ∧ ItemsConform r s t items

def RowsConform (r : ScalarRegistry) (s : Schema) (types : Table String TypeRef) :
    List (Datum × Datum) → Prop
  | [] => True
  | (key, value) :: rows =>
    (match typeUnder? types key with
      | none => True
      | some t => Conforms r s t value) ∧ RowsConform r s types rows

end

/-- The values of the variables of an operation conform to their declarations. -/
def VariablesConform (r : ScalarRegistry) (s : Schema) (declarations : List VariableDefinition) :
    Datum → Prop
  | .null => True
  | .object rows => r.RowsConform s (variableTypes declarations) rows
  | _ => False

/-- No input object is registered as a scalar. -/
def OnlyScalars (r : ScalarRegistry) (s : Schema) : Prop :=
  ∀ row ∈ r, (s.inputFields? row.1).isSome = false

instance (r : ScalarRegistry) (s : Schema) : Decidable (r.OnlyScalars s) :=
  inferInstanceAs (Decidable (∀ row ∈ r, (s.inputFields? row.1).isSome = false))

end ScalarRegistry

/-! ## 2. Types by name -/

theorem TypeRef.base_item {item : TypeRef} :
    ∀ {t : TypeRef}, t.item? = some item → item.base = t.base
  | .named _, h => absurd h nofun
  | .list _, h => by rw [base, ← Option.some.inj h]
  | .nonNull inner, h => base_item (t := inner) h

namespace InputDescriptor

theorem get?_storedShape (shape : Table String String) (key : Datum) :
    Table.get? (storedShape shape) key = (key.name?.bind (Table.get? shape)).map .text := by
  induction shape with
  | nil => cases key <;> rfl
  | cons row shape ih =>
    rw [storedShape, List.map_cons, Table.get?, ← storedShape, ih]
    cases key with
    | text name =>
      have hkey : ((.text row.1 : Datum) == .text name) = (row.1 == name) := rfl
      rw [hkey, Datum.name?, Option.bind_some, Option.bind_some, Table.get?]
      split <;> rfl
    | _ => rfl

theorem get?_stored_types (d : InputDescriptor String) (type : String) :
    Table.get? d.stored.types (.text type) = (Table.get? d.types type).map storedShape := by
  obtain ⟨fields, types⟩ := d
  induction types with
  | nil => rfl
  | cons row types ih =>
    have hkey : ((.text row.1 : Datum) == .text type) = (row.1 == type) := rfl
    simp only [stored, List.map_cons, Table.get?, hkey] at ih ⊢
    split
    · rfl
    · exact ih

theorem contains_stored_types (d : InputDescriptor String) (type : String) :
    Table.contains d.stored.types (.text type) = (Table.get? d.types type).isSome := by
  have hany : Table.contains d.stored.types (.text type) = Table.contains d.types type :=
    List.any_map
  rw [hany, Bool.eq_iff_iff, Table.contains_iff, Option.isSome_iff_ne_none, ne_eq,
    Table.get?_eq_none_iff, not_not]

end InputDescriptor

/-- What a descriptor tells of the fields of a type is what is declared, and it knows the types
that are declared. -/
structure InputDescriptor.Covers (d : InputDescriptor String) (s : Schema) (type : String)
    (types : Table String TypeRef) : Prop where
  typeOf : ∀ key, d.stored.typeOf? (.text type) key
    = (typeUnder? types key).map fun t => .text t.base
  known : ∀ {key t}, typeUnder? types key = some t → d.Knows s t.base

/-- A type that is declared is declared under some name. -/
theorem mem_of_typeUnder? {types : Table String TypeRef} {key : Datum} {t : TypeRef}
    (h : typeUnder? types key = some t) : ∃ name, (name, t) ∈ types := by
  rw [typeUnder?, Option.bind_eq_some_iff] at h
  obtain ⟨name, -, h⟩ := h
  exact ⟨name, Table.mem_of_get? h⟩

namespace InputDescriptor

variable {d : InputDescriptor String} {declarations : List VariableDefinition}

theorem typeOf?_of_shape {type : String} (shape : Table String String)
    {types : Table String TypeRef} (hfields : d.stored.fieldsOf (.text type) = storedShape shape)
    (hshape : ∀ name, Table.get? shape name = (Table.get? types name).map TypeRef.base)
    (key : Datum) :
    d.stored.typeOf? (.text type) key = (typeUnder? types key).map fun t => .text t.base := by
  rw [typeOf?, hfields, get?_storedShape, typeUnder?]
  cases key.name? with
  | none => rfl
  | some name =>
    rw [Option.bind_some, Option.bind_some, hshape]
    cases Table.get? types name <;> rfl

/-- A descriptor covers the variables. -/
theorem Describes.covers_root (h : d.Describes s declarations) :
    d.Covers s root (variableTypes declarations) where
  typeOf := by
    refine typeOf?_of_shape d.fields (if_pos (beq_self_eq_true root)) fun name => ?_
    rw [h.fields, variableTypes, Table.get?_ofRows, Table.get?_ofRows, ← Table.get?_map,
      ← List.map_reverse, ← List.map_reverse, List.map_map]
    rfl
  known ht := by
    obtain ⟨name, hrow⟩ := mem_of_typeUnder? ht
    obtain ⟨v, hv, hrow⟩ := List.mem_map.mp (Table.mem_of_mem_ofRows hrow)
    obtain ⟨rfl, rfl⟩ := Prod.mk.inj hrow
    exact h.declared v hv

/-- A descriptor covers the fields of an input object that it knows. -/
theorem Describes.covers_type (h : d.Describes s declarations) (hroot : s.inputFields? root = none)
    {type : String} (hknows : d.Knows s type) {fields : List SchemaField}
    (hfields : s.inputFields? type = some fields) : d.Covers s type (fieldTypes fields) := by
  obtain ⟨shape, hshape⟩ := Option.isSome_iff_exists.mp (hknows (hfields ▸ rfl))
  obtain ⟨fields', hfields', hshape', hbases⟩ := h.closed type shape hshape
  obtain rfl : fields = fields' := Option.some.inj (hfields.symm.trans hfields')
  refine ⟨typeOf?_of_shape shape ?_ fun name => ?_, fun ht => ?_⟩
  · have hne : type ≠ root := by
      rintro rfl
      exact absurd (hfields.symm.trans hroot) nofun
    have hnotRoot : ((.text type : Datum) == .text root) = false :=
      show (type == root) = false from beq_false_of_ne hne
    rw [fieldsOf, hnotRoot, get?_stored_types, hshape]
    rfl
  · rw [hshape', ← Table.get?_map, fieldTypes, List.map_map]
    rfl
  · obtain ⟨name, hrow⟩ := mem_of_typeUnder? ht
    obtain ⟨f, hf, hrow⟩ := List.mem_map.mp hrow
    obtain ⟨rfl, rfl⟩ := Prod.mk.inj hrow
    exact hbases f hf

end InputDescriptor

/-! ## 3. The two walks -/

namespace ScalarRegistry

/-- A registered scalar that conforms is converted at the depth at which it is declared. -/
theorem convertWith_leaf {t : TypeRef} {h : Handler} (hget : Table.get? r t.base = some h)
    {v : Datum} (hlist : v.isList = true → t.wrappers = 1) :
    convertWith t.base h .marshal v = r.leafSentAs t v := by
  have hleaf : ∀ v : Datum, v ≠ .null → r.leafSentAs t v
      = (do (← converter t.base h .marshal).under (if v.isList then t.wrappers else 0) v) := by
    intro v hnull
    rw [leafSentAs, hget]
    cases v with
    | null => exact absurd rfl hnull
    | _ => rfl
  by_cases hnull : v = .null
  · rw [hnull, leafSentAs, hget, convertWith]
  · rw [hleaf v hnull]
    cases hl : v.isList with
    | false =>
      rw [convertWith_single hnull hl]
      simp only [Bool.false_eq_true, if_false, Convert.under_zero, convertItem_of_ne_null hnull]
    | true =>
      obtain ⟨items, rfl⟩ := Datum.exists_of_isList hl
      rw [if_pos rfl, hlist hl]
      exact convertWith_under (.inl (Nat.le_refl 1)) hnull fun _ _ => trivial

theorem OnlyScalars.get?_eq_none (h : r.OnlyScalars s) {name : String}
    (hinput : (s.inputFields? name).isSome) : Table.get? r name = none := by
  cases hget : Table.get? r name with
  | none => rfl
  | some handler =>
    exact absurd (hinput.symm.trans (h _ (Table.mem_of_get? hget))) nofun

/-- What a walk along a descriptor makes of the value under a key. -/
def inputAt (r : ScalarRegistry) (i : InputDescriptor Datum) (type key value : Datum) :
    Except Error Datum :=
  match i.typeOf? type key with
  | none => .ok value
  | some field =>
    match r.handler? field with
    | .error e => .error e
    | .ok (some (scalar, h)) => convertWith scalar h .marshal value
    | .ok none => if Table.contains i.types field then r.marshalInput i field value else .ok value

theorem marshalInputRows_cons (r : ScalarRegistry) (i : InputDescriptor Datum)
    (type key value : Datum) (rows : List (Datum × Datum)) :
    r.marshalInputRows i type ((key, value) :: rows) =
      (do return (key, ← r.inputAt i type key value) :: (← r.marshalInputRows i type rows)) := by
  rw [marshalInputRows, inputAt]
  cases i.typeOf? type key with
  | none => rfl
  | some field =>
    dsimp only
    cases r.handler? field with
    | error e => rfl
    | ok found =>
      cases found with
      | none => dsimp only; split <;> rfl
      | some found => rfl

/-- The value under a key as it is sent. -/
def sentUnder (r : ScalarRegistry) (s : Schema) (types : Table String TypeRef)
    (key value : Datum) : Except Error Datum :=
  match typeUnder? types key with
  | none => .ok value
  | some t => r.sentAs s t value

theorem rowsSentAs_cons (r : ScalarRegistry) (s : Schema) (types : Table String TypeRef)
    (key value : Datum) (rows : List (Datum × Datum)) :
    r.rowsSentAs s types ((key, value) :: rows) =
      (do return (key, ← r.sentUnder s types key value) :: (← r.rowsSentAs s types rows)) := by
  rw [rowsSentAs, sentUnder]
  cases typeUnder? types key <;> rfl

variable {d : InputDescriptor String} {declarations : List VariableDefinition}

/-- The value under a key is converted as it is declared, if values that the walk goes into are. -/
theorem inputAt_sentUnder (hd : d.Describes s declarations) (honly : r.OnlyScalars s)
    {type : String} {types : Table String TypeRef} (hcovers : d.Covers s type types)
    {key value : Datum}
    (hconf : ∀ t, typeUnder? types key = some t → r.Conforms s t value)
    (hwalk : ∀ t fields, typeUnder? types key = some t → s.inputFields? t.base = some fields →
      r.marshalInput d.stored (.text t.base) value = r.sentAs s t value) :
    r.inputAt d.stored (.text type) key value = r.sentUnder s types key value := by
  rw [inputAt, hcovers.typeOf, sentUnder]
  cases ht : typeUnder? types key with
  | none => rfl
  | some t =>
    rw [Option.map_some]
    simp only [handler?, InputDescriptor.contains_stored_types]
    cases hfields : s.inputFields? t.base with
    | some fields =>
      rw [honly.get?_eq_none (hfields ▸ rfl)]
      simp only [Option.map_none]
      rw [if_pos (hcovers.known ht (hfields ▸ rfl)), hwalk t fields ht hfields]
    | none =>
      have hunknown : (Table.get? d.types t.base).isSome = false := by
        cases hshape : Table.get? d.types t.base with
        | none => rfl
        | some shape =>
          obtain ⟨fields, hinput, -⟩ := hd.closed _ _ hshape
          cases hfields.symm.trans hinput
      have hleaf := hconf t ht
      rw [Conforms.eq_def, hfields] at hleaf
      rw [sentAs.eq_def, hfields]
      cases hget : Table.get? r t.base with
      | none =>
        simp only [Option.map_none, hunknown]
        rw [leafSentAs, hget]
        rfl
      | some h => exact convertWith_leaf hget (hleaf (hget ▸ rfl))

mutual

/-- **A value of an input object is sent as it is declared.**  The induction is on the data; the
types may come back any number of times on the way down. -/
theorem marshalInput_sentAs (hd : d.Describes s declarations)
    (hroot : s.inputFields? InputDescriptor.root = none) (honly : r.OnlyScalars s) :
    ∀ (v : Datum) {t : TypeRef} {fields : List SchemaField}, d.Knows s t.base →
      s.inputFields? t.base = some fields → r.Conforms s t v →
      r.marshalInput d.stored (.text t.base) v = r.sentAs s t v
  | .null, t, fields, _, hfields, _ => by
    rw [marshalInput, sentAs.eq_def, hfields]
  | .list items, t, fields, hknows, hfields, hconf => by
    rw [Conforms.eq_def, hfields] at hconf
    obtain ⟨item, hitem, hitems⟩ := hconf
    rw [marshalInput, sentAs.eq_def, hfields]
    simp only [hitem]
    rw [← TypeRef.base_item hitem] at hknows hfields ⊢
    rw [marshalInputItems_sentAs hd hroot honly items hknows hfields hitems]
  | .object rows, t, fields, hknows, hfields, hconf => by
    rw [Conforms.eq_def, hfields] at hconf
    rw [marshalInput, sentAs.eq_def, hfields, marshalInputRows_sentAs hd hroot honly rows
      (hd.covers_type hroot hknows hfields) hconf]
  | .undefined, t, fields, _, hfields, hconf | .bool _, t, fields, _, hfields, hconf
  | .int _, t, fields, _, hfields, hconf | .float _, t, fields, _, hfields, hconf
  | .text _, t, fields, _, hfields, hconf | .moment _, t, fields, _, hfields, hconf
  | .date _, t, fields, _, hfields, hconf | .uuid _, t, fields, _, hfields, hconf => by
    rw [Conforms.eq_def, hfields] at hconf
    exact hconf.elim

theorem marshalInputItems_sentAs (hd : d.Describes s declarations)
    (hroot : s.inputFields? InputDescriptor.root = none) (honly : r.OnlyScalars s) :
    ∀ (items : List Datum) {t : TypeRef} {fields : List SchemaField}, d.Knows s t.base →
      s.inputFields? t.base = some fields → r.ItemsConform s t items →
      r.marshalInputItems d.stored (.text t.base) items = r.itemsSentAs s t items
  | [], t, fields, _, _, _ => by rw [marshalInputItems, itemsSentAs]
  | v :: items, t, fields, hknows, hfields, hconf => by
    rw [ItemsConform] at hconf
    rw [marshalInputItems, itemsSentAs, marshalInput_sentAs hd hroot honly v hknows hfields hconf.1,
      marshalInputItems_sentAs hd hroot honly items hknows hfields hconf.2]

theorem marshalInputRows_sentAs (hd : d.Describes s declarations)
    (hroot : s.inputFields? InputDescriptor.root = none) (honly : r.OnlyScalars s) :
    ∀ (rows : List (Datum × Datum)) {type : String} {types : Table String TypeRef},
      d.Covers s type types → r.RowsConform s types rows →
      r.marshalInputRows d.stored (.text type) rows = r.rowsSentAs s types rows
  | [], type, types, _, _ => by rw [marshalInputRows, rowsSentAs]
  | (key, value) :: rows, type, types, hcovers, hconf => by
    rw [RowsConform] at hconf
    have hvalue : ∀ t, typeUnder? types key = some t → r.Conforms s t value := by
      intro t ht
      simpa only [ht] using hconf.1
    rw [marshalInputRows_cons, rowsSentAs_cons, inputAt_sentUnder hd honly hcovers hvalue
        fun t fields ht hfields => marshalInput_sentAs hd hroot honly value (hcovers.known ht)
          hfields (hvalue t ht),
      marshalInputRows_sentAs hd hroot honly rows hcovers hconf.2]

end

/-- Without declarations nothing is converted. -/
theorem rowsSentAs_nil (r : ScalarRegistry) (s : Schema) :
    ∀ rows : List (Datum × Datum), r.rowsSentAs s [] rows = .ok rows
  | [] => by rw [rowsSentAs]
  | (key, value) :: rows => by
    have hunder : typeUnder? [] key = none := by cases key <;> rfl
    rw [rowsSentAs_cons, rowsSentAs_nil r s rows, sentUnder, hunder]
    rfl

/-- **Variables are sent as the schema declares them.** -/
theorem marshalInputs_sentAs (declarations : List VariableDefinition)
    (hroot : s.inputFields? InputDescriptor.root = none) (honly : r.OnlyScalars s) {v : Datum}
    (hconf : r.VariablesConform s declarations v) :
    r.marshalInputs ((inputDescriptor? s declarations).map (·.stored)) InputDescriptor.root v
      = r.variablesSentAs s declarations v := by
  cases h : inputDescriptor? s declarations with
  | none =>
    have hnil : declarations = [] := by
      rw [inputDescriptor?] at h
      split at h
      · rename_i hempty
        exact List.isEmpty_iff.mp hempty
      · exact absurd h nofun
    subst hnil
    cases v with
    | object rows =>
      rw [variablesSentAs, variableTypes, List.map_nil, Table.ofRows, List.foldl_nil,
        rowsSentAs_nil]
      rfl
    | _ => rfl
  | some d =>
    have hd := inputDescriptor?_describes h
    rw [Option.map_some, marshalInputs]
    cases v with
    | null =>
      rw [marshalInput]
      rfl
    | object rows =>
      rw [marshalInput, variablesSentAs,
        marshalInputRows_sentAs hd hroot honly rows hd.covers_root hconf]
    | _ => exact hconf.elim

end ScalarRegistry

/-! ## 4. A search -/

namespace Sample

/-- Filters refer to authors, and authors to filters. -/
def filters : Schema :=
  { types := [.scalar "Int", .scalar "Date",
      .inputObject "Filter" [⟨"since", none, .named "Date"⟩,
        ⟨"anyOf", none, .list (.list (.nonNull (.named "Filter")))⟩,
        ⟨"author", none, .named "Author"⟩],
      .inputObject "Author" [⟨"holidays", none, .list (.named "Date")⟩,
        ⟨"follows", none, .list (.named "Filter")⟩],
      .object "Query" [] [⟨"count", some [("filter", .named "Filter")], .named "Int"⟩]]
    query := some "Query", mutation := none, subscription := none }

/-- Some days, a filter and a limit. -/
def searched : List VariableDefinition :=
  [⟨none, "days", .list (.named "Date"), none, []⟩, ⟨none, "filter", .named "Filter", none, []⟩,
    ⟨none, "limit", .named "Int", none, []⟩]

/-- Dates are sent by putting them into an object. -/
def enclosing : ScalarRegistry := [("Date", ⟨some fun d => .ok (wrapped d), none⟩)]

/-- The variables of a search, with something for every date. -/
def search (f : Datum → Datum) : Datum :=
  .record [("days", .list [f (.int 1), .null]), ("limit", .int 10),
    ("filter", .record
      [("since", f (.int 2)), ("until", .int 3),
        ("author", .record
          [("follows", .record [("since", f (.int 4))]), ("holidays", f (.int 5))]),
        ("anyOf", .list
          [.null, .list [.record [("since", .null)], .record [("since", f (.int 6))]]])])]

end Sample

open Sample in
/-- The dates are converted wherever they are, and nothing else is. -/
theorem search_sent :
    enclosing.VariablesConform filters searched (search id) ∧
      enclosing.marshalInputs ((inputDescriptor? filters searched).map (·.stored))
        InputDescriptor.root (search id) = .ok (search wrapped) := by
  have hconf : enclosing.VariablesConform filters searched (search id) := by
    refine ⟨fun _ _ => rfl, fun h => absurd h nofun, ?filter, trivial⟩
    have hsince (n : Int) : enclosing.RowsConform filters
        (fieldTypes ((filters.inputFields? "Filter").getD [])) [(.text "since", .int n)] :=
      ⟨fun _ h => absurd h nofun, trivial⟩
    refine ⟨fun _ h => absurd h nofun, trivial, ?author, ?anyOf, trivial⟩
    case author => exact ⟨hsince 4, fun _ h => absurd h nofun, trivial⟩
    case anyOf =>
      refine ⟨_, rfl, trivial, ⟨_, rfl, ?_, hsince 6, trivial⟩, trivial⟩
      exact ⟨fun _ h => absurd h nofun, trivial⟩
  refine ⟨hconf, ?_⟩
  rw [ScalarRegistry.marshalInputs_sentAs searched (by rfl) (by decide) hconf]
  rfl

end QueryCompiler
