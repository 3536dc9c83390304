import QueryCompiler.Proofs.Artifact.Sent
import QueryCompiler.Proofs.Rearranged
import QueryCompiler.Proofs.Selection.Pieces
/-
# The variables in the filters of a list

A list field records the values of its arguments as its filters.  A variable that is the value of
an argument is recorded by its name.  A variable inside a list or an object is not: nothing defines
it when the filters are made, so an undefined datum stands in its place, whatever it is called.

* `Value.at?_datum`: the datum of a value has at each place the datum of what stands there;
* `Value.describe_eq_iff`: when values that differ in their variables alone are recorded alike;
* `Compilation.entryHead_filters`: which variables the filters of a list field keep.
-/
namespace QueryCompiler

/-! ## 1. Places inside values -/

/-- A step into a value: to an item of a list, or to a field of an object. -/
inductive Place where
  | item (index : Nat)
  | field (name : String)
  deriving DecidableEq, Repr

/-- What a step leads to in a value.  Of several fields of one name the last counts. -/
def Value.step? : Value → Place → Option Value
  | .list items, .item i => items[i]?
  | .object fields, .field name => Table.get? (Table.ofRows fields) name
  | _, _ => none

/-- What a step leads to in a datum. -/
def Datum.step? : Datum → Place → Option Datum
  | .list items, .item i => items[i]?
  | .object rows, .field name => Datum.field? rows name
  | _, _ => none

/-- What stands inside a value, so many steps down. -/
def Value.at? : Value → List Place → Option Value
  | v, [] => some v
  | v, place :: places => (v.step? place).bind (·.at? places)

/-- What stands inside a datum. -/
def Datum.at? : Datum → List Place → Option Datum
  | d, [] => some d
  | d, place :: places => (d.step? place).bind (·.at? places)

/-! ## 2. Tables made of rows that correspond -/

namespace Table

section Corresponds

variable {κ κ' α β : Type}

/-- Rows that correspond in their keys and in their values. -/
def Corresponds (K : κ → κ' → Prop) (R : α → β → Prop) (t : Table κ α) (t' : Table κ' β) : Prop :=
  List.Forall₂ (fun r r' => K r.1 r'.1 ∧ R r.2 r'.2) t t'

theorem Corresponds.keys_eq {R : α → β → Prop} {t : Table κ α} {t' : Table κ β}
    (h : Corresponds Eq R t t') : keys t = keys t' := by
  rw [keys, keys, ← List.forall₂_eq_eq_eq, List.forall₂_map_left_iff, List.forall₂_map_right_iff]
  exact List.Forall₂.imp (fun _ _ hrow => hrow.1) h

variable [BEq κ] [BEq κ']

/-- Keys that correspond to each other are told apart alike. -/
def SameKeys (K : κ → κ' → Prop) : Prop :=
  ∀ ⦃a a' b b'⦄, K a a' → K b b' → (a == b) = (a' == b')

theorem sameKeys_eq : SameKeys (@Eq κ) := by
  rintro a _ b _ rfl rfl
  rfl

variable {K : κ → κ' → Prop} {R : α → β → Prop} {t : Table κ α} {t' : Table κ' β}

namespace Corresponds

theorem insert (hK : SameKeys K) (h : Corresponds K R t t') {k : κ} {k' : κ'} {v : α} {v' : β}
    (hk : K k k') (hv : R v v') : Corresponds K R (Table.insert t k v) (Table.insert t' k' v') := by
  induction h with
  | nil => exact .cons ⟨hk, hv⟩ .nil
  | cons hrow h ih =>
    rw [Table.insert, Table.insert, hK hrow.1 hk]
    split
    · exact .cons ⟨hrow.1, hv⟩ h
    · exact .cons hrow ih

/-- Rows that correspond are put into tables that correspond. -/
theorem ofRows (hK : SameKeys K) (h : Corresponds K R t t') :
    Corresponds K R (Table.ofRows t) (Table.ofRows t') := by
  have hfold : ∀ {s : Table κ α} {s' : Table κ' β}, Corresponds K R s s' →
      Corresponds K R (t.foldl (fun s row => Table.insert s row.1 row.2) s)
        (t'.foldl (fun s row => Table.insert s row.1 row.2) s') := by
    induction h with
    | nil => exact id
    | cons hrow _ ih => exact fun hs => ih (hs.insert hK hrow.1 hrow.2)
  exact hfold .nil

/-- Corresponding tables have corresponding values under corresponding keys. -/
theorem get? (hK : SameKeys K) (h : Corresponds K R t t') {k : κ} {k' : κ'} (hk : K k k') :
    Option.Rel R (Table.get? t k) (Table.get? t' k') := by
  induction h with
  | nil => exact .none
  | cons hrow _ ih =>
    rw [Table.get?, Table.get?, hK hrow.1 hk]
    split
    · exact .some hrow.2
    · exact ih

end Corresponds

end Corresponds

/-- Tables with the same keys that find the same are the same. -/
theorem eq_of_get? {κ α : Type} [DecidableEq κ] {t t' : Table κ α} (hkeys : keys t = keys t')
    (hnodup : (keys t).Nodup) (h : ∀ k, get? t k = get? t' k) : t = t' := by
  induction t generalizing t' with
  | nil => exact (List.map_eq_nil_iff.mp hkeys.symm).symm
  | cons row t ih =>
    cases t' with
    | nil => exact absurd hkeys nofun
    | cons row' t' =>
      obtain ⟨k, v⟩ := row
      obtain ⟨k', v'⟩ := row'
      obtain ⟨rfl, htail⟩ : k = k' ∧ keys t = keys t' := List.cons.inj hkeys
      obtain ⟨hfresh, hnodup⟩ := List.nodup_cons.mp hnodup
      have hvalue := h k
      rw [get?_cons, get?_cons, if_pos rfl, if_pos rfl] at hvalue
      rw [Option.some.inj hvalue, ih htail hnodup fun key => ?_]
      by_cases hkey : k = key
      · subst hkey
        rw [(get?_eq_none_iff t k).mpr hfresh, (get?_eq_none_iff t' k).mpr (htail ▸ hfresh)]
      · have hlater := h key
        rwa [get?_cons, get?_cons, if_neg hkey, if_neg hkey] at hlater

end Table

/-! ## 3. Variables in data -/

/-- What is written as a number is a number as a datum. -/
theorem isSome_number?_numberOr {read : Except Error Datum}
    (h : ∀ d, read = .ok d → d.number?.isSome) : (numberOr read).number?.isSome := by
  unfold numberOr
  split
  · exact h _ rfl
  · rfl

theorem isSome_number?_int (text : String) : (Value.int text).datum.number?.isSome := by
  refine isSome_number?_numberOr fun d hd => ?_
  rw [intDatum] at hd
  split at hd
  · exact Except.ok.inj hd ▸ rfl
  · exact absurd hd nofun

theorem isSome_number?_float (text : String) : (Value.float text).datum.number?.isSome := by
  refine isSome_number?_numberOr fun d hd => ?_
  rw [floatDatum] at hd
  split at hd
  · exact Except.ok.inj hd ▸ rfl
  · exact absurd hd nofun

theorem Datum.step?_of_isSome_number? {d : Datum} (h : d.number?.isSome) (place : Place) :
    d.step? place = none := by
  cases d <;> first | rfl | exact absurd h nofun

namespace Value

theorem items_eq_map : ∀ vs : List Value, items vs = vs.map datum
  | [] => rfl
  | v :: vs => by rw [items, items_eq_map vs, List.map_cons]

/-- The rows of an object have its names for keys, and the data of its values. -/
theorem rows_corresponds : ∀ fields : List (String × Value),
    Table.Corresponds (fun name key => key = Datum.text name) (fun v d => d = v.datum) fields
      (rows fields)
  | [] => .nil
  | (_, _) :: fields => .cons ⟨rfl, rfl⟩ (rows_corresponds fields)

/-- An object has under each name the datum of the last field of that name. -/
theorem field?_rows (fields : List (String × Value)) (name : String) :
    Datum.field? (Table.ofRows (rows fields)) name
      = (Table.get? (Table.ofRows fields) name).map datum := by
  have hkeys : Table.SameKeys fun (name : String) (key : Datum) => key = .text name := by
    rintro a _ b _ rfl rfl
    rfl
  have hfound := ((rows_corresponds fields).ofRows hkeys).get? hkeys (k := name) rfl
  rw [Datum.field?]
  generalize Table.get? (Table.ofRows fields) name = found at hfound ⊢
  generalize Table.get? (Table.ofRows (rows fields)) (Datum.text name) = found' at hfound ⊢
  cases hfound with
  | none => rfl
  | some hvalue => rw [hvalue, Option.map_some]

theorem step?_datum (v : Value) (place : Place) :
    v.datum.step? place = (v.step? place).map datum := by
  cases v with
  | int text => exact Datum.step?_of_isSome_number? (isSome_number?_int text) place
  | float text => exact Datum.step?_of_isSome_number? (isSome_number?_float text) place
  | list items =>
    cases place with
    | item i => rw [datum, items_eq_map, step?, Datum.step?, List.getElem?_map]
    | field name => rfl
  | object fields =>
    cases place with
    | item i => rfl
    | field name => exact field?_rows fields name
  | _ => rfl

/-- **The datum of a value** has at each place the datum of what stands there. -/
theorem at?_datum (v : Value) (p : List Place) : v.datum.at? p = (v.at? p).map datum := by
  induction p generalizing v with
  | nil => rfl
  | cons place p ih =>
    rw [at?, Datum.at?, step?_datum, Option.bind_map, Option.map_bind]
    exact congrArg _ (funext ih)

theorem datum_eq_undefined_iff (v : Value) : v.datum = .undefined ↔ ∃ x, v = .variable x := by
  cases v with
  | «variable» x => exact iff_of_true rfl ⟨x, rfl⟩
  | int text =>
    refine iff_of_false (fun h => ?_) nofun
    have hnumber := isSome_number?_int text
    rw [h] at hnumber
    exact absurd hnumber nofun
  | float text =>
    refine iff_of_false (fun h => ?_) nofun
    have hnumber := isSome_number?_float text
    rw [h] at hnumber
    exact absurd hnumber nofun
  | _ => exact iff_of_false nofun nofun

/-- What is undefined in the datum of a value are its variables. -/
theorem at?_datum_eq_undefined_iff (v : Value) (p : List Place) :
    v.datum.at? p = some .undefined ↔ ∃ x, v.at? p = some (.variable x) := by
  simp only [at?_datum, Option.map_eq_some_iff, datum_eq_undefined_iff]
  exact ⟨fun ⟨_, hp, x, hx⟩ => ⟨x, hx ▸ hp⟩, fun ⟨x, hp⟩ => ⟨_, hp, x, rfl⟩⟩

/-! ## 4. Values that differ in their variables -/

mutual

/-- A value without the names of its variables. -/
def blank : Value → Value
  | .variable _ => .variable ""
  | .list items => .list (blankItems items)
  | .object fields => .object (blankFields fields)
  | v => v

def blankItems : List Value → List Value
  | [] => []
  | v :: vs => v.blank :: blankItems vs

def blankFields : List (String × Value) → List (String × Value)
  | [] => []
  | (name, v) :: fields => (name, v.blank) :: blankFields fields

end

mutual

/-- The datum of a value does not have the names of its variables. -/
theorem datum_blank : ∀ v : Value, v.blank.datum = v.datum
  | .list items => by rw [blank, datum, datum, items_blankItems items]
  | .object fields => by rw [blank, datum, datum, rows_blankFields fields]
  | .variable _ | .int _ | .float _ | .string _ _ | .boolean _ | .null | .enumeration _ => rfl

theorem items_blankItems : ∀ vs : List Value, items (blankItems vs) = items vs
  | [] => rfl
  | v :: vs => by rw [blankItems, items, items, datum_blank v, items_blankItems vs]

theorem rows_blankFields : ∀ fields : List (String × Value),
    rows (blankFields fields) = rows fields
  | [] => rfl
  | (name, v) :: fields => by rw [blankFields, rows, rows, datum_blank v, rows_blankFields fields]

end

/-- What is no variable is described without the names of its variables. -/
theorem describe_blank {v : Value} (h : ∀ x, v ≠ .variable x) : v.blank.describe = v.describe := by
  cases v with
  | «variable» x => exact absurd rfl (h x)
  | list items =>
    rw [blank, describe, describe, ← blank, datum_blank]
  | object fields =>
    rw [blank, describe, describe, ← blank, datum_blank]
  | _ => rfl

theorem blank_eq_variable_iff (v : Value) : v.blank = .variable "" ↔ ∃ x, v = .variable x := by
  cases v with
  | «variable» x => exact iff_of_true rfl ⟨x, rfl⟩
  | _ => exact iff_of_false nofun nofun

/-- **Values that differ in their variables alone** are described alike unless they are different
variables. -/
theorem describe_eq_iff {v w : Value} (hblank : v.blank = w.blank) {d e : ValueDescriptor}
    (hv : v.describe = .ok d) (hw : w.describe = .ok e) :
    d = e ↔ ∀ x, v = .variable x ↔ w = .variable x := by
  by_cases hvariable : ∃ x, v = .variable x
  · obtain ⟨x, rfl⟩ := hvariable
    obtain ⟨y, rfl⟩ := (blank_eq_variable_iff w).mp hblank.symm
    obtain rfl := Except.ok.inj hv
    obtain rfl := Except.ok.inj hw
    simp only [ValueDescriptor.mk.injEq, Datum.text.injEq, true_and, variable.injEq]
    exact ⟨fun h z => h ▸ Iff.rfl, fun h => ((h x).mp rfl).symm⟩
  · have hother : ¬ ∃ y, w = .variable y :=
      fun h => hvariable ((blank_eq_variable_iff v).mp (hblank ▸ (blank_eq_variable_iff w).mpr h))
    have hsame : (.ok d : Except Error ValueDescriptor) = .ok e := by
      rw [← hv, ← hw, ← describe_blank fun x hx => hvariable ⟨x, hx⟩, hblank,
        describe_blank fun y hy => hother ⟨y, hy⟩]
    exact iff_of_true (Except.ok.inj hsame)
      fun x => iff_of_false (fun h => hvariable ⟨x, h⟩) fun h => hother ⟨x, h⟩

/-- What is no variable is described by its datum. -/
theorem value_describe {v : Value} (hother : ∀ x, v ≠ .variable x) {d : ValueDescriptor}
    (h : v.describe = .ok d) : d.value = v.datum := by
  cases v with
  | «variable» x => exact absurd rfl (hother x)
  | int text =>
    simp only [describe, bind_eq_ok, pure_eq_ok] at h
    obtain ⟨number, hnumber, rfl⟩ := h
    rw [datum, hnumber, numberOr]
  | float text =>
    simp only [describe, bind_eq_ok, pure_eq_ok] at h
    obtain ⟨number, hnumber, rfl⟩ := h
    rw [datum, hnumber, numberOr]
  | _ => exact Except.ok.inj h ▸ rfl

end Value

/-! ## 5. The filters of a list field -/

/-- The values of some arguments by name, of several under one name the last. -/
def argumentValues (arguments : List Argument) : Table String Value :=
  Table.ofRows (arguments.map fun a => (a.name, a.value))

def Argument.blank (a : Argument) : Argument := { a with value := a.value.blank }

/-- Arguments that differ in their variables alone have such values. -/
theorem argumentValues_corresponds {arguments arguments' : List Argument}
    (h : arguments.map (·.blank) = arguments'.map (·.blank)) :
    Table.Corresponds Eq (fun v w => v.blank = w.blank) (argumentValues arguments)
      (argumentValues arguments') := by
  refine Table.Corresponds.ofRows Table.sameKeys_eq ?_
  rw [Table.Corresponds, List.forall₂_map_left_iff, List.forall₂_map_right_iff]
  rw [← List.forall₂_eq_eq_eq, List.forall₂_map_left_iff, List.forall₂_map_right_iff] at h
  exact h.imp fun _ _ hsame => Argument.mk.inj hsame

/-- The descriptors of some arguments are those of the values that count. -/
theorem describeArguments_corresponds {arguments : List Argument}
    {filters : Table String ValueDescriptor} (h : describeArguments arguments = .ok filters) :
    Table.Corresponds Eq (fun v d => v.describe = .ok d) (argumentValues arguments) filters := by
  simp only [describeArguments, bind_eq_ok, pure_eq_ok] at h
  obtain ⟨rows, hrows, rfl⟩ := h
  refine Table.Corresponds.ofRows Table.sameKeys_eq ?_
  rw [Table.Corresponds, List.forall₂_map_left_iff]
  refine (mapM_eq_ok.mp hrows).imp fun a row hrow => ?_
  simp only [bind_eq_ok, pure_eq_ok] at hrow
  obtain ⟨d, hd, rfl⟩ := hrow
  exact ⟨rfl, hd⟩

/-- **The filters of calls that differ in their variables alone** are the same if the same variables
are arguments. -/
theorem filters_eq_iff {arguments arguments' : List Argument}
    (hblank : arguments.map (·.blank) = arguments'.map (·.blank))
    {filters filters' : Table String ValueDescriptor}
    (h : describeArguments arguments = .ok filters)
    (h' : describeArguments arguments' = .ok filters') :
    filters = filters' ↔ ∀ name x,
      Table.get? (argumentValues arguments) name = some (.variable x) ↔
        Table.get? (argumentValues arguments') name = some (.variable x) := by
  have hdescribed := describeArguments_corresponds h
  have hdescribed' := describeArguments_corresponds h'
  have hvalues := argumentValues_corresponds hblank
  have hkeys : Table.keys filters = Table.keys filters' := by
    rw [← hdescribed.keys_eq, ← hdescribed'.keys_eq, hvalues.keys_eq]
  have hnodup : (Table.keys filters).Nodup := by
    rw [← hdescribed.keys_eq]
    exact Table.nodup_keys_ofRows _
  have hfound : filters = filters' ↔ ∀ name, Table.get? filters name = Table.get? filters' name :=
    ⟨fun heq _ => heq ▸ rfl, Table.eq_of_get? hkeys hnodup⟩
  rw [hfound]
  refine forall_congr' fun name => ?_
  have hd := hdescribed.get? Table.sameKeys_eq (k := name) rfl
  have hd' := hdescribed'.get? Table.sameKeys_eq (k := name) rfl
  have hv := hvalues.get? Table.sameKeys_eq (k := name) rfl
  generalize Table.get? (argumentValues arguments) name = v at hd hv ⊢
  generalize Table.get? (argumentValues arguments') name = v' at hd' hv ⊢
  generalize Table.get? filters name = d at hd ⊢
  generalize Table.get? filters' name = d' at hd' ⊢
  cases hv with
  | none =>
    cases hd
    cases hd'
    exact iff_of_true rfl fun _ => Iff.rfl
  | some hsame =>
    rcases hd with hd | -
    rcases hd' with hd' | -
    simp only [Option.some.injEq]
    exact Value.describe_eq_iff hsame hd hd'

namespace Compilation

/-- A list field has the descriptions of its arguments for filters. -/
theorem entryHead_describes {x : Compilation} {field : FieldHead} {ss : List Selection}
    {f : SchemaField} {key : String} {masked : Bool} {h : EntryHead} {name : String} {d : Directive}
    (hlist : namedList? x.config field.directives = some (name, d))
    (hh : x.entryHead field ss f key masked = .ok h) :
    ∃ filters, describeArguments field.arguments = .ok filters ∧ h.filters = some filters := by
  obtain ⟨listed, hlisted, hh⟩ := entryHead_eq_ok hh
  rw [EntryHead.withList, hlist] at hlisted
  simp only [bind_eq_ok, pure_eq_ok] at hlisted
  obtain ⟨connection, -, filters, hfilters, rfl⟩ := hlisted
  refine ⟨filters, hfilters, ?_⟩
  split at hh
  · obtain ⟨operations, -, rfl⟩ := hh
    rfl
  · exact hh ▸ rfl

/-- **The filters of a list field** have a descriptor for each of its arguments.  It keeps the name of
a variable that is the whole value.  Where a variable stands inside the value it has an undefined
datum, there and nowhere else.  So two calls that differ in their variables alone have the same
filters if the same variables are arguments, whatever variables are inside. -/
theorem entryHead_filters {x : Compilation} {field : FieldHead} {ss : List Selection}
    {f : SchemaField} {key : String} {masked : Bool} {h : EntryHead} {name : String} {d : Directive}
    (hlist : namedList? x.config field.directives = some (name, d))
    (hh : x.entryHead field ss f key masked = .ok h) :
    ∃ filters, h.filters = some filters ∧
      Table.keys filters = Table.keys (argumentValues field.arguments) ∧
      (∀ argument v descriptor, Table.get? (argumentValues field.arguments) argument = some v →
        Table.get? filters argument = some descriptor →
        (∀ y, v = .variable y → descriptor = ⟨.variable, .text y⟩) ∧
        ((∀ y, v ≠ .variable y) → ∀ p,
          descriptor.value.at? p = some .undefined ↔ ∃ y, v.at? p = some (.variable y))) ∧
      ∀ field' ss' f' key' masked' h' name' d',
        namedList? x.config field'.directives = some (name', d') →
        x.entryHead field' ss' f' key' masked' = .ok h' →
        field.arguments.map (·.blank) = field'.arguments.map (·.blank) →
        (h.filters = h'.filters ↔ ∀ argument y,
          Table.get? (argumentValues field.arguments) argument = some (.variable y) ↔
            Table.get? (argumentValues field'.arguments) argument = some (.variable y)) := by
  obtain ⟨filters, hfilters, hhead⟩ := entryHead_describes hlist hh
  have hdescribed := describeArguments_corresponds hfilters
  refine ⟨filters, hhead, hdescribed.keys_eq.symm, fun argument v descriptor hv hdescriptor => ?_,
    fun field' ss' f' key' masked' h' name' d' hlist' hh' hblank => ?_⟩
  · have hdescribes := hdescribed.get? Table.sameKeys_eq (k := argument) rfl
    rw [hv, hdescriptor] at hdescribes
    obtain ⟨hdescribes⟩ := hdescribes
    refine ⟨fun y hy => ?_, fun hother p => ?_⟩
    · subst hy
      exact (Except.ok.inj hdescribes).symm
    · rw [Value.value_describe hother hdescribes, Value.at?_datum_eq_undefined_iff]
  · obtain ⟨filters', hfilters', hhead'⟩ := entryHead_describes hlist' hh'
    rw [hhead, hhead', Option.some.injEq]
    exact filters_eq_iff hblank hfilters hfilters'

end Compilation

namespace Sample

/-- The field `users(filter: {names: [$name]}, first: $count)` as a list. -/
def usersNamed (name : String) : FieldHead :=
  { label := none, name := "users"
    arguments := [⟨"filter", .object [("names", .list [.variable name])]⟩,
      ⟨"first", .variable "count"⟩]
    directives := [plainDirective "list" [⟨"name", .string "Users" false⟩]] }

/-- How the field is compiled. -/
def usersHead (name : String) : Except Error EntryHead :=
  Compilation.entryHead
    { config := config characters, registry := [], fragments := [], kind := .query }
    (usersNamed name) [] ⟨"users", none, .list (.named "Character")⟩ "users" false

end Sample

open Sample in
theorem usersNamed_filters :
    ∃ h h' filters, usersHead "first" = .ok h ∧ usersHead "second" = .ok h' ∧
      h.filters = some filters ∧ Table.keys filters = ["filter", "first"] ∧
      (∀ descriptor, Table.get? filters "first" = some descriptor →
        descriptor = ⟨.variable, .text "count"⟩) ∧
      (h.filters = h'.filters ↔ ∀ argument y,
        Table.get? (argumentValues (usersNamed "first").arguments) argument = some (.variable y) ↔
          Table.get? (argumentValues (usersNamed "second").arguments) argument
            = some (.variable y)) := by
  have hh : ∃ h, usersHead "first" = .ok h := ⟨_, rfl⟩
  have hh' : ∃ h, usersHead "second" = .ok h := ⟨_, rfl⟩
  obtain ⟨h, hh⟩ := hh
  obtain ⟨h', hh'⟩ := hh'
  obtain ⟨filters, hfilters, hkeys, hdescribed, halike⟩ := Compilation.entryHead_filters rfl hh
  exact ⟨h, h', filters, hh, hh', hfilters, hkeys,
    fun descriptor hd => (hdescribed "first" _ descriptor rfl hd).1 "count" rfl,
    halike _ _ _ _ _ _ _ _ rfl hh' rfl⟩

open Sample in
/-- Two calls that pass different variables have the same filters, with neither of them inside. -/
theorem usersNamed_undefined :
    ∃ h h' filters, usersHead "first" = .ok h ∧ usersHead "second" = .ok h' ∧
      h.filters = some filters ∧ h'.filters = some filters ∧
      Table.get? filters "filter"
        = some ⟨.object, .object [(.text "names", .list [.undefined])]⟩ :=
  ⟨_, _, _, rfl, rfl, rfl, rfl, rfl⟩

end QueryCompiler
