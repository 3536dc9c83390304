import Mathlib.Data.List.Nodup
import Mathlib.Logic.Relation
import QueryCompiler.Proofs.Input.Descriptor
import QueryCompiler.Proofs.Scalar.Variables
/-
# Input descriptors hold what the variables reach

A descriptor holds the input objects that the variables lead to through fields, and no others.  They
come in the order in which the walk leaves them: a type stands behind those that it refers to.  Where
types refer to each other in a circle that cannot be, and the walk makes no more exceptions than the
circle forces on it.

The argument for the order looks at the types that the walk is inside of: entered, and not recorded
yet.  Each of them leads to what the walk comes to next (`InputWalk.Inside`).  So when a type is
recorded, all that it refers to is recorded already, or leads back to it (`InputWalk.Ordered`).

* `inputDescriptor?_reached`: what a descriptor holds, and in what order.
-/
namespace QueryCompiler

variable {s : Schema} {w w' : InputWalk} {names : List String}

/-! ## 1. References between types -/

/-- An input object has a field of a type. -/
def Schema.RefersTo (s : Schema) (type other : String) : Prop :=
  ∃ fields, s.inputFields? type = some fields ∧ ∃ f ∈ fields, f.type.base = other

/-- A type leads to another one, or to itself, through any number of fields. -/
def Schema.Reaches (s : Schema) : String → String → Prop := Relation.ReflTransGen s.RefersTo

/-! ## 2. What is entered -/

namespace InputWalk

/-- Nothing is entered but what the walk is led to. -/
theorem Walks.reaches (h : Walks s w names w') {name : String} (hname : name ∈ w'.entered) :
    name ∈ w.entered ∨ ∃ start ∈ names, s.Reaches start name := by
  induction h with
  | nil => exact .inl hname
  | known _ _ ih | other _ _ _ ih =>
    rcases ih hname with hold | ⟨start, hstart, hreach⟩
    · exact .inl hold
    · exact .inr ⟨start, List.mem_cons_of_mem _ hstart, hreach⟩
  | @enter _ _ _ type _ fields _ hfields _ _ ihbelow ih =>
    rcases ih hname with hbelow | ⟨start, hstart, hreach⟩
    · rcases ihbelow hbelow with hold | ⟨base, hbase, hreach⟩
      · rcases List.mem_cons.mp hold with rfl | hold
        · exact .inr ⟨name, List.mem_cons_self, .refl⟩
        · exact .inl hold
      · obtain ⟨f, hf, rfl⟩ := List.mem_map.mp hbase
        exact .inr ⟨type, List.mem_cons_self, .head ⟨fields, hfields, f, hf, rfl⟩ hreach⟩
    · exact .inr ⟨start, List.mem_cons_of_mem _ hstart, hreach⟩

/-! ## 3. The order of what is recorded -/

/-- The walk is inside of a type: it has entered it, and not recorded it yet. -/
def IsInside (w : InputWalk) (name : String) : Prop :=
  name ∈ w.entered ∧ name ∉ Table.keys w.types

/-- All types that the walk is inside of lead to the ones that it comes to next. -/
def Inside (s : Schema) (w : InputWalk) (names : List String) : Prop :=
  ∀ outer, w.IsInside outer → ∀ name ∈ names, s.Reaches outer name

/-- A recorded type stands behind the input objects that it refers to, unless they lead back to it. -/
structure Ordered (s : Schema) (w : InputWalk) : Prop where
  nodup : (Table.keys w.types).Nodup
  entered : ∀ name ∈ Table.keys w.types, name ∈ w.entered
  behind : ∀ type ∈ Table.keys w.types, ∀ other, s.RefersTo type other →
    (s.inputFields? other).isSome →
    (Table.keys w.types).idxOf other < (Table.keys w.types).idxOf type ∨ s.Reaches other type

theorem ordered_start (s : Schema) : Ordered s { entered := [], types := [] } where
  nodup := List.nodup_nil
  entered _ h := absurd h List.not_mem_nil
  behind _ h := absurd h List.not_mem_nil

/-- What the walk is inside of after it, it was inside of before. -/
theorem Grows.isInside (h : Grows s w w') {name : String} (hname : w'.IsInside name) :
    w.IsInside name := by
  have hnone := (Table.get?_eq_none_iff _ _).mpr hname.2
  by_cases hold : name ∈ w.entered
  · refine ⟨hold, (Table.get?_eq_none_iff _ _).mp ?_⟩
    rw [← h.others name (.inl hold), hnone]
  · obtain ⟨fields, -, hshape, -⟩ := h.recorded name hname.1 hold
    rw [hshape] at hnone
    cases hnone

/-- What the walk was inside of before, it is not recorded by it. -/
theorem Grows.notMem_keys (h : Grows s w w') {name : String} (hname : w.IsInside name) :
    name ∉ Table.keys w'.types := by
  rw [← Table.get?_eq_none_iff, h.others name (.inl hname.1), Table.get?_eq_none_iff]
  exact hname.2

/-- While the walk goes through the fields of a type that it has entered, it is inside of this type
too, which leads to them. -/
theorem Inside.enter {name : String} {fields : List SchemaField}
    (hinside : Inside s w (name :: names)) (hfields : s.inputFields? name = some fields) :
    Inside s { w with entered := name :: w.entered } (fields.map fun f => f.type.base) := by
  intro outer houter base hbase
  obtain ⟨f, hf, rfl⟩ := List.mem_map.mp hbase
  have hrefers : s.RefersTo name f.type.base := ⟨fields, hfields, f, hf, rfl⟩
  rcases List.mem_cons.mp houter.1 with rfl | hold
  · exact .single hrefers
  · exact (hinside outer ⟨hold, houter.2⟩ name List.mem_cons_self).tail hrefers

/-- When a type is recorded, what it refers to is recorded before it, or leads back to it. -/
theorem Ordered.record {name : String} {fields : List SchemaField}
    (hinside : Inside s w (name :: names)) (hnew : name ∉ w.entered) (hw : Ordered s w)
    (hfields : s.inputFields? name = some fields)
    (hbelow : Walks s { w with entered := name :: w.entered } (fields.map fun f => f.type.base) w')
    (hw' : Ordered s w') :
    Ordered s { w' with types := Table.insert w'.types name (fieldShape fields) } := by
  have hinsideName : IsInside { w with entered := name :: w.entered } name :=
    ⟨List.mem_cons_self, fun hkey => hnew (hw.entered name hkey)⟩
  have hname : name ∉ Table.keys w'.types := hbelow.grows.notMem_keys hinsideName
  have hkeys : Table.keys (Table.insert w'.types name (fieldShape fields))
      = Table.keys w'.types ++ [name] := by
    rw [Table.keys_insert, if_neg hname]
  refine ⟨?_, fun other hother => ?_, fun type htype other hrefers hinput => ?_⟩
  · rw [hkeys]
    exact List.nodup_append.mpr ⟨hw'.nodup, List.nodup_singleton _, fun a ha b hb hab =>
      hname (List.mem_singleton.mp hb ▸ hab ▸ ha)⟩
  · rw [hkeys] at hother
    rcases List.mem_append.mp hother with hold | hlast
    · exact hw'.entered other hold
    · rw [List.mem_singleton.mp hlast]
      exact hbelow.keep List.mem_cons_self
  · rw [hkeys] at htype ⊢
    rcases List.mem_append.mp htype with hold | hlast
    · refine (hw'.behind type hold other hrefers hinput).imp_left fun hlt => ?_
      have hother : other ∈ Table.keys w'.types :=
        List.idxOf_lt_length_iff.mp (Nat.lt_trans hlt (List.idxOf_lt_length_iff.mpr hold))
      rwa [List.idxOf_append_of_mem hother, List.idxOf_append_of_mem hold]
    · obtain rfl := List.mem_singleton.mp hlast
      obtain ⟨fields', hfields', f, hf, rfl⟩ := hrefers
      obtain rfl := Option.some.inj (hfields.symm.trans hfields')
      have hentered := hbelow.mem_entered (List.mem_map_of_mem hf) hinput
      by_cases hrecorded : f.type.base ∈ Table.keys w'.types
      · left
        rw [List.idxOf_append_of_mem hrecorded, List.idxOf_append_of_notMem hname]
        exact Nat.lt_add_right _ (List.idxOf_lt_length_iff.mpr hrecorded)
      · -- the walk is still inside of the type that is referred to
        have hopen := hbelow.grows.isInside ⟨hentered, hrecorded⟩
        rcases List.mem_cons.mp hopen.1 with hsame | hold
        · exact .inr (hsame ▸ .refl)
        · exact .inr (hinside _ ⟨hold, hopen.2⟩ type List.mem_cons_self)

/-- **The order is kept by every walk** that comes to what its outer types lead to. -/
theorem Walks.ordered (h : Walks s w names w') (hw : Ordered s w) (hinside : Inside s w names) :
    Ordered s w' := by
  induction h with
  | nil => exact hw
  | known _ _ ih | other _ _ _ ih =>
    exact ih hw fun outer houter name hname =>
      hinside outer houter name (List.mem_cons_of_mem _ hname)
  | @enter w w' _ name names fields hnew hfields hbelow _ ihbelow ih =>
    have hentered : Ordered s { w with entered := name :: w.entered } :=
      ⟨hw.nodup, fun other ho => List.mem_cons_of_mem _ (hw.entered other ho), hw.behind⟩
    have hw' := ihbelow hentered (hinside.enter hfields)
    refine ih (hw.record hinside hnew hfields hbelow hw') fun outer houter other hother => ?_
    -- the type that was just recorded is the only one that the walk has come out of
    have houter' : w'.IsInside outer := by
      refine ⟨houter.1, fun hkey => houter.2 ?_⟩
      rw [Table.keys_insert]
      split
      · exact hkey
      · exact List.mem_append_left _ hkey
    have hopen := hbelow.grows.isInside houter'
    have hne : outer ≠ name := by
      rintro rfl
      exact houter.2 (Table.mem_keys_of_get? (Table.get?_insert_self _ _ _))
    exact hinside outer ⟨(List.mem_cons.mp hopen.1).resolve_left hne, hopen.2⟩ other
      (List.mem_cons_of_mem _ hother)

end InputWalk

/-! ## 4. Descriptors -/

/-- A descriptor that knows a type knows all that this type leads to. -/
theorem InputDescriptor.Describes.knows_reached {d : InputDescriptor String}
    {declarations : List VariableDefinition} (h : d.Describes s declarations) {type other : String}
    (hreach : s.Reaches type other) (hknows : d.Knows s type) : d.Knows s other := by
  induction hreach with
  | refl => exact hknows
  | tail _ hrefers ih =>
    obtain ⟨fields, hfields, f, hf, rfl⟩ := hrefers
    obtain ⟨shape, hshape⟩ := Option.isSome_iff_exists.mp (ih (hfields ▸ rfl))
    obtain ⟨fields', hfields', -, hbases⟩ := h.closed _ _ hshape
    obtain rfl := Option.some.inj (hfields.symm.trans hfields')
    exact hbases f hf

/-- **What a descriptor holds.**  For an operation that declares variables there is a descriptor, and
one walk makes it, which comes to an end by itself.  It has the named types of all variables in the
order of their declaration, and exactly the input objects that these lead to, each once, with the
named types of all fields in the order of their declaration.  A type refers to one that is recorded
behind it only if that leads back to it. -/
theorem inputDescriptor?_reached {declarations : List VariableDefinition}
    (hdeclared : declarations ≠ []) (hdistinct : (declarations.map (·.name)).Nodup) :
    ∃ (d : InputDescriptor String) (walk : InputWalk),
      inputDescriptor? s declarations = some d ∧
      (∀ w, InputWalk.Walks s { entered := [], types := [] } (declarations.map (·.type.base)) w ↔
        w = walk) ∧
      d.types = walk.types ∧
      d.fields = declarations.map (fun v => (v.name, v.type.base)) ∧
      (Table.keys d.types).Nodup ∧
      (∀ type, type ∈ Table.keys d.types ↔ (s.inputFields? type).isSome ∧
        ∃ v ∈ declarations, s.Reaches v.type.base type) ∧
      (∀ row ∈ d.types, ∃ fields, s.inputFields? row.1 = some fields ∧
        row.2 = fields.map fun f => (f.name, f.type.base)) ∧
      ∀ type ∈ Table.keys d.types, ∀ other ∈ Table.keys d.types, s.RefersTo type other →
        (Table.keys d.types).idxOf type < (Table.keys d.types).idxOf other →
        s.Reaches other type := by
  have hwalks := InputWalk.exists_walks s (declarations.map (·.type.base))
  obtain ⟨d, hd⟩ : ∃ d, inputDescriptor? s declarations = some d := by
    rw [inputDescriptor?, if_neg (by simpa using hdeclared)]
    exact ⟨_, rfl⟩
  have htypes : d.types = ((declarations.map (·.type.base)).foldl
      (InputWalk.visit s (s.types.length + 1)) { entered := [], types := [] }).types := by
    rw [inputDescriptor?, if_neg (by simpa using hdeclared), Option.some.injEq] at hd
    rw [← hd, List.foldl_map, List.foldl_map]
  generalize (declarations.map (·.type.base)).foldl _ _ = walk at hwalks htypes
  have hdescribes := inputDescriptor?_describes hd
  have hordered := hwalks.ordered (InputWalk.ordered_start s) fun outer houter =>
    absurd houter.1 List.not_mem_nil
  have hinput : ∀ type ∈ Table.keys d.types, (s.inputFields? type).isSome := by
    intro type htype
    rw [htypes] at htype
    obtain ⟨fields, hfields, -⟩ :=
      hwalks.grows.recorded type (hordered.entered type htype) List.not_mem_nil
    rw [hfields]
    rfl
  refine ⟨d, walk, hd, fun w => ⟨fun h => h.unique hwalks, fun h => h ▸ hwalks⟩, htypes, ?_, ?_,
    fun type => ⟨fun htype => ⟨hinput type htype, ?_⟩, fun hled => ?_⟩,
    fun row hrow => ?_, fun type htype other hother hrefers hlt => ?_⟩
  · rw [hdescribes.fields, Table.ofRows_of_nodup]
    rw [Table.keys, List.map_map]
    exact hdistinct
  · rw [htypes]
    exact hordered.nodup
  · rw [htypes] at htype
    rcases hwalks.reaches (hordered.entered type htype) with hstart | ⟨base, hbase, hreach⟩
    · exact absurd hstart List.not_mem_nil
    · obtain ⟨v, hv, rfl⟩ := List.mem_map.mp hbase
      exact ⟨v, hv, hreach⟩
  · obtain ⟨htype, v, hv, hreach⟩ := hled
    have hknows := hdescribes.knows_reached hreach (hdescribes.declared v hv)
    obtain ⟨shape, hshape⟩ := Option.isSome_iff_exists.mp (hknows htype)
    exact Table.mem_keys_of_get? hshape
  · have hget := Table.get?_of_mem (htypes ▸ hordered.nodup) hrow
    obtain ⟨fields, hfields, hshape, -⟩ := hdescribes.closed _ _ hget
    exact ⟨fields, hfields, hshape⟩
  · rw [htypes] at htype hlt
    exact (hordered.behind type htype other hrefers (hinput other hother)).resolve_left
      (Nat.lt_asymm hlt)

/-! ## 5. Filters and authors -/

open Sample in
/-- Filters refer to authors, and authors to filters.  Authors come first, because the walk is still
inside of filters when it leaves them; what they refer to behind them leads back to them. -/
theorem searched_reached :
    ∃ d, inputDescriptor? filters searched = some d ∧
      d.fields = [("days", "Date"), ("filter", "Filter"), ("limit", "Int")] ∧
      Table.keys d.types = ["Author", "Filter"] ∧
      filters.RefersTo "Author" "Filter" ∧ filters.Reaches "Filter" "Author" := by
  have hdeclared : searched ≠ [] := by decide
  have hdistinct : (searched.map (·.name)).Nodup := by decide
  obtain ⟨d, walk, hd, -, -, hfields, -, -, -, hbehind⟩ :=
    inputDescriptor?_reached (s := filters) hdeclared hdistinct
  have hkeys : Table.keys d.types = ["Author", "Filter"] := by
    have hall : (inputDescriptor? filters searched).map (fun d => Table.keys d.types)
        = some ["Author", "Filter"] := by decide
    rw [hd] at hall
    exact Option.some.inj hall
  have hrefers : filters.RefersTo "Author" "Filter" :=
    ⟨_, rfl, _, List.mem_cons_of_mem _ List.mem_cons_self, rfl⟩
  refine ⟨d, hd, hfields, hkeys, hrefers, hbehind _ ?_ _ ?_ hrefers ?_⟩
  · simp [hkeys]
  · simp [hkeys]
  · rw [hkeys]
    decide

end QueryCompiler
