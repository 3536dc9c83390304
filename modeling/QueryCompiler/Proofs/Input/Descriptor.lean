import QueryCompiler.Input.Descriptor
import QueryCompiler.Proofs.Artifact.Reference
/-
# Input descriptors are closed under the fields of input objects

The walk over input objects goes depth first and enters no type twice.  It is defined with a bound on
its depth, and meant without one (`InputWalk.Walks`).  The two are the same, because no walk is deeper
than there are types left to enter (`missing`).

A type is recorded only when it is left, and while the walk is inside of types that refer back to each
other, some that it has entered are not recorded yet.  Once it is through, what it has entered anew is
recorded, each type with all of its fields, and with it the input objects that these refer to
(`InputWalk.Grows`).

* `InputWalk.exists_walks`: every walk comes to an end;
* `inputDescriptor?_describes`: a descriptor knows the input objects of the variables, and with
  each input object all those that its fields refer to.
-/
namespace QueryCompiler

variable {s : Schema} {w w' w'' : InputWalk}

/-- The fields of the input object called `name`. -/
def Schema.inputFields? (s : Schema) (name : String) : Option (List SchemaField) :=
  match s.type? name with
  | some (.inputObject _ fields) => some fields
  | _ => none

theorem Schema.inputFields?_eq_some {name : String} {fields : List SchemaField} :
    s.inputFields? name = some fields ↔ ∃ own, s.type? name = some (.inputObject own fields) := by
  unfold inputFields?
  split
  · rename_i own fields' h
    simp [h]
  · rename_i h
    exact ⟨nofun, fun ⟨own, hown⟩ => absurd hown (h own fields)⟩

/-- The names of the types of a schema. -/
def Schema.typeNames (s : Schema) : List String := s.types.map (·.name)

theorem Schema.mem_typeNames {name : String} {fields : List SchemaField}
    (h : s.inputFields? name = some fields) : name ∈ s.typeNames := by
  obtain ⟨own, hown⟩ := inputFields?_eq_some.mp h
  have hname : (NamedType.inputObject own fields).name = name := by
    simpa using List.find?_some hown
  exact List.mem_map.mpr ⟨_, List.mem_of_find?_eq_some hown, hname⟩

/-! ## 1. The walk without a bound -/

namespace InputWalk

/-- The walk as it is meant, through the types with these names one after the other: an input object
that is new is entered, the types of its fields are walked, and then it is recorded.  No depth is
given, so whether the walk comes to an end is a question of its own (`exists_walks`). -/
inductive Walks (s : Schema) : InputWalk → List String → InputWalk → Prop
  | nil {w : InputWalk} : Walks s w [] w
  | known {w w' : InputWalk} {name : String} {names : List String} :
      name ∈ w.entered → Walks s w names w' → Walks s w (name :: names) w'
  | other {w w' : InputWalk} {name : String} {names : List String} :
      name ∉ w.entered → s.inputFields? name = none →
      Walks s w names w' → Walks s w (name :: names) w'
  | enter {w w' w'' : InputWalk} {name : String} {names : List String}
      {fields : List SchemaField} :
      name ∉ w.entered → s.inputFields? name = some fields →
      Walks s { w with entered := name :: w.entered } (fields.map fun f => f.type.base) w' →
      Walks s { w' with types := Table.insert w'.types name (fieldShape fields) } names w'' →
      Walks s w (name :: names) w''

namespace Walks

variable {names others : List String}

theorem append (h : Walks s w names w') (h' : Walks s w' others w'') :
    Walks s w (names ++ others) w'' := by
  induction h with
  | nil => exact h'
  | known hname _ ih => exact .known hname (ih h')
  | other hname hfields _ ih => exact .other hname hfields (ih h')
  | enter hname hfields hbelow _ _ ih => exact .enter hname hfields hbelow (ih h')

/-- There is one way to walk. -/
theorem unique (h : Walks s w names w') (h' : Walks s w names w'') : w' = w'' := by
  induction h generalizing w'' with
  | nil =>
    cases h'
    rfl
  | known hname _ ih =>
    cases h' with
    | known _ h' => exact ih h'
    | other hnew => exact absurd hname hnew
    | enter hnew => exact absurd hname hnew
  | other hnew hnone _ ih =>
    cases h' with
    | known hname => exact absurd hname hnew
    | other _ _ h' => exact ih h'
    | enter _ hsome => rw [hnone] at hsome; cases hsome
  | enter hnew hsome _ _ ihbelow ih =>
    cases h' with
    | known hname => exact absurd hname hnew
    | other _ hnone => rw [hsome] at hnone; cases hnone
    | enter _ hsome' hbelow' h' =>
      obtain rfl := Option.some.inj (hsome.symm.trans hsome')
      obtain rfl := ihbelow hbelow'
      exact ih h'

theorem keep (h : Walks s w names w') {name : String} (hname : name ∈ w.entered) :
    name ∈ w'.entered := by
  induction h with
  | nil => exact hname
  | known _ _ ih | other _ _ _ ih => exact ih hname
  | enter _ _ _ _ ihbelow ih => exact ih (ihbelow (List.mem_cons_of_mem _ hname))

/-- The input objects that a walk comes to are entered. -/
theorem mem_entered (h : Walks s w names w') {name : String} (hname : name ∈ names)
    (hinput : (s.inputFields? name).isSome) : name ∈ w'.entered := by
  induction h with
  | nil => exact absurd hname List.not_mem_nil
  | known hknown hrest ih =>
    rcases List.mem_cons.mp hname with rfl | hname
    · exact hrest.keep hknown
    · exact ih hname
  | other _ hnone _ ih =>
    rcases List.mem_cons.mp hname with rfl | hname
    · rw [hnone] at hinput
      cases hinput
    · exact ih hname
  | enter _ _ hbelow hrest _ ih =>
    rcases List.mem_cons.mp hname with rfl | hname
    · exact hrest.keep (hbelow.keep List.mem_cons_self)
    · exact ih hname

end Walks

/-! ## 2. The bounded walk is deep enough -/

/-- A walk that may go `depth` types deep is the walk as it is meant, while fewer types than that are
left to enter. -/
theorem walks_foldl_visit (s : Schema) : ∀ (depth : Nat) (names : List String) {w : InputWalk},
    missing s.typeNames w.entered < depth → Walks s w names (names.foldl (visit s depth) w)
  | _, [], _, _ => .nil
  | 0, _ :: _, _, hd => absurd hd (Nat.not_lt_zero _)
  | depth + 1, name :: names, w, hd => by
    rw [List.foldl_cons]
    -- it is enough to walk the first type, because what is entered stays so
    suffices hfirst : Walks s w [name] (w.visit s (depth + 1) name) from
      hfirst.append (walks_foldl_visit s (depth + 1) names
        (Nat.lt_of_le_of_lt (missing_le fun _ => hfirst.keep) hd))
    rw [visit]
    by_cases hname : name ∈ w.entered
    · rw [if_pos hname]
      exact .known hname .nil
    · rw [if_neg hname]
      cases hfields : s.inputFields? name with
      | none =>
        have hother : ∀ own fields, s.type? name ≠ some (.inputObject own fields) := by
          intro own fields h
          have hsome := Schema.inputFields?_eq_some.mpr ⟨own, h⟩
          rw [hfields] at hsome
          cases hsome
        split
        · rename_i own fields h
          exact absurd h (hother own fields)
        · exact .other hname hfields .nil
      | some fields =>
        obtain ⟨own, hown⟩ := Schema.inputFields?_eq_some.mp hfields
        have hlt : missing s.typeNames (name :: w.entered) < missing s.typeNames w.entered :=
          missing_lt (fun _ => List.mem_cons_of_mem _) (Schema.mem_typeNames hfields) hname
            List.mem_cons_self
        have hbelow := walks_foldl_visit s depth (fields.map fun f => f.type.base)
          (w := { w with entered := name :: w.entered }) (by dsimp only; omega)
        rw [List.foldl_map] at hbelow
        simp only [hown]
        exact .enter hname hfields hbelow .nil

/-- **Every walk comes to an end**, however the types refer to each other, and the types of the
schema are enough to go as deep as it does. -/
theorem exists_walks (s : Schema) (names : List String) :
    Walks s { entered := [], types := [] } names
      (names.foldl (visit s (s.types.length + 1)) { entered := [], types := [] }) := by
  refine walks_foldl_visit s _ names (Nat.lt_succ_of_le ?_)
  calc missing s.typeNames [] ≤ s.typeNames.length := List.length_filter_le _ _
    _ = s.types.length := List.length_map _

/-! ## 3. What a walk adds -/

/-- A walk has gone from what was entered and recorded before to what is after it. -/
structure Grows (s : Schema) (w w' : InputWalk) : Prop where
  keep : ∀ name ∈ w.entered, name ∈ w'.entered
  recorded : ∀ name ∈ w'.entered, name ∉ w.entered → ∃ fields, s.inputFields? name = some fields ∧
    Table.get? w'.types name = some (fieldShape fields) ∧
    ∀ f ∈ fields, (s.inputFields? f.type.base).isSome → f.type.base ∈ w'.entered
  others : ∀ name, name ∈ w.entered ∨ name ∉ w'.entered →
    Table.get? w'.types name = Table.get? w.types name

namespace Grows

theorem refl (s : Schema) (w : InputWalk) : Grows s w w where
  keep _ h := h
  recorded _ h hn := absurd h hn
  others _ _ := rfl

theorem trans (h : Grows s w w') (h' : Grows s w' w'') : Grows s w w'' where
  keep name hn := h'.keep name (h.keep name hn)
  recorded name hname hn := by
    by_cases hm : name ∈ w'.entered
    · obtain ⟨fields, hfields, hshape, hbases⟩ := h.recorded name hm hn
      refine ⟨fields, hfields, (h'.others name (.inl hm)).trans hshape, fun f hf hb => ?_⟩
      exact h'.keep _ (hbases f hf hb)
    · exact h'.recorded name hname hm
  others name hn := by
    rcases hn with hn | hn
    · exact (h'.others name (.inl (h.keep name hn))).trans (h.others name (.inl hn))
    · have hn' : name ∉ w'.entered := fun hm => hn (h'.keep name hm)
      exact (h'.others name (.inr hn)).trans (h.others name (.inr hn'))

/-- A type is entered, the types of its fields are walked, and then it is recorded. -/
theorem enter {name : String} {fields : List SchemaField}
    (hfields : s.inputFields? name = some fields) (hnew : name ∉ w.entered)
    (h : Grows s { w with entered := name :: w.entered } w')
    (hbases : ∀ f ∈ fields, (s.inputFields? f.type.base).isSome → f.type.base ∈ w'.entered) :
    Grows s w { w' with types := Table.insert w'.types name (fieldShape fields) } where
  keep other ho := h.keep other (List.mem_cons_of_mem _ ho)
  recorded other ho hn := by
    by_cases he : other = name
    · subst he
      exact ⟨fields, hfields, Table.get?_insert_self .., hbases⟩
    · obtain ⟨fields', hfields', hshape, hbases'⟩ :=
        h.recorded other ho fun hm => (List.mem_cons.mp hm).elim he hn
      exact ⟨fields', hfields', (Table.get?_insert_of_ne _ _ (Ne.symm he)).trans hshape, hbases'⟩
  others other ho := by
    have hne : name ≠ other := by
      rintro rfl
      exact ho.elim hnew fun hn => hn (h.keep name List.mem_cons_self)
    refine (Table.get?_insert_of_ne _ _ hne).trans (h.others other ?_)
    exact ho.imp_left (List.mem_cons_of_mem _)

end Grows

theorem Walks.grows {names : List String} (h : Walks s w names w') : Grows s w w' := by
  induction h with
  | nil => exact .refl s _
  | known _ _ ih | other _ _ _ ih => exact ih
  | enter hname hfields hbelow _ ihbelow ih =>
    refine (Grows.enter hfields hname ihbelow fun f hf => ?_).trans ih
    exact hbelow.mem_entered (List.mem_map_of_mem hf)

end InputWalk

/-! ## 4. Descriptors -/

/-- A descriptor knows a type if this is no input object, or is recorded. -/
def InputDescriptor.Knows (d : InputDescriptor String) (s : Schema) (type : String) : Prop :=
  (s.inputFields? type).isSome → (Table.get? d.types type).isSome

/-- What a descriptor says of some variables. -/
structure InputDescriptor.Describes (d : InputDescriptor String) (s : Schema)
    (declarations : List VariableDefinition) : Prop where
  fields : d.fields = Table.ofRows (declarations.map fun v => (v.name, v.type.base))
  declared : ∀ v ∈ declarations, d.Knows s v.type.base
  closed : ∀ type shape, Table.get? d.types type = some shape → ∃ fields,
    s.inputFields? type = some fields ∧ shape = fieldShape fields ∧
      ∀ f ∈ fields, d.Knows s f.type.base

/-- What a walk from the start has entered is what it has recorded. -/
theorem InputWalk.Grows.isSome_iff (h : Grows s { entered := [], types := [] } w) {name : String} :
    (Table.get? w.types name).isSome ↔ name ∈ w.entered := by
  constructor
  · intro hsome
    by_contra hn
    rw [h.others name (.inr hn)] at hsome
    exact absurd hsome nofun
  · intro hname
    obtain ⟨fields, -, hshape, -⟩ := h.recorded name hname List.not_mem_nil
    exact hshape ▸ rfl

/-- **A descriptor is closed.**  From the variables on, every input object that is referred to is
recorded, however deep and wherever the types refer back to each other. -/
theorem inputDescriptor?_describes {declarations : List VariableDefinition}
    {d : InputDescriptor String} (h : inputDescriptor? s declarations = some d) :
    d.Describes s declarations := by
  unfold inputDescriptor? at h
  split at h
  · exact absurd h nofun
  · rw [Option.some.injEq] at h
    have hwalks := InputWalk.exists_walks s (declarations.map fun v => v.type.base)
    simp only [List.foldl_map] at hwalks h
    generalize declarations.foldl _ _ = w at hwalks h
    have hgrow := hwalks.grows
    subst h
    refine ⟨rfl, fun v hv hinput => ?_, fun type shape hshape => ?_⟩
    · exact hgrow.isSome_iff.mpr (hwalks.mem_entered (List.mem_map_of_mem hv) hinput)
    · have htype : type ∈ w.entered := hgrow.isSome_iff.mp (hshape ▸ rfl)
      obtain ⟨fields, hfields, hshape', hbases⟩ := hgrow.recorded type htype List.not_mem_nil
      refine ⟨fields, hfields, Option.some.inj (hshape.symm.trans hshape'), fun f hf hinput => ?_⟩
      exact hgrow.isSome_iff.mpr (hbases f hf hinput)

end QueryCompiler
