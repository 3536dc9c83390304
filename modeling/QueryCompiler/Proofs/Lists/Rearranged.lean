import QueryCompiler.Proofs.Lists.Generated
import QueryCompiler.Proofs.Rearranged
import QueryCompiler.Selection.Operation
/-
# Registries in another order

The names of what is generated for a list are read back in the same way from the same lists in
another order: a name has one list and one action, and a directive deletes records of one type.

A guard of a deletion is not on one list.  The first list of the type that declares its argument
says how it is read, and which one comes first depends on the order.  So where two lists with members
of one type declare one argument, they have to read guards on it alike (`Registry.ReadsAlike`).

* `operation?_rearranged`, `deletedType?_rearranged`: names in another order;
* `listOperations_rearranged`: what fields of mutations ask for.
-/
namespace QueryCompiler

/-! ## 1. Names -/

/-- A text is cut in one way where the length of its end is given. -/
theorem append_inj_of_length {a a' s s' : String} (h : a ++ s = a' ++ s')
    (hlength : s.toList.length = s'.toList.length) : a = a' ∧ s = s' := by
  have hlists := congrArg String.toList h
  rw [String.toList_append, String.toList_append] at hlists
  obtain ⟨ha, hs⟩ := List.append_inj' hlists hlength
  exact ⟨String.toList_inj.mp ha, String.toList_inj.mp hs⟩

/-- A name with an action is of one list and one action. -/
theorem actionName_inj {list list' : String} {a a' : ListAction}
    (h : list ++ ("_" ++ a.name) = list' ++ ("_" ++ a'.name)) : list = list' ∧ a = a' := by
  obtain ⟨hlist, haction⟩ := append_inj_of_length h (by cases a <;> cases a' <;> decide)
  exact ⟨hlist, by cases a <;> cases a' <;> first | rfl | exact absurd haction (by decide)⟩

variable {c : Config} {r r' : Registry}

/-- Lists with different names share no name of a generated fragment. -/
theorem nodup_generatedNames {names : List String} (h : names.Nodup) :
    (names.flatMap c.generatedNames).Nodup := by
  have hnames : c.generatedNames = fun name =>
      [ListAction.insert, .toggle, .remove].map fun a => name ++ ("_" ++ a.name) := rfl
  rw [hnames]
  refine List.nodup_flatMap.mpr ⟨fun name _ => ?_, h.imp fun {name name'} hne => ?_⟩
  · exact List.Nodup.map (fun a a' ha => (actionName_inj ha).2) (by decide)
  · intro fragment hfragment hfragment'
    obtain ⟨a, -, rfl⟩ := List.mem_map.mp hfragment
    obtain ⟨a', -, ha'⟩ := List.mem_map.mp hfragment'
    exact hne (actionName_inj ha').1.symm

/-- The list and the action under a name. -/
theorem operation?_rearranged (h : Table.Rearranged r r') (fragment : String) :
    r.operation? c fragment = r'.operation? c fragment := by
  refine findSome?_eq (fun name => h.keys_perm.mem_iff) fun name _ name' _ found found' hf hf' => ?_
  obtain ⟨hlist, haction⟩ :=
    actionName_inj ((eq_of_generated hf).symm.trans (eq_of_generated hf'))
  exact Prod.ext hlist haction

/-- The types that records are deleted of are the object types of members. -/
theorem mem_targetTypes {name : String} : name ∈ r.targetTypes ↔
    ∃ row ∈ r, ∃ type, row.2.type = some type ∧ type.isObject = true ∧ type.name = name := by
  have hfold : ∀ (types : List NamedType) (names : List String),
      name ∈ types.foldl (fun names type =>
          if type.isObject && type.name ∉ names then names ++ [type.name] else names) names
        ↔ name ∈ names ∨ ∃ type ∈ types, type.isObject = true ∧ type.name = name := by
    intro types
    induction types with
    | nil => simp
    | cons type types ih =>
      intro names
      rw [List.foldl_cons, ih, List.exists_mem_cons_iff, ← or_assoc]
      refine or_congr_left ?_
      by_cases hobject : type.isObject = true <;> by_cases hin : type.name ∈ names <;>
        simp only [hobject, hin] <;> grind
  rw [Registry.targetTypes, hfold]
  simp only [List.not_mem_nil, false_or, List.mem_filterMap]
  constructor
  · rintro ⟨type, ⟨row, hrow, htype⟩, hobject, hname⟩
    exact ⟨row, hrow, type, htype, hobject, hname⟩
  · rintro ⟨row, hrow, type, htype, hobject, hname⟩
    exact ⟨type, ⟨row, hrow, htype⟩, hobject, hname⟩

/-- The type whose records a directive deletes. -/
theorem deletedType?_rearranged (h : Table.Rearranged r r') (directive : String) :
    r.deletedType? c directive = r'.deletedType? c directive := by
  have hmem : ∀ type, type ∈ r.targetTypes ↔ type ∈ r'.targetTypes := fun type => by
    rw [mem_targetTypes, mem_targetTypes]
    exact exists_congr fun row => and_congr_left fun _ => h.perm.mem_iff
  rw [Registry.deletedType?, Registry.deletedType?, List.find?_eq_findSome?_guard,
    List.find?_eq_findSome?_guard]
  refine findSome?_eq hmem fun type _ type' _ found found' hf hf' => ?_
  simp only [Option.guard_eq_some_iff, decide_eq_true_eq] at hf hf'
  obtain ⟨rfl, hf⟩ := hf
  obtain ⟨rfl, hf'⟩ := hf'
  exact (append_inj_of_length (hf.symm.trans hf') rfl).1

/-! ## 2. Guards -/

/-- Without a declared type a value stays as it is. -/
theorem coerceGuard_none (d : Datum) : coerceGuard d none = .ok d := by
  cases d <;> rfl

/-- Lists with members of one type that declare one argument read guards on it alike. -/
def Registry.ReadsAlike (r : Registry) : Prop :=
  ∀ row ∈ r, ∀ row' ∈ r, ∀ member member', row.2.type = some member → row'.2.type = some member' →
    member.name = member'.name → ∀ argument type type',
      Table.get? row.2.arguments argument = some type →
      Table.get? row'.2.arguments argument = some type' →
        ∀ d, coerceGuard d (some type) = coerceGuard d (some type')

theorem Registry.ReadsAlike.of_perm (h : r.ReadsAlike) (hperm : r.Perm r') : r'.ReadsAlike :=
  fun row hrow row' hrow' => h row (hperm.mem_iff.mpr hrow) row' (hperm.mem_iff.mpr hrow')

/-- The type of an argument, if the list has members of a type and declares it. -/
def ListDefinition.declared? (l : ListDefinition) (target : Option String) (argument : String) :
    Option String :=
  match l.type with
  | none => none
  | some member => if some member.name = target then Table.get? l.arguments argument else none

theorem declared?_eq_some {l : ListDefinition} {target : Option String} {argument type : String} :
    l.declared? target argument = some type ↔ ∃ member, l.type = some member ∧
      some member.name = target ∧ Table.get? l.arguments argument = some type := by
  rw [ListDefinition.declared?]
  cases l.type with
  | none => exact ⟨nofun, fun ⟨_, h, _⟩ => absurd h nofun⟩
  | some member =>
    simp only [Option.some.injEq, exists_eq_left', Option.ite_none_right_eq_some]

/-- All lists have members of some type. -/
def Registry.Typed (r : Registry) : Prop := ∀ row ∈ r, row.2.type.isSome = true

/-- Fragments are only generated for lists with members of some type. -/
theorem Generates.typed {new : List Document} (h : Generates c r new) : r.Typed := by
  obtain ⟨fragments, hfragments, -⟩ := fragmentsOf_listDefinitions h.definitions
  intro row hrow
  obtain ⟨definitions, hdefinitions⟩ := exists_mapM_eq_ok.mp ⟨fragments, hfragments⟩ row hrow
  rw [listFragments] at hdefinitions
  split at hdefinitions
  · exact absurd hdefinitions error_ne_ok
  · split at hdefinitions
    · exact absurd hdefinitions error_ne_ok
    · rename_i htype
      exact htype ▸ rfl

/-- The first list that declares an argument says its type. -/
theorem firstArgumentType_text (target : Option String) (argument : String) : ∀ {r : Registry},
    r.Typed → Registry.firstArgumentType (.text argument) target r
      = .ok (r.findSome? fun row => row.2.declared? target argument)
  | [], _ => rfl
  | (name, l) :: r, hr => by
    obtain ⟨hl, hr⟩ := List.forall_mem_cons.mp hr
    obtain ⟨member, hmember⟩ := Option.isSome_iff_exists.mp hl
    have ih := firstArgumentType_text target argument hr
    rw [Registry.firstArgumentType, List.findSome?_cons, ListDefinition.declared?, hmember]
    dsimp only
    split
    · rw [ListDefinition.argumentType]
      cases Table.get? l.arguments argument with
      | none => exact ih
      | some type => rfl
    · exact ih

/-- No list declares an argument that is no text. -/
theorem firstArgumentType_other {key : Datum} (hkey : ∀ argument, key ≠ .text argument)
    (target : Option String) : ∀ {r : Registry}, r.Typed →
      Registry.firstArgumentType key target r = .ok none ∨
        key.isKey = false ∧ Registry.firstArgumentType key target r = .error .notAKey
  | [], _ => .inl rfl
  | (name, l) :: r, hr => by
    obtain ⟨hl, hr⟩ := List.forall_mem_cons.mp hr
    obtain ⟨member, hmember⟩ := Option.isSome_iff_exists.mp hl
    have hargument : l.argumentType key = if key.isKey then .ok none else .error .notAKey := by
      cases key with
      | text argument => exact absurd rfl (hkey argument)
      | _ => rfl
    rw [Registry.firstArgumentType, hmember]
    dsimp only
    split
    · rw [hargument]
      by_cases hiskey : key.isKey = true
      · rw [if_pos hiskey]
        exact firstArgumentType_other hkey target hr
      · rw [if_neg hiskey]
        exact .inr ⟨Bool.eq_false_iff.mpr hiskey, rfl⟩
    · exact firstArgumentType_other hkey target hr

namespace GuardScope

/-- Guards are on the same lists if every single one is read alike. -/
theorem guards_congr {s s' : GuardScope} (h : ∀ g kind argument value,
    s.add g kind argument value = s'.add g kind argument value) (directives : List Directive) :
    s.guards c directives = s'.guards c directives := by
  have hobject : ∀ g kind value, s.addObject g kind value = s'.addObject g kind value := by
    intro g kind value
    unfold addObject
    split
    · exact h _ _ _ _
    · rfl
  simp only [guards, hobject, h]

/-- A guard on a list does not depend on the order. -/
theorem add_list (h : Table.Rearranged r r') (name : String) (type : Option String) (g : Guards)
    (kind : GuardKind) (argument value : Option Value) :
    add { registry := r, list := some name, type } g kind argument value
      = add { registry := r', list := some name, type } g kind argument value := by
  simp only [add, Registry.argumentType, h.get?_eq]

/-- An argument that is no text is declared nowhere, and the value stays as it is. -/
theorem add_other {argument : Value} (hother : ∀ name, argument.datum ≠ .text name) (hr : r.Typed)
    (type : Option String) (g : Guards) (kind : GuardKind) (value : Value) :
    add { registry := r, list := none, type } g kind (some argument) (some value)
      = if argument.datum.isKey then .ok (g.add kind argument.datum value.datum)
        else .error .notAKey := by
  simp only [add, Registry.argumentType]
  rcases firstArgumentType_other hother type hr with hnone | ⟨hkey, herror⟩
  · simp only [hnone, bind, Except.bind, coerceGuard_none]
    rfl
  · rw [herror, hkey]
    rfl

/-- **A guard on all lists of a type** does not depend on the order, if they read it alike. -/
theorem add_type (h : Table.Rearranged r r') (htyped : r.Typed) (halike : r.ReadsAlike)
    (type : Option String) (g : Guards) (kind : GuardKind) (argument value : Option Value) :
    add { registry := r, list := none, type } g kind argument value
      = add { registry := r', list := none, type } g kind argument value := by
  have htyped' : r'.Typed := fun row hrow => htyped row (h.perm.mem_iff.mpr hrow)
  cases argument with
  | none => rfl
  | some argument =>
    cases value with
    | none => rfl
    | some value =>
      by_cases htext : ∃ name, argument.datum = .text name
      · obtain ⟨name, hname⟩ := htext
        have halike' : ∀ row ∈ r, ∀ row' ∈ r, ∀ t t', row.2.declared? type name = some t →
            row'.2.declared? type name = some t' →
              ∀ d, coerceGuard d (some t) = coerceGuard d (some t') := by
          intro row hrow row' hrow' t t' hdeclared hdeclared'
          obtain ⟨member, hmember, htarget, ht⟩ := declared?_eq_some.mp hdeclared
          obtain ⟨member', hmember', htarget', ht'⟩ := declared?_eq_some.mp hdeclared'
          exact halike row hrow row' hrow' member member' hmember hmember'
            (Option.some.inj (htarget.trans htarget'.symm)) name t t' ht ht'
        have hrel := rel_findSome? (fun row => h.perm.mem_iff) halike'
        simp only [add, Registry.argumentType, hname, firstArgumentType_text type name htyped,
          firstArgumentType_text type name htyped']
        revert hrel
        generalize r.findSome? (fun row => row.2.declared? type name) = t,
          r'.findSome? (fun row => row.2.declared? type name) = t'
        rintro (hsame | _)
        · simp only [bind, Except.bind, hsame]
        · rfl
      · have hother : ∀ name, argument.datum ≠ .text name := fun name hname => htext ⟨name, hname⟩
        rw [add_other hother htyped, add_other hother htyped']

end GuardScope

/-! ## 3. List operations -/

/-- **What the fields of a mutation ask for** does not depend on the order of lists that read guards
alike. -/
theorem listOperations_rearranged (h : Table.Rearranged r r') (htyped : r.Typed)
    (halike : r.ReadsAlike) (directives : List Directive) (selections : List Selection) :
    listOperations c r directives selections = listOperations c r' directives selections := by
  have hdeletion : ∀ d, deletion? c r directives d = deletion? c r' directives d := fun d => by
    rw [deletion?, deletion?, deletedType?_rearranged h]
    cases r'.deletedType? c d.name with
    | none => rfl
    | some type =>
      dsimp only
      rw [GuardScope.guards_congr (GuardScope.add_type h htyped halike _) directives]
  have hedit : ∀ s, edit? c r s = edit? c r' s := fun s => by
    cases s with
    | field _ _ => rfl
    | inline _ _ _ => rfl
    | spread name ds =>
      rw [edit?, edit?, operation?_rearranged h]
      rcases r'.operation? c name with _ | ⟨list, action⟩
      · rfl
      · dsimp only
        rw [GuardScope.guards_congr (GuardScope.add_list h list _) ds]
  simp only [listOperations, funext hdeletion, funext hedit]

end QueryCompiler
