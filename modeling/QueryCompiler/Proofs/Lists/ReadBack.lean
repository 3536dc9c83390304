import Mathlib.Data.List.Induction
import QueryCompiler.Proofs.Lists.Identity
/-
# Generated names are read back

A mutation edits a list by naming what was generated for it, so the registry has to find the list and
the action in a name.  It compares texts, one list after the other, and takes the first hit.  That
the first hit is the only one rests on the ends of the names: every action has an end of its own,
and all three ends are equally long, so a name is cut in one way, also when the list is itself
called `Users_insert`.

* `targetTypes_eq`: the types that records are deleted of, in the order of registration;
* `operation?_eq_some_iff`, `deletedType?_eq_some_iff`: what the registry reads in a name;
* `listDefinitions_names`: the order of what is generated, and that no name comes twice.
-/
namespace QueryCompiler

variable {c : Config} {r : Registry}

/-! ## 1. Types that records are deleted of -/

/-- The names of the object types that lists have for members, one for each such list. -/
def Registry.objectNames (r : Registry) : List String :=
  r.filterMap fun row => (row.2.type.filter (·.isObject)).map (·.name)

/-- The types that records are deleted of come in the order of registration. -/
theorem targetTypes_eq (r : Registry) : r.targetTypes = r.objectNames.eraseDups := by
  rw [← foldl_new, Registry.targetTypes, Registry.objectNames]
  suffices hfold : ∀ met : List String,
      (r.filterMap (·.2.type)).foldl (fun names type =>
          if type.isObject && type.name ∉ names then names ++ [type.name] else names) met
        = (r.filterMap fun row => (row.2.type.filter (·.isObject)).map (·.name)).foldl
            (fun met name => if name ∈ met then met else met ++ [name]) met from hfold []
  induction r with
  | nil => exact fun _ => rfl
  | cons row r ih =>
    intro met
    cases htype : row.2.type with
    | none => simpa [htype] using ih met
    | some type =>
      cases hobject : type.isObject with
      | false => simpa [htype, hobject] using ih met
      | true => simpa [htype, hobject, ite_not] using ih _

/-! ## 2. Names that are read back -/

/-- The name of the fragment that a list has for an action.  Deletions have a directive instead. -/
def Config.fragmentName? (c : Config) (list : String) : ListAction → Option String
  | .insert => some (c.insertFragment list)
  | .toggle => some (c.toggleFragment list)
  | .remove => some (c.removeFragment list)
  | .delete => none

theorem eq_of_fragmentName? {list fragment : String} {a : ListAction}
    (h : c.fragmentName? list a = some fragment) : fragment = list ++ ("_" ++ a.name) := by
  cases a with
  | delete => cases h
  | insert | toggle | remove => exact (Option.some.inj h).symm

/-- **What the registry reads in the name of a fragment**: the list and the action that it was made
of, and nothing in any other name. -/
theorem operation?_eq_some_iff {fragment list : String} {a : ListAction} :
    r.operation? c fragment = some (list, a) ↔
      list ∈ Table.keys r ∧ c.fragmentName? list a = some fragment := by
  constructor
  · intro h
    obtain ⟨name, hname, hread⟩ := List.exists_of_findSome?_eq_some h
    split at hread
    · rename_i hfragment
      obtain ⟨rfl, rfl⟩ := Prod.mk.inj (Option.some.inj hread)
      exact ⟨hname, congrArg some hfragment.symm⟩
    · split at hread
      · rename_i hfragment
        obtain ⟨rfl, rfl⟩ := Prod.mk.inj (Option.some.inj hread)
        exact ⟨hname, congrArg some hfragment.symm⟩
      · split at hread
        · rename_i hfragment
          obtain ⟨rfl, rfl⟩ := Prod.mk.inj (Option.some.inj hread)
          exact ⟨hname, congrArg some hfragment.symm⟩
        · cases hread
  · rintro ⟨hlist, hfragment⟩
    have hread : (r.operation? c fragment).isSome = true := by
      refine isSome_operation?_iff.mpr ⟨list, hlist, ?_⟩
      cases a with
      | insert => exact .inl (Option.some.inj hfragment).symm
      | toggle => exact .inr (.inl (Option.some.inj hfragment).symm)
      | remove => exact .inr (.inr (Option.some.inj hfragment).symm)
      | delete => cases hfragment
    obtain ⟨found, hfound⟩ := Option.isSome_iff_exists.mp hread
    obtain ⟨hname, haction⟩ :=
      actionName_inj ((eq_of_operation? hfound).symm.trans (eq_of_fragmentName? hfragment))
    rw [hfound, Option.some.injEq]
    exact Prod.ext hname haction

/-- **What the registry reads in the name of a directive**: the object type that it was made of. -/
theorem deletedType?_eq_some_iff {directive type : String} :
    r.deletedType? c directive = some type ↔
      type ∈ r.objectNames ∧ directive = c.deleteDirective type := by
  have hmem : ∀ {type}, type ∈ r.targetTypes ↔ type ∈ r.objectNames := by
    intro type
    rw [targetTypes_eq, List.mem_eraseDups]
  constructor
  · intro h
    exact ⟨hmem.mp (List.mem_of_find?_eq_some h), by simpa using List.find?_some h⟩
  · rintro ⟨htype, rfl⟩
    cases h : r.deletedType? c (c.deleteDirective type) with
    | none =>
      have hnone := List.find?_eq_none.mp h type (hmem.mpr htype)
      simp at hnone
    | some found =>
      have hfound : c.deleteDirective type = c.deleteDirective found := by
        simpa using List.find?_some h
      rw [(append_inj_of_length hfound rfl).1]

/-! ## 3. The names of a registry -/

/-- **The names of what is generated** for every registry whose lists select something of members of
known types: first the three fragments of every list, then a directive for every object type, both in
the order of registration.  No name comes twice, and the registry reads in a name exactly what it
was made of. -/
theorem listDefinitions_names (hnodup : (Table.keys r).Nodup)
    (hselected : ∀ row ∈ r, row.2.selections ≠ []) (htyped : r.Typed) :
    ∃ (fragments : List Fragment) (directives : List DirectiveDefinition),
      listDefinitions c r = .ok (fragments.map .fragment ++ directives.map .directive) ∧
      fragments.map (·.name) = (Table.keys r).flatMap c.generatedNames ∧
      directives.map (·.name) = r.objectNames.eraseDups.map c.deleteDirective ∧
      (fragments.map (·.name)).Nodup ∧ (directives.map (·.name)).Nodup ∧
      (∀ fragment list a, r.operation? c fragment = some (list, a) ↔
        list ∈ Table.keys r ∧ c.fragmentName? list a = some fragment) ∧
      (∀ directive type, r.deletedType? c directive = some type ↔
        type ∈ r.objectNames ∧ directive = c.deleteDirective type) := by
  obtain ⟨lists, hlists⟩ := exists_listFragments (c := c) hselected htyped
  have hdefinitions := listDefinitions_eq_ok.mpr ⟨lists, hlists, rfl⟩
  have hfragments : (lists.flatMap ListFragments.all).map (·.name)
      = (Table.keys r).flatMap c.generatedNames := by
    rw [← names_listDefinitions hdefinitions, fragmentsOf_append, fragmentsOf_map_fragment,
      fragmentsOf_deleteDefinitions, List.append_nil]
  let delete (type : String) : DirectiveDefinition :=
    ⟨none, c.deleteDirective type, [], true, ["FIELD"]⟩
  have hdeletes : r.targetTypes.map (deleteDefinition c)
      = (r.objectNames.eraseDups.map delete).map .directive := by
    rw [targetTypes_eq, List.map_map]
    rfl
  have hdirectives : (r.objectNames.eraseDups.map delete).map (·.name)
      = r.objectNames.eraseDups.map c.deleteDirective := by
    rw [List.map_map]
    rfl
  rw [hdeletes] at hdefinitions
  refine ⟨_, _, hdefinitions, hfragments, hdirectives, ?_, ?_,
    fun _ _ _ => operation?_eq_some_iff, fun _ _ => deletedType?_eq_some_iff⟩
  · rw [hfragments]
    exact nodup_generatedNames hnodup
  · rw [hdirectives]
    refine (nodup_eraseDups _).map fun type type' htype => ?_
    exact (append_inj_of_length htype rfl).1

namespace Sample

/-- Two lists of users; the name of the second is that of a fragment of the first. -/
def usersTwice : Registry :=
  [usersList "Users" [plainField "id" []], usersList "Users_insert" [plainField "id" []]]

end Sample

open Sample in
/-- The fragments of the list `Users_insert` are told from those of `Users`. -/
theorem usersTwice_names :
    ∃ (fragments : List Fragment) (directives : List DirectiveDefinition),
      listDefinitions (config users) usersTwice
        = .ok (fragments.map .fragment ++ directives.map .directive) ∧
      fragments.map (·.name) = ["Users_insert", "Users_toggle", "Users_remove",
        "Users_insert_insert", "Users_insert_toggle", "Users_insert_remove"] ∧
      directives.map (·.name) = ["User_delete"] ∧
      usersTwice.operation? (config users) "Users_insert" = some ("Users", .insert) ∧
      usersTwice.operation? (config users) "Users_insert_remove"
        = some ("Users_insert", .remove) ∧
      usersTwice.deletedType? (config users) "User_delete" = some "User" := by
  have hselected : ∀ row ∈ usersTwice, row.2.selections ≠ [] := by
    simp [usersTwice, usersList]
  have htyped : usersTwice.Typed := by
    simp [Registry.Typed, usersTwice, usersList]
  obtain ⟨fragments, directives, h, hfragments, hdirectives, -, -, hread, hdeleted⟩ :=
    listDefinitions_names (c := config users) (by decide) hselected htyped
  refine ⟨fragments, directives, h, hfragments, ?_, ?_, ?_, ?_⟩
  · rw [hdirectives]
    decide
  · exact (hread _ _ _).mpr ⟨by decide, rfl⟩
  · exact (hread _ _ _).mpr ⟨by decide, rfl⟩
  · exact (hdeleted _ _).mpr ⟨by decide, rfl⟩

end QueryCompiler
