import QueryCompiler.Proofs.Connection
import QueryCompiler.Proofs.Lists.Rearranged
/-
# Fragments that identify their records

A cache files a record under its `id`.  The fragments that toggle and remove a member of a list
always ask for it, because the field is put into them whatever the list selects.  The fragment that
inserts a member only gains the field when the list selects none of that name, and the search for
one does not look at labels: a list that selects `key: id` is taken to identify its members, though
answers hold them under `key` alone.

* `listDefinitions_eq_ok`: what is generated for the lists of a registry, in full;
* `identifies_inserted`: when what a list inserts has an identity;
* `listDefinitions_identify`: which generated fragments identify their records.
-/
namespace QueryCompiler

/-! ## 1. What is generated -/

/-- What a list inserts: what it selects of its members, with an `id` when it selects none. -/
def ListDefinition.inserted (l : ListDefinition) : List Selection :=
  if selectsId l.selections then l.selections else l.selections ++ [idField]

/-- The fragments of one list. -/
structure ListFragments where
  insert : Fragment
  toggle : Fragment
  remove : Fragment

namespace ListFragments

/-- The fragments in the order in which they are generated. -/
def all (f : ListFragments) : List Fragment := [f.insert, f.toggle, f.remove]

/-- The fragments of the list `name` with members of a type. -/
def build (c : Config) (name : String) (type : NamedType) (l : ListDefinition) :
    ListFragments where
  insert := ⟨none, c.insertFragment name, type.name, [], l.inserted⟩
  toggle := ⟨none, c.toggleFragment name, type.name, [], l.inserted ++ [idField]⟩
  remove := ⟨none, c.removeFragment name, type.name, [], [idField]⟩

/-- The fragments are those of the list in a row, which selects something and has members of a
known type. -/
def Of (c : Config) (row : String × ListDefinition) (f : ListFragments) : Prop :=
  row.2.selections ≠ [] ∧ ∃ type, row.2.type = some type ∧ f = build c row.1 type row.2

end ListFragments

variable {c : Config} {r : Registry}

theorem listFragments_eq_ok {row : String × ListDefinition} {definitions : List Definition} :
    listFragments c row.1 row.2 = .ok definitions ↔
      ∃ f, ListFragments.Of c row f ∧ definitions = f.all.map .fragment := by
  by_cases hselections : row.2.selections = []
  · rw [listFragments, if_pos (List.isEmpty_iff.mpr hselections)]
    refine iff_of_false error_ne_ok ?_
    rintro ⟨f, hf, -⟩
    exact hf.1 hselections
  · rw [listFragments, if_neg (mt List.isEmpty_iff.mp hselections)]
    constructor
    · intro h
      cases htype : row.2.type with
      | none =>
        rw [htype] at h
        exact absurd h error_ne_ok
      | some type =>
        rw [htype] at h
        exact ⟨_, ⟨hselections, type, htype, rfl⟩, (Except.ok.inj h).symm⟩
    · rintro ⟨_, ⟨-, type, htype, rfl⟩, rfl⟩
      rw [htype]
      rfl

/-- **What the lists of a registry need** is generated when every list has its fragments: those of
one list after the other, and then the directives. -/
theorem listDefinitions_eq_ok {definitions : List Definition} :
    listDefinitions c r = .ok definitions ↔
      ∃ fragments, List.Forall₂ (ListFragments.Of c) r fragments ∧
        definitions = (fragments.flatMap ListFragments.all).map .fragment
          ++ r.targetTypes.map (deleteDefinition c) := by
  simp only [listDefinitions, bind_eq_ok, pure_eq_ok, mapM_eq_ok, listFragments_eq_ok]
  constructor
  · rintro ⟨groups, hgroups, rfl⟩
    obtain ⟨fragments, hfragments, rfl⟩ : ∃ fragments, List.Forall₂ (ListFragments.Of c) r fragments ∧
        groups = fragments.map fun f => f.all.map .fragment := by
      induction hgroups with
      | nil => exact ⟨[], .nil, rfl⟩
      | cons hrow _ ih =>
        obtain ⟨f, hf, rfl⟩ := hrow
        obtain ⟨fragments, hfragments, rfl⟩ := ih
        exact ⟨f :: fragments, .cons hf hfragments, rfl⟩
    refine ⟨fragments, hfragments, ?_⟩
    rw [List.map_flatMap, List.flatMap_def]
  · rintro ⟨fragments, hfragments, rfl⟩
    refine ⟨fragments.map fun f => f.all.map .fragment, ?_, ?_⟩
    · exact List.forall₂_map_right_iff.mpr (hfragments.imp fun _ f hf => ⟨f, hf, rfl⟩)
    · rw [List.map_flatMap, List.flatMap_def]

theorem fragmentsOf_map_fragment (fs : List Fragment) :
    fragmentsOf (fs.map .fragment) = fs := by
  rw [fragmentsOf, List.filterMap_map]
  exact List.filterMap_some

/-- Lists that select something and have members of known types have their fragments. -/
theorem exists_listFragments (hselected : ∀ row ∈ r, row.2.selections ≠ []) (htyped : r.Typed) :
    ∃ fragments, List.Forall₂ (ListFragments.Of c) r fragments := by
  obtain ⟨groups, hgroups⟩ : ∃ groups, r.mapM (fun row => listFragments c row.1 row.2) = .ok groups :=
    exists_mapM_eq_ok.mpr fun row hrow => by
      obtain ⟨type, htype⟩ := Option.isSome_iff_exists.mp (htyped row hrow)
      exact ⟨_, listFragments_eq_ok.mpr ⟨_, ⟨hselected row hrow, type, htype, rfl⟩, rfl⟩⟩
  have hdefinitions : listDefinitions c r
      = .ok (groups.flatten ++ r.targetTypes.map (deleteDefinition c)) := by
    rw [listDefinitions, hgroups]
    rfl
  obtain ⟨fragments, hfragments, -⟩ := listDefinitions_eq_ok.mp hdefinitions
  exact ⟨fragments, hfragments⟩

/-! ## 2. Identities -/

/-- Whether answers hold the `id` of a record under that key, by a field of the selection set
itself. -/
def identifies (selections : List Selection) : Bool :=
  selections.any fun
    | .field head _ => head.name = "id" && head.responseKey = "id"
    | _ => false

theorem identifies_append_idField (selections : List Selection) :
    identifies (selections ++ [idField]) = true := by
  rw [identifies, List.any_append, Bool.or_eq_true]
  exact .inr rfl

/-- **What a list inserts has an identity** exactly when the list selects it itself, or when it
selects no field `id` under any label. -/
theorem identifies_inserted (l : ListDefinition) : identifies l.inserted = true ↔
    identifies l.selections = true ∨ selectsId l.selections = false := by
  rw [ListDefinition.inserted]
  split
  · rename_i h
    rw [h]
    exact (or_iff_left nofun).symm
  · rename_i h
    exact iff_of_true (identifies_append_idField _) (.inr (Bool.not_eq_true _ ▸ h))

/-- **Which fragments identify their records**, in every registry whose lists select something of
members of known types.  Each list has its three fragments; those that toggle and remove select the
`id`, and the one that inserts does unless the list selects a field `id` under another label only. -/
theorem listDefinitions_identify (hselected : ∀ row ∈ r, row.2.selections ≠ [])
    (htyped : r.Typed) :
    ∃ fragments : List ListFragments,
      (listDefinitions c r).map fragmentsOf = .ok (fragments.flatMap ListFragments.all) ∧
      List.Forall₂ (fun row f => f.all.map (·.name) = c.generatedNames row.1 ∧
        (identifies f.insert.selections = true ↔
          identifies row.2.selections = true ∨ selectsId row.2.selections = false) ∧
        identifies f.toggle.selections = true ∧
        identifies f.remove.selections = true) r fragments := by
  obtain ⟨fragments, hfragments⟩ := exists_listFragments (c := c) hselected htyped
  refine ⟨fragments, ?_, hfragments.imp fun row f hf => ?_⟩
  · rw [listDefinitions_eq_ok.mpr ⟨fragments, hfragments, rfl⟩, Except.map, fragmentsOf_append,
      fragmentsOf_map_fragment, fragmentsOf_deleteDefinitions, List.append_nil]
  · obtain ⟨-, type, -, rfl⟩ := hf
    exact ⟨rfl, identifies_inserted row.2, identifies_append_idField _, rfl⟩

namespace Sample

def user : NamedType := .object "User" [] [⟨"id", some [], .named "ID"⟩]

/-- A list of users that selects this of them. -/
def usersList (name : String) (selections : List Selection) : String × ListDefinition :=
  (name, { name, selections, type := some user, filename := "Users", connection := false,
           arguments := [] })

/-- The `id` of a user, under another label. -/
def labelledId : List Selection :=
  [.field { label := some "key", name := "id", arguments := [], directives := [] } []]

end Sample

open Sample in
/-- A list that selects no `id` gains one. -/
theorem plainUsers_identified :
    ∃ fragments : List ListFragments,
      (listDefinitions (config users) [usersList "Users" [plainField "name" []]]).map fragmentsOf
        = .ok (fragments.flatMap ListFragments.all) ∧
      List.Forall₂ (fun row f => f.all.map (·.name) = (config users).generatedNames row.1 ∧
        (identifies f.insert.selections = true ↔
          identifies row.2.selections = true ∨ selectsId row.2.selections = false) ∧
        identifies f.toggle.selections = true ∧
        identifies f.remove.selections = true) [usersList "Users" [plainField "name" []]] fragments :=
  listDefinitions_identify (List.forall_mem_singleton.mpr nofun) (List.forall_mem_singleton.mpr rfl)

open Sample in
/-- A list that selects the `id` under another label inserts records without an identity. -/
theorem labelledUsers_unidentified :
    (∀ row ∈ [usersList "Users" labelledId], row.2.selections ≠ []) ∧
      Registry.Typed [usersList "Users" labelledId] ∧
      ∃ fragments, (listDefinitions (config users) [usersList "Users" labelledId]).map fragmentsOf
          = .ok fragments ∧
        ∃ f ∈ fragments, f.name = "Users_insert" ∧ identifies f.selections = false :=
  ⟨List.forall_mem_singleton.mpr nofun, List.forall_mem_singleton.mpr rfl, _, rfl, _,
    List.mem_cons_self, rfl, rfl⟩

end QueryCompiler
