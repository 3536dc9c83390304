import QueryCompiler.Artifact.Reference
import QueryCompiler.Proofs.Artifact.Search
/-
# Referenced fragments

A definition is sent with the fragments that it leads to, itself apart.  The search for them finds
what a walk without a memory meets, so it answers all questions about them: which they are, in what
order they come, and when one of them is unknown (`referenced_reached`).

* `Referenced`: the fragments that a definition is sent with, each once, hold all that the
  definition or one of them spreads, the definition itself apart.
-/
namespace QueryCompiler

variable {fragments : Table String Fragment} {e : Executable} {others : List Fragment}

/-! ## 1. What is referenced -/

/-- The name by which a definition can be spread. -/
def Executable.fragmentName? : Executable → Option String
  | .operation _ => none
  | .fragment f => some f.name

/-- The names that a walk through a definition meets, one for every spread that it comes to. -/
def metNames (fragments : Table String Fragment) (e : Executable) : List String :=
  visitedIn fragments [] (spreadNamesOf e.selections)

/-- The names of the fragments that a definition is sent with, in the order in which a walk first
meets them. -/
def sentNames (fragments : Table String Fragment) (e : Executable) : List String :=
  (metNames fragments e).eraseDups.filter fun name => decide (e.fragmentName? ≠ some name)

theorem mem_metNames {name : String} : name ∈ metNames fragments e ↔
    Expands.ReachedFrom (Table.get? fragments) e.selections name := mem_visitedIn_iff

theorem mem_sentNames {name : String} : name ∈ sentNames fragments e ↔
    Expands.ReachedFrom (Table.get? fragments) e.selections name ∧ e.fragmentName? ≠ some name := by
  rw [sentNames, List.mem_filter, List.mem_eraseDups, mem_metNames, decide_eq_true_iff]

theorem nodup_sentNames : (sentNames fragments e).Nodup := (nodup_eraseDups _).filter _

/-- A definition is sent with what the walk meets, except itself. -/
theorem referenced_eq (fragments : Table String Fragment) (e : Executable) :
    referenced fragments e = ((metNames fragments e).foldlM (enter fragments) []).map fun found =>
      (found.filter fun row => decide (e.fragmentName? ≠ some row.1)).map (·.2) := by
  rw [referenced, foldlM_findFragment _ (Nat.le_refl _), metNames]
  cases (visitedIn fragments [] (spreadNamesOf e.selections)).foldlM (enter fragments) [] with
  | error error => rfl
  | ok found =>
    refine congrArg Except.ok (congrArg (List.map Prod.snd) ?_)
    cases e with
    | operation o => simp [Executable.fragmentName?]
    | fragment f =>
      refine List.filter_congr fun row _ => ?_
      rw [Bool.eq_iff_iff, Bool.not_eq_true', beq_eq_false_iff_ne, decide_eq_true_iff,
        Executable.fragmentName?, ne_eq, ne_eq, Option.some.injEq, eq_comm]

theorem referenced_eq_error {error : Error} : referenced fragments e = .error error ↔
    ∃ name, (metNames fragments e).find? (fun name => (Table.get? fragments name).isNone)
      = some name ∧ error = .unknownFragment name := by
  rw [← foldlM_enter_eq_error _ [], referenced_eq]
  cases (metNames fragments e).foldlM (enter fragments) [] with
  | error e' => exact ⟨fun h => congrArg Except.error (Except.error.inj h), fun h =>
      congrArg Except.error (Except.error.inj h)⟩
  | ok found => exact ⟨nofun, nofun⟩

/-- **What a definition is sent with** are the fragments that the walk meets, as the table has
them. -/
theorem map_some_referenced (h : referenced fragments e = .ok others) :
    others.map some = (sentNames fragments e).map (Table.get? fragments) := by
  rw [referenced_eq, map_eq_ok] at h
  obtain ⟨found, hfound, rfl⟩ := h
  have hkeys : Table.keys found = (metNames fragments e).eraseDups := by
    rw [keys_of_foldlM_enter hfound, ← foldl_new]
    rfl
  have hsourced : Sourced fragments found :=
    (found_of_foldlM_enter hfound).2 (Searching.start fragments).sourced
  have hnodup : (Table.keys found).Nodup := hkeys ▸ nodup_eraseDups _
  rw [sentNames, ← hkeys, Table.keys, List.filter_map, List.map_map, List.map_map]
  refine List.map_congr_left fun row hrow => ?_
  exact (hsourced _ _ (Table.get?_of_mem hnodup (List.mem_of_mem_filter hrow))).symm

/-- **The fragments that a definition leads to**, through fields, inline fragments and fragments of
the table, circles among them included.  One that the table lacks is the only reason to fail.
Otherwise each of them is there once, in the order in which a walk first meets it, except the
definition itself.  The search is never cut short: no larger bound on its depth changes it. -/
theorem referenced_reached (fragments : Table String Fragment) (e : Executable) :
    ((∃ name, referenced fragments e = .error (.unknownFragment name)) ↔
      ∃ name, Expands.ReachedFrom (Table.get? fragments) e.selections name ∧
        Table.get? fragments name = none) ∧
    ((∃ others, referenced fragments e = .ok others) ↔
      ∀ name, Expands.ReachedFrom (Table.get? fragments) e.selections name →
        Table.get? fragments name ≠ none) ∧
    (∀ others, referenced fragments e = .ok others →
      others.map some = (sentNames fragments e).map (Table.get? fragments)) ∧
    (sentNames fragments e).Nodup ∧
    (∀ name, name ∈ sentNames fragments e ↔
      Expands.ReachedFrom (Table.get? fragments) e.selections name ∧
        e.fragmentName? ≠ some name) ∧
    ∀ further, (spreadNamesOf e.selections).foldlM
        (findFragment fragments (fragments.length + further)) []
      = (spreadNamesOf e.selections).foldlM (findFragment fragments fragments.length) [] := by
  have hunknown : (∃ name, referenced fragments e = .error (.unknownFragment name)) ↔
      ∃ name, Expands.ReachedFrom (Table.get? fragments) e.selections name ∧
        Table.get? fragments name = none := by
    simp only [referenced_eq_error, ← mem_metNames]
    constructor
    · rintro ⟨_, name, hfirst, -⟩
      have hnone := List.find?_some hfirst
      exact ⟨name, List.mem_of_find?_eq_some hfirst, Option.isNone_iff_eq_none.mp hnone⟩
    · rintro ⟨name, hname, hnone⟩
      have hsome : ((metNames fragments e).find? fun name =>
          (Table.get? fragments name).isNone).isSome = true :=
        List.find?_isSome.mpr ⟨name, hname, Option.isNone_iff_eq_none.mpr hnone⟩
      obtain ⟨first, hfirst⟩ := Option.isSome_iff_exists.mp hsome
      exact ⟨first, first, hfirst, rfl⟩
  refine ⟨hunknown, ?_, fun _ => map_some_referenced, nodup_sentNames, fun _ => mem_sentNames,
    fun further => ?_⟩
  · cases h : referenced fragments e with
    | error error =>
      obtain ⟨name, -, rfl⟩ := referenced_eq_error.mp h
      obtain ⟨name, hname, hnone⟩ := hunknown.mp ⟨name, h⟩
      exact ⟨nofun, fun hall => absurd hnone (hall name hname)⟩
    | ok others =>
      refine iff_of_true ⟨others, rfl⟩ fun name hname hnone => ?_
      obtain ⟨other, herror⟩ := hunknown.mpr ⟨name, hname, hnone⟩
      exact absurd (h.symm.trans herror) nofun
  · rw [foldlM_findFragment _ (Nat.le_add_right _ _), foldlM_findFragment _ (Nat.le_refl _)]

/-- Of two fragments that spread each other each one is sent with the other. -/
example : let f (name other : String) : Fragment :=
      { description := none, name, condition := "User", directives := [],
        selections := [.spread other []] }
    referenced [("First", f "First" "Second"), ("Second", f "Second" "First")]
      (.fragment (f "First" "Second")) = .ok [f "Second" "First"] := by rfl

/-! ## 2. What a definition is sent with -/

/-- Every fragment stands under its own name. -/
def NamedByKey (fragments : Table String Fragment) : Prop :=
  ∀ name f, Table.get? fragments name = some f → f.name = name

/-- What a definition is sent with. -/
structure Referenced (fragments : Table String Fragment) (e : Executable)
    (others : List Fragment) : Prop where
  nodup : (others.map (·.name)).Nodup
  source : ∀ f ∈ others, Table.get? fragments f.name = some f
  notOwn : ∀ f ∈ others, e.fragmentName? ≠ some f.name
  closed : ∀ name,
    (name ∈ spreadNamesOf e.selections ∨ ∃ f ∈ others, name ∈ spreadNamesOf f.selections) →
      (∃ f ∈ others, f.name = name) ∨ e.fragmentName? = some name

/-- Sent fragments are known by the names that the walk meets. -/
theorem map_name_referenced (hnamed : NamedByKey fragments)
    (h : referenced fragments e = .ok others) : others.map (·.name) = sentNames fragments e := by
  have hsome := map_some_referenced h
  have hnames := congrArg (List.map fun f? => f?.elim "" Fragment.name) hsome
  rw [List.map_map, List.map_map] at hnames
  refine (hnames.trans (List.map_congr_left fun name hname => ?_)).trans (List.map_id _)
  have hmem : Table.get? fragments name ∈ others.map some := hsome ▸ List.mem_map_of_mem hname
  obtain ⟨f, -, hf⟩ := List.mem_map.mp hmem
  rw [Function.comp_apply, ← hf, Option.elim_some, hnamed name f hf.symm, id]

/-- **A definition is sent with all that it refers to.** -/
theorem referenced_closed (hnamed : NamedByKey fragments)
    (h : referenced fragments e = .ok others) : Referenced fragments e others := by
  have hnames := map_name_referenced hnamed h
  have hmem : ∀ {name}, (∃ f ∈ others, f.name = name) ↔
      Expands.ReachedFrom (Table.get? fragments) e.selections name ∧
        e.fragmentName? ≠ some name := by
    intro name
    rw [← mem_sentNames, ← hnames, List.mem_map]
  have hsource : ∀ f ∈ others, Table.get? fragments f.name = some f := by
    intro f hf
    have hsome : some f ∈ (sentNames fragments e).map (Table.get? fragments) :=
      map_some_referenced h ▸ List.mem_map_of_mem hf
    obtain ⟨name, -, hname⟩ := List.mem_map.mp hsome
    rwa [hnamed name f hname]
  refine ⟨hnames ▸ nodup_sentNames, hsource, fun f hf => (hmem.mp ⟨f, hf, rfl⟩).2, ?_⟩
  intro name hname
  refine or_iff_not_imp_right.mpr fun hown => hmem.mpr ⟨?_, hown⟩
  rcases hname with hname | ⟨f, hf, hname⟩
  · exact ⟨name, hname, .refl⟩
  · obtain ⟨first, hfirst, hreach⟩ := (hmem.mp ⟨f, hf, rfl⟩).1
    exact ⟨first, hfirst, .head ⟨f, hsource f hf, hname⟩ hreach⟩

/-! ## 3. The table of fragments -/

theorem fragmentTable_mem {documents : List Document} {name : String} {f : Fragment}
    (h : Table.get? (fragmentTable documents) name = some f) :
    f.name = name ∧ ∃ d ∈ documents, Definition.fragment f ∈ d.definitions := by
  rw [fragmentTable, Table.get?_ofRows] at h
  obtain ⟨g, hg, hrow⟩ := List.mem_map.mp (List.mem_reverse.mp (Table.mem_of_get? h))
  obtain ⟨rfl, rfl⟩ := Prod.mk.inj hrow
  obtain ⟨definition, hdef, hfrag⟩ := List.mem_filterMap.mp hg
  obtain ⟨d, hd, hmem⟩ := List.mem_flatMap.mp hdef
  cases definition with
  | fragment g => cases hfrag; exact ⟨rfl, d, hd, hmem⟩
  | operation _ | schema _ | type _ | directive _ => exact absurd hfrag nofun

theorem namedByKey_fragmentTable (documents : List Document) :
    NamedByKey (fragmentTable documents) := fun _ _ h => (fragmentTable_mem h).1

/-- A fragment of some documents has its name in their table. -/
theorem isSome_fragmentTable {documents : List Document} {f : Fragment}
    (h : f ∈ fragmentsOf (documents.flatMap (·.definitions))) :
    (Table.get? (fragmentTable documents) f.name).isSome = true := by
  rw [Option.isSome_iff_ne_none, fragmentTable, Table.get?_ofRows, ne_eq, Table.get?_eq_none_iff,
    not_not, Table.keys, List.map_reverse, List.mem_reverse, List.map_map]
  exact List.mem_map.mpr ⟨f, h, rfl⟩

/-- Documents that come later count first. -/
theorem get?_fragmentTable_append (documents others : List Document) (name : String) :
    Table.get? (fragmentTable (documents ++ others)) name
      = (Table.get? (fragmentTable others) name).or
          (Table.get? (fragmentTable documents) name) := by
  rw [fragmentTable, fragmentTable, fragmentTable, Table.get?_ofRows, Table.get?_ofRows,
    Table.get?_ofRows, List.flatMap_append, fragmentsOf, List.filterMap_append, List.map_append,
    List.reverse_append, Table.get?_append]
  rfl

end QueryCompiler
