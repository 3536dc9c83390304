import QueryCompiler.Proofs.Pagination.Documents
/-
# What declares a page argument

The arguments in use are declared in up to three places: by a query among its variables, by a
fragment in its arguments directive, and by the query that refetches a fragment.

* `mem_hoistVariables`, `hoistVariables_of_nodup`: the variables of a query;
* `declaresArgument_hoistArguments`, `argument?_hoisted`: the arguments directives of a fragment;
* `refetchQuery_eq_ok`: the query that refetches a fragment.
-/
namespace QueryCompiler

variable {c : Config} {flags : Flags}

/-- Page arguments are told apart by the names of what declares them. -/
theorem name_mem_map {α : Type} (f : PageArgument → α) {name : α → String}
    (hf : ∀ a, name (f a) = a.name) {used : List PageArgument} {a : PageArgument} :
    a.name ∈ (used.map f).map name ↔ a ∈ used := by
  rw [List.map_map, List.mem_map]
  constructor
  · rintro ⟨b, hb, hname⟩
    obtain rfl := PageArgument.name_injective ((hf b).symm.trans hname)
    exact hb
  · exact fun ha => ⟨a, ha, hf a⟩

/-- What alone fits is found. -/
theorem find?_eq_some_of_unique {α : Type} {items : List α} {fits : α → Bool} {item : α}
    (hmem : item ∈ items) (hfits : fits item = true)
    (hunique : ∀ other ∈ items, fits other = true → other = item) :
    items.find? fits = some item := by
  have hfound : (items.find? fits).isSome = true := by
    rw [List.find?_isSome]
    exact ⟨item, hmem, hfits⟩
  obtain ⟨other, hother⟩ := Option.isSome_iff_exists.mp hfound
  rw [hother, hunique other (List.mem_of_find?_eq_some hother) (List.find?_some hother)]

/-- What declares a page argument is found by its name. -/
theorem find?_name {α : Type} (f : PageArgument → α) {name : α → String}
    (hf : ∀ a, name (f a) = a.name) {used : List PageArgument} {a : PageArgument} (h : a ∈ used) :
    (used.map f).find? (name · = a.name) = some (f a) := by
  refine find?_eq_some_of_unique (List.mem_map_of_mem h) (decide_eq_true (hf a)) ?_
  intro other hmem hname
  obtain ⟨b, -, rfl⟩ := List.mem_map.mp hmem
  rw [PageArgument.name_injective ((hf b).symm.trans (of_decide_eq_true hname))]

/-! ## 1. Variables of a query -/

/-- Variables lose no name when those that are declared twice are put together. -/
theorem mem_names_ofRows {declarations : List VariableDefinition} {name : String} :
    name ∈ ((Table.ofRows (declarations.map fun v => (v.name, v))).map (·.2)).map (·.name) ↔
      name ∈ declarations.map (·.name) := by
  have hnames : ((Table.ofRows (declarations.map fun v => (v.name, v))).map (·.2)).map (·.name)
      = Table.keys (Table.ofRows (declarations.map fun v => (v.name, v))) := by
    rw [List.map_map]
    refine List.map_congr_left fun row hrow => ?_
    obtain ⟨v, -, rfl⟩ := List.mem_map.mp (Table.mem_of_mem_ofRows hrow)
    rfl
  rw [hnames, Table.mem_keys_ofRows, Table.keys, List.map_map]
  rfl

theorem contains_ofRows {declarations : List VariableDefinition} {name : String} :
    Table.contains (Table.ofRows (declarations.map fun v => (v.name, v))) name = true ↔
      name ∈ declarations.map (·.name) := by
  rw [Table.contains_iff, Table.mem_keys_ofRows, Table.keys, List.map_map]
  rfl

/-- A query declares afterwards what it declared before, and the arguments in use. -/
theorem mem_hoistVariables {declarations : List VariableDefinition} {a : PageArgument} :
    a.name ∈ (hoistVariables flags declarations).map (·.name) ↔
      a ∈ flags.enabled ∨ a.name ∈ declarations.map (·.name) := by
  rw [hoistVariables, List.map_append, List.mem_append, mem_names_ofRows,
    name_mem_map flags.variable fun _ => rfl, List.mem_filter, Bool.not_eq_true',
    Bool.eq_false_iff, ne_eq, contains_ofRows]
  tauto

/-- The variable that a query declares for an argument in use, if it did not declare one. -/
theorem find?_hoistVariables {declarations : List VariableDefinition} {a : PageArgument}
    (ha : a ∈ flags.enabled) (hfresh : a.name ∉ declarations.map (·.name)) :
    (hoistVariables flags declarations).find? (·.name = a.name) = some (flags.variable a) := by
  have hold : ((Table.ofRows (declarations.map fun v => (v.name, v))).map (·.2)).find?
      (·.name = a.name) = none := by
    rw [List.find?_eq_none]
    intro v hv hname
    exact hfresh (of_decide_eq_true hname ▸ mem_names_ofRows.mp (List.mem_map.mpr ⟨v, hv, rfl⟩))
  rw [hoistVariables, List.find?_append, hold, Option.none_or]
  refine find?_name flags.variable (fun _ => rfl) (List.mem_filter.mpr ⟨ha, ?_⟩)
  rw [Bool.not_eq_true', Bool.eq_false_iff, ne_eq, contains_ofRows]
  exact hfresh

/-- Of distinct variables none is lost, and those that are missing come behind them. -/
theorem hoistVariables_of_nodup {declarations : List VariableDefinition}
    (h : (declarations.map (·.name)).Nodup) :
    hoistVariables flags declarations = declarations ++
      (flags.enabled.filter fun a => a.name ∉ declarations.map (·.name)).map flags.variable := by
  have hkeys : Table.keys (declarations.map fun v => (v.name, v)) = declarations.map (·.name) := by
    rw [Table.keys, List.map_map]
    rfl
  have hvalues : (declarations.map fun v => (v.name, v)).map (·.2) = declarations := by
    rw [List.map_map]
    exact List.map_id _
  rw [hoistVariables, Table.ofRows_of_nodup (hkeys ▸ h), hvalues]
  refine congrArg (declarations ++ List.map _ ·) (List.filter_congr fun a _ => ?_)
  rw [decide_not, ← hkeys, Bool.not_inj_iff, Bool.eq_iff_iff, decide_eq_true_iff,
    Table.contains_iff]

/-! ## 2. Arguments directives of a fragment -/

/-- Some arguments directive declares a page argument. -/
def Config.DeclaresArgument (c : Config) (a : PageArgument) (directives : List Directive) : Prop :=
  ∃ d ∈ directives, d.name = c.argumentsDirective ∧ a.name ∈ d.arguments.map (·.name)

/-- A directive with the entries of the arguments in use that it lacks. -/
theorem declaresArgument_hoistArguments {directives : List Directive} {a : PageArgument} :
    c.DeclaresArgument a (hoistArguments c flags directives) ↔
      ∃ d ∈ directives, d.name = c.argumentsDirective ∧
        (a ∈ flags.enabled ∨ a.name ∈ d.arguments.map (·.name)) := by
  have hentries : ∀ d : Directive, a.name ∈ (d.arguments ++
      (flags.enabled.filter fun a => d.arguments.all (·.name ≠ a.name)).map fun a =>
        argumentDeclaration a.name a.typeName (flags a).defaultValue).map (·.name) ↔
      a ∈ flags.enabled ∨ a.name ∈ d.arguments.map (·.name) := fun d => by
    have hlacks : d.arguments.all (·.name ≠ a.name) = true ↔ a.name ∉ d.arguments.map (·.name) := by
      simp [List.all_eq_true]
    rw [List.map_append, List.mem_append, name_mem_map (fun a => argumentDeclaration a.name _ _)
      fun _ => rfl, List.mem_filter, hlacks]
    tauto
  constructor
  · rintro ⟨_, hhoisted, hname, hmem⟩
    obtain ⟨d, hd, rfl⟩ := List.mem_map.mp hhoisted
    by_cases ha : d.name = c.argumentsDirective
    · rw [if_pos ha, hentries] at hmem
      exact ⟨d, hd, ha, hmem⟩
    · rw [if_neg ha] at hname
      exact absurd hname ha
  · rintro ⟨d, hd, ha, hmem⟩
    refine ⟨_, List.mem_map_of_mem hd, ?_⟩
    rw [if_pos ha, hentries]
    exact ⟨ha, hmem⟩

/-- A fragment declares afterwards what it declared before, and the arguments in use. -/
theorem declaresArgument_hoisted {directives : List Directive} {a : PageArgument} :
    c.DeclaresArgument a (hoistArguments c flags (withArgumentsDirective c directives)) ↔
      a ∈ flags.enabled ∨ c.DeclaresArgument a directives := by
  rw [declaresArgument_hoistArguments, withArgumentsDirective]
  split
  · rename_i hdirective
    obtain ⟨d, hd⟩ := Option.isSome_iff_exists.mp hdirective
    have hname : d.name = c.argumentsDirective := by simpa using List.find?_some hd
    constructor
    · rintro ⟨d, hd, ha, hmem⟩
      exact hmem.imp_right fun hmem => ⟨d, hd, ha, hmem⟩
    · rintro (ha | ⟨d, hd, ha, hmem⟩)
      · exact ⟨d, List.mem_of_find?_eq_some hd, hname, .inl ha⟩
      · exact ⟨d, hd, ha, .inr hmem⟩
  · constructor
    · rintro ⟨d, hd, ha, hmem⟩
      rcases List.mem_append.mp hd with hd | hd
      · exact hmem.imp_right fun hmem => ⟨d, hd, ha, hmem⟩
      · obtain rfl := List.mem_singleton.mp hd
        exact .inl (hmem.resolve_right List.not_mem_nil)
    · rintro (ha | ⟨d, hd, ha, hmem⟩)
      · exact ⟨_, List.mem_append_right _ (List.mem_singleton_self _), rfl, .inl ha⟩
      · exact ⟨d, List.mem_append_left _ hd, ha, .inr hmem⟩

theorem hasDirective_withArgumentsDirective (directives : List Directive) :
    hasDirective (withArgumentsDirective c directives) c.argumentsDirective = true := by
  rw [withArgumentsDirective]
  split
  · assumption
  · simp [hasDirective, directive?, plainDirective]

/-- The arguments directive that a fragment gains is empty. -/
theorem mem_of_withArgumentsDirective {directives : List Directive} {d : Directive}
    (h : d ∈ withArgumentsDirective c directives) (hne : d.arguments ≠ []) : d ∈ directives := by
  rw [withArgumentsDirective] at h
  split at h
  · exact h
  · rcases List.mem_append.mp h with h | h
    · exact h
    · obtain rfl := List.mem_singleton.mp h
      exact absurd rfl hne

/-- A fragment that does not declare an argument lacks it in all its arguments directives. -/
theorem lacks_withArgumentsDirective {directives : List Directive} {a : PageArgument}
    (h : ¬ c.DeclaresArgument a directives) {d : Directive}
    (hd : d ∈ withArgumentsDirective c directives) (hname : d.name = c.argumentsDirective) :
    ∀ argument ∈ d.arguments, argument.name ≠ a.name := fun _ hmem hsame =>
  h ⟨d, mem_of_withArgumentsDirective hd (List.ne_nil_of_mem hmem), hname,
    hsame ▸ List.mem_map_of_mem hmem⟩

/-- The entry that a fragment has for an argument in use, if it did not have one. -/
theorem argument?_hoisted {directives : List Directive} {a : PageArgument}
    (ha : a ∈ flags.enabled) (hfresh : ¬ c.DeclaresArgument a directives) :
    ∃ d, directive? (hoistArguments c flags (withArgumentsDirective c directives))
        c.argumentsDirective = some d ∧
      argument? d.arguments a.name
        = some (argumentDeclaration a.name a.typeName (flags a).defaultValue) := by
  have hsome := @hasDirective_hoistArguments c flags (withArgumentsDirective c directives)
    c.argumentsDirective
  rw [hasDirective_withArgumentsDirective] at hsome
  obtain ⟨d, hd⟩ := Option.isSome_iff_exists.mp hsome
  obtain ⟨source, hsource, rfl⟩ := List.mem_map.mp (List.mem_of_find?_eq_some hd)
  have hname : source.name = c.argumentsDirective := by
    have hname := List.find?_some hd
    split at hname <;> simpa using hname
  have hlacks := lacks_withArgumentsDirective hfresh hsource hname
  refine ⟨_, hd, ?_⟩
  have hold : source.arguments.find? (·.name = a.name) = none :=
    List.find?_eq_none.mpr fun argument hmem hsame => hlacks argument hmem (of_decide_eq_true hsame)
  rw [if_pos hname, argument?, List.find?_append, hold, Option.none_or]
  refine find?_name (fun a => argumentDeclaration a.name a.typeName (flags a).defaultValue)
    (fun _ => rfl) (List.mem_filter.mpr ⟨ha, List.all_eq_true.mpr fun argument hmem => ?_⟩)
  exact decide_eq_true (hlacks argument hmem)

/-! ## 3. The query that refetches a fragment -/

theorem keyVariable_eq_ok {s : Schema} {type key : String} {v : VariableDefinition}
    (h : keyVariable s type key = .ok v) : v.name = key ∧ v.defaultValue = none := by
  rw [keyVariable] at h
  split at h
  · exact absurd h nofun
  · split at h
    · exact absurd h nofun
    · obtain rfl := Except.ok.inj h
      exact ⟨rfl, rfl⟩

/-- The keys by which the record of a target is looked up. -/
def RefetchTarget.keys (c : Config) (target : RefetchTarget) : List String :=
  if target.embedded then c.keyFields target.type else []

/-- What the query selects: the fragment with the arguments in use, where its record is. -/
def RefetchTarget.selections (c : Config) (target : RefetchTarget) (used : List PageArgument) :
    List Selection :=
  let spread := Selection.spread target.fragment
    [plainDirective c.withDirective (used.map fun a => variableArgument a.name)]
  if target.embedded then
    [.field { label := none, name := c.lookupField target.type,
              arguments := (c.keyFields target.type).map variableArgument, directives := [] } [spread]]
  else [spread]

/-- **The query that refetches a fragment** declares the arguments in use, and behind them the
keys by which the record is looked up. -/
theorem refetchQuery_eq_ok {target : RefetchTarget} {definitions : List Definition} :
    refetchQuery c flags target = .ok definitions ↔
      ∃ keyVariables, List.Forall₂ (fun key v => keyVariable c.schema target.type key = .ok v)
          (target.keys c) keyVariables ∧
        definitions = [.operation {
          description := none, kind := .query, name := some target.query
          declarations := flags.enabled.map flags.variable ++ keyVariables
          directives := [], selections := target.selections c flags.enabled }] := by
  rw [refetchQuery, RefetchTarget.keys, RefetchTarget.selections]
  cases target.embedded with
  | true =>
    simp only [if_true, bind_eq_ok, pure_eq_ok, mapM_eq_ok]
    exact exists_congr fun keyVariables => and_congr_right fun _ => eq_comm
  | false =>
    simp only [Bool.false_eq_true, if_false, pure_eq_ok, List.forall₂_nil_left_iff,
      exists_eq_left, List.append_nil]
    exact eq_comm

end QueryCompiler
