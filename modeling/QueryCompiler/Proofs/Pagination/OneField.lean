import QueryCompiler.Proofs.Pagination.Hoisting
/-
# Definitions with one paginated field

Before the first paginated field no defaults are known.  So what a field leaves as defaults is what
it passes itself, and it passes every argument of its way to page:

* `PaginatedField.visit_initial`: what the visit makes of a first field;
* `PaginatedField.passes_once`: with distinct names, it passes each argument of its way to page
  once, as a variable;
* `hoisted_singleton`: where it is the only one, this is what the definition has afterwards.
-/
namespace QueryCompiler

/-- Where names are distinct, one item has each of them. -/
theorem filter_eq_singleton {α : Type} {name : α → String} : ∀ {items : List α} {item : α},
    (items.map name).Nodup → item ∈ items → items.filter (name · = name item) = [item]
  | first :: items, item, hd, hmem => by
    obtain ⟨hfirst, hd⟩ := List.nodup_cons.mp hd
    rcases List.mem_cons.mp hmem with rfl | hmem
    · have hrest : ∀ other ∈ items, name other ≠ name item :=
        fun other hother hname => hfirst (hname ▸ List.mem_map_of_mem hother)
      simpa using hrest
    · have hne : name first ≠ name item := fun hname => hfirst (hname ▸ List.mem_map_of_mem hmem)
      simp [hne, filter_eq_singleton hd hmem]

variable {c : Config} {p : PaginatedField}

namespace PaginatedField

/-- The default that a field leaves for an argument: the last value that it passes itself. -/
def defaultOf (p : PaginatedField) (a : PageArgument) : Datum :=
  (lastRemembered? a p.head.arguments).getD .null

/-- What a field passes when no defaults are known: its arguments in their places, those that it
pages with as variables, and behind them those that it lacks. -/
def newArguments (c : Config) (p : PaginatedField) : List Argument :=
  p.head.arguments.map (Flags.disabled.use (p.strategy c)).asVariable ++
    ((usedArguments (p.strategy c)).filter fun a => a.name ∉ p.head.arguments.map (·.name)).map
      (variableArgument ·.name)

/-- **The first field.**  The visit leaves its arguments in use, with what it passes as defaults. -/
theorem visit_initial {head : FieldHead} {state : PageState}
    (h : p.visit c .initial = .ok (head, state)) :
    head = { p.head with arguments := p.newArguments c } ∧
      state.flags.enabled = usedArguments (p.strategy c) ∧
      (∀ a ∈ usedArguments (p.strategy c), (state.flags a).defaultValue = p.defaultOf a) ∧
      state.path = some p.path := by
  obtain ⟨arguments, hreplace, rfl, hpath⟩ := p.visit_eq_ok h
  obtain ⟨rfl, henabled, hdefaults⟩ := replaceArguments_first hreplace
  exact ⟨rfl, henabled, hdefaults, hpath⟩

/-- A field passes a variable for each argument that it pages with. -/
theorem variableArgument_mem {a : PageArgument} (ha : a ∈ usedArguments (p.strategy c)) :
    variableArgument a.name ∈ p.newArguments c := by
  by_cases hpassed : a.name ∈ p.head.arguments.map (·.name)
  · obtain ⟨argument, hmem, hname⟩ := List.mem_map.mp hpassed
    have huse : (Flags.disabled.use (p.strategy c)).inUse? argument.name = some a :=
      Flags.inUse?_eq_some.mpr ⟨hname, mem_usedArguments.mp ha⟩
    rw [newArguments, ← Flags.asVariable_of_some huse]
    exact List.mem_append_left _ (List.mem_map_of_mem hmem)
  · have hlacks : a ∈ (usedArguments (p.strategy c)).filter fun a =>
        a.name ∉ p.head.arguments.map (·.name) :=
      List.mem_filter.mpr ⟨ha, decide_eq_true hpassed⟩
    exact List.mem_append_right _ (List.mem_map_of_mem hlacks)

/-- A field with distinct arguments still has distinct ones. -/
theorem nodup_newArguments (h : (p.head.arguments.map (·.name)).Nodup) :
    ((p.newArguments c).map (·.name)).Nodup := by
  have hpassed : (p.head.arguments.map (Flags.disabled.use (p.strategy c)).asVariable).map (·.name)
      = p.head.arguments.map (·.name) := by
    rw [List.map_map]
    exact List.map_congr_left fun argument _ => Flags.name_asVariable _ argument
  rw [newArguments, List.map_append, hpassed, List.map_map, List.nodup_append]
  refine ⟨h, ?_, ?_⟩
  · exact List.Pairwise.map _ (fun _ _ hne hname => hne (PageArgument.name_injective hname))
      (List.Pairwise.filter _ (nodup_usedArguments _))
  · rintro name hname _ hlacks rfl
    obtain ⟨a, ha, rfl⟩ := List.mem_map.mp hlacks
    exact absurd hname (of_decide_eq_true (List.mem_filter.mp ha).2)

/-- With distinct names a field passes each argument that it pages with once, as a variable. -/
theorem passes_once (h : (p.head.arguments.map (·.name)).Nodup) {a : PageArgument}
    (ha : a ∈ usedArguments (p.strategy c)) :
    (p.newArguments c).filter (·.name = a.name) = [variableArgument a.name] :=
  filter_eq_singleton (nodup_newArguments h) (variableArgument_mem ha)

end PaginatedField

/-- **The only field.**  A definition with one paginated field has it afterwards, with its new
arguments, and these are in use. -/
theorem hoisted_singleton {ancestors : List Ancestor} {ss ss' : List Selection} {state : PageState}
    (hp : paginatedFieldsOf c ancestors ss = [p])
    (h : paginateSelections c ancestors ss .initial = .ok (ss', state)) (others : List Ancestor) :
    (∃ p', paginatedFieldsOf c others
        (Selection.mapAllDirectives (hoistArguments c state.flags) ss') = [p'] ∧
      p'.head.arguments = p.newArguments c) ∧
      state.flags.enabled = usedArguments (p.strategy c) ∧
      (∀ a ∈ usedArguments (p.strategy c), (state.flags a).defaultValue = p.defaultOf a) ∧
      state.path = some p.path := by
  have hvisit := visitFields_of_paginateSelections h ancestors
  rw [hp] at hvisit
  simp only [visitFields, bind_eq_ok, pure_eq_ok, Prod.mk.injEq, Prod.exists] at hvisit
  obtain ⟨head, state, hhead, _, _, ⟨rfl, rfl⟩, hheads, rfl⟩ := hvisit
  obtain ⟨rfl, hflags⟩ := p.visit_initial hhead
  refine ⟨?_, hflags⟩
  have hhoisted := heads_hoistArguments c state.flags ss' ancestors others
  rw [← hheads, List.map_singleton, List.map_eq_singleton_iff] at hhoisted
  obtain ⟨p', hp', hhead'⟩ := hhoisted
  exact ⟨p', hp', by rw [hhead']; rfl⟩

/-- A definition is visited if what its only paginated field passes can be kept. -/
theorem paginateSelections_of_singleton {ancestors : List Ancestor} {ss : List Selection}
    {declared : List String} (hp : paginatedFieldsOf c ancestors ss = [p])
    (hdeclared : declaredArguments c.schema p.ancestors p.head.name = .ok declared)
    (hread : Readable (usedArguments (p.strategy c)) p.head.arguments) :
    ∃ ss' state, paginateSelections c ancestors ss .initial = .ok (ss', state) := by
  obtain ⟨⟨head, state⟩, hvisit⟩ := p.visit_isOk hdeclared hread .initial
  have hvisits : visitFields c (paginatedFieldsOf c ancestors ss) .initial
      = .ok ([head], state) := by
    rw [hp, visitFields, hvisit]
    rfl
  obtain ⟨ss', hss⟩ := paginateSelections_of_visitFields hvisits
  exact ⟨ss', state, hss⟩

end QueryCompiler
