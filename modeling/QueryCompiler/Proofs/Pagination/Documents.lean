import QueryCompiler.Proofs.Pagination.Fields
/-
# What pagination makes of a document

A query or a fragment is collected as a document with one definition.  Where it has paginated
fields, the pass succeeds exactly if the visit does and if what it found can be declared:

* `visitFields_of_paginateDocument`: what becomes of its paginated fields;
* `paginateDocument_operation`: a query declares the arguments in use as its variables;
* `paginateDocument_fragment`: a fragment declares them in its arguments directive, and a query
  that refetches it is made;
* `paginateDocument_unpaginated`: without paginated fields nothing happens;
* `mem_of_paginate`: the pass does this to every document on its own.
-/
namespace QueryCompiler

variable {c : Config}

/-! ## 1. The visit of one definition -/

section Visit

variable {ancestors : List Ancestor} {ss ss' : List Selection} {state state' : PageState}

/-- A visit that succeeds leaves the paginated fields changed, whatever they stand under. -/
theorem visitFields_of_paginateSelections
    (h : paginateSelections c ancestors ss state = .ok (ss', state')) (others : List Ancestor) :
    visitFields c (paginatedFieldsOf c ancestors ss) state
      = .ok ((paginatedFieldsOf c others ss').map (·.head), state') := by
  rw [← paginateSelections_visits ancestors others, h]
  rfl

theorem paginateSelections_of_visitFields {heads : List FieldHead}
    (h : visitFields c (paginatedFieldsOf c ancestors ss) state = .ok (heads, state')) :
    ∃ ss', paginateSelections c ancestors ss state = .ok (ss', state') := by
  rw [← paginateSelections_visits ancestors ancestors, map_eq_ok] at h
  obtain ⟨⟨ss', _⟩, hpaged, hr⟩ := h
  obtain ⟨-, rfl⟩ := Prod.mk.inj hr
  exact ⟨ss', hpaged⟩

/-- The visit ends with what the last paginated field leaves. -/
theorem paginateSelections_last {ps : List PaginatedField} {p : PaginatedField}
    (hp : paginatedFieldsOf c ancestors ss = ps ++ [p])
    (h : paginateSelections c ancestors ss state = .ok (ss', state')) :
    state'.flags.enabled = usedArguments (p.strategy c) ∧ state'.path = some p.path := by
  have hvisit := visitFields_of_paginateSelections h ancestors
  rw [hp] at hvisit
  exact visitFields_last hvisit

end Visit

theorem visitFields_of_paginateDefinition {definition definition' : Definition}
    {state state' : PageState}
    (h : paginateDefinition c state definition = .ok (definition', state')) :
    visitFields c (definition.paginatedFields c) state
      = .ok ((definition'.paginatedFields c).map (·.head), state') := by
  cases definition with
  | operation o =>
    simp only [paginateDefinition, bind_eq_ok, pure_eq_ok, Prod.mk.injEq, Prod.exists] at h
    obtain ⟨ss, _, hss, rfl, rfl⟩ := h
    exact visitFields_of_paginateSelections hss _
  | fragment f =>
    simp only [paginateDefinition, bind_eq_ok, pure_eq_ok, Prod.mk.injEq, Prod.exists] at h
    obtain ⟨ss, _, hss, rfl, rfl⟩ := h
    exact visitFields_of_paginateSelections hss _
  | schema _ | type _ | directive _ =>
    obtain ⟨rfl, rfl⟩ := Prod.mk.inj (Except.ok.inj h)
    rfl

/-- The visit of some definitions is the visit of their paginated fields. -/
theorem visitFields_of_paginateDefinitions : ∀ {definitions paged : List Definition}
    {state state' : PageState}, paginateDefinitions c state definitions = .ok (paged, state') →
      visitFields c (definitions.flatMap (·.paginatedFields c)) state
        = .ok ((paged.flatMap (·.paginatedFields c)).map (·.head), state')
  | [], paged, state, state', h => by
    rw [paginateDefinitions, pure_eq_ok] at h
    obtain ⟨rfl, rfl⟩ := Prod.mk.inj h
    rfl
  | definition :: definitions, paged, state, state', h => by
    rw [paginateDefinitions] at h
    simp only [bind_eq_ok, pure_eq_ok, Prod.mk.injEq, Prod.exists] at h
    obtain ⟨first, state₁, hfirst, rest, state₂, hrest, rfl, rfl⟩ := h
    have hheads := visitFields_of_paginateDefinitions hrest
    rw [List.flatMap_cons, visitFields_append, visitFields_of_paginateDefinition hfirst,
      List.flatMap_cons, List.map_append]
    simp only [bind, Except.bind, hheads, pure, Except.pure]

/-! ## 2. The paginated fields after hoisting -/

section Heads

variable {flags : Flags}

theorem heads_hoistDefinition {definition hoisted : Definition}
    (h : hoistDefinition c flags definition = .ok hoisted) :
    (hoisted.paginatedFields c).map (·.head) = ((definition.paginatedFields c).map (·.head)).map
      (·.mapDirectives (hoistArguments c flags)) := by
  cases definition with
  | operation o =>
    rw [hoistDefinition] at h
    split at h
    · obtain rfl := Except.ok.inj h
      exact heads_hoistArguments c flags o.selections _ _
    · exact absurd h error_ne_ok
  | fragment f =>
    obtain rfl := Except.ok.inj h
    exact heads_hoistArguments c flags f.selections _ _
  | schema _ | type _ | directive _ =>
    obtain rfl := Except.ok.inj h
    rfl

theorem heads_hoistDefinitions {definitions hoisted : List Definition}
    (h : definitions.mapM (hoistDefinition c flags) = .ok hoisted) :
    (hoisted.flatMap (·.paginatedFields c)).map (·.head)
      = ((definitions.flatMap (·.paginatedFields c)).map (·.head)).map
        (·.mapDirectives (hoistArguments c flags)) := by
  rw [mapM_eq_ok] at h
  induction h with
  | nil => rfl
  | cons hfirst _ ih =>
    rw [List.flatMap_cons, List.flatMap_cons, List.map_append, List.map_append, List.map_append,
      heads_hoistDefinition hfirst, ih]

/-- **The paginated fields of a document** are afterwards what the visit leaves of them, hoisted. -/
theorem visitFields_of_paginateDocument {d d' : Document} {own : List Document}
    (h : paginateDocument c d = (d', .ok own)) :
    ∃ paged state heads, paginateDefinitions c .initial d.definitions = .ok (paged, state) ∧
      visitFields c (d.paginatedFields c) .initial = .ok (heads, state) ∧
      (d'.paginatedFields c).map (·.head)
        = heads.map (·.mapDirectives (hoistArguments c state.flags)) := by
  rw [paginateDocument] at h
  split at h
  · exact absurd (Prod.mk.inj h).2 error_ne_ok
  · rename_i paged state hpaged
    have hvisit := visitFields_of_paginateDefinitions hpaged
    refine ⟨paged, state, _, hpaged, hvisit, ?_⟩
    split at h
    · rename_i hpath
      obtain ⟨hnone, -⟩ := visitFields_of_path_eq_none hvisit hpath
      rw [hnone, visitFields, pure_eq_ok] at hvisit
      obtain ⟨rfl, -⟩ := Prod.mk.inj h
      rw [← (Prod.mk.inj hvisit).1, Document.paginatedFields, hnone]
      rfl
    · dsimp only at h
      split at h
      · exact absurd (Prod.mk.inj h).2 error_ne_ok
      · rename_i hoisted hhoist
        -- the query that refetches the document does not change it any more
        have hdefinitions : d'.definitions = hoisted := by
          split at h
          · rw [← (Prod.mk.inj h).1]
            rfl
          · split at h <;>
            · rw [← (Prod.mk.inj h).1]
              rfl
        rw [Document.paginatedFields, hdefinitions]
        exact heads_hoistDefinitions hhoist

end Heads

/-! ## 3. Queries and fragments -/

/-- A query with new selections that declares the arguments in use. -/
def hoistedQuery (c : Config) (flags : Flags) (o : Operation) (selections : List Selection) :
    Operation :=
  Operation.mapDirectives (hoistArguments c flags)
    { o with selections, declarations := hoistVariables flags o.declarations }

/-- A fragment with new selections that declares the arguments in use. -/
def hoistedFragment (c : Config) (flags : Flags) (f : Fragment) (selections : List Selection) :
    Fragment :=
  Fragment.mapDirectives (hoistArguments c flags)
    { f with selections, directives := withArgumentsDirective c f.directives }

/-- What is refetched for a fragment. -/
def Fragment.refetchTarget (c : Config) (f : Fragment) : RefetchTarget where
  query := c.paginationQueryName f.name
  fragment := f.name
  type := f.condition
  embedded := f.condition ≠ c.queryTypeName

/-- The document of a definition that can be refetched. -/
def Document.refetchable (d : Document) (definition : Definition) (refetch : Refetch) : Document :=
  { d.withDefinitions [definition] with refetch := some refetch }

variable {d d' : Document} {own : List Document}

theorem paginateDefinitions_singleton (definition : Definition) (state : PageState) :
    paginateDefinitions c state [definition]
      = (paginateDefinition c state definition).map fun r => ([r.1], r.2) := by
  rw [paginateDefinitions]
  cases paginateDefinition c state definition <;> rfl

/-- A definition with paginated fields is hoisted and, where it can be, refetched. -/
theorem paginateDocument_singleton {definition definition' : Definition} {state : PageState}
    {path : List String} (hd : d.definitions = [definition])
    (hpaged : paginateDefinition c .initial definition = .ok (definition', state))
    (hpath : state.path = some path) :
    paginateDocument c d = (d', .ok own) ↔
      ∃ hoisted, hoistDefinition c state.flags definition' = .ok hoisted ∧
      ∃ target, target = RefetchTarget.of c [hoisted] ∧
      ∃ refetch, refetch =
          state.flags.refetch path target.embedded (refetchTargetType c target.type) ∧
        d' = d.refetchable hoisted refetch ∧
        if target.type.isEmpty then own = []
        else ∃ query, refetchQuery c state.flags target = .ok query ∧
          own = [refetchDocument d' target.query query refetch] := by
  rw [paginateDocument, hd, paginateDefinitions_singleton, hpaged]
  simp only [Except.map, hpath, List.mapM_cons, List.mapM_nil]
  cases hoistDefinition c state.flags definition' with
  | error e => exact ⟨nofun, fun ⟨_, h, _⟩ => absurd h nofun⟩
  | ok hoisted =>
    simp only [bind, Except.bind, pure, Except.pure, Except.ok.injEq, exists_eq_left']
    split
    · rename_i hempty
      constructor
      · intro h
        obtain ⟨rfl, hown⟩ := Prod.mk.inj h
        refine ⟨_, rfl, _, rfl, rfl, ?_⟩
        rw [if_pos hempty]
        exact (Except.ok.inj hown).symm
      · rintro ⟨_, rfl, _, rfl, rfl, hown⟩
        rw [if_pos hempty] at hown
        rw [hown]
        rfl
    · rename_i hempty
      constructor
      · intro h
        split at h
        · exact absurd (Prod.mk.inj h).2 error_ne_ok
        · rename_i query hquery
          obtain ⟨rfl, hown⟩ := Prod.mk.inj h
          refine ⟨_, rfl, _, rfl, rfl, ?_⟩
          rw [if_neg hempty]
          exact ⟨query, hquery, (Except.ok.inj hown).symm⟩
      · rintro ⟨_, rfl, _, rfl, rfl, hown⟩
        rw [if_neg hempty] at hown
        obtain ⟨query, hquery, rfl⟩ := hown
        rw [hquery]
        rfl

/-- A definition is hoisted however the query that refetches it turns out. -/
theorem paginateDocument_fst {definition definition' hoisted : Definition} {state : PageState}
    {path : List String} (hd : d.definitions = [definition])
    (hpaged : paginateDefinition c .initial definition = .ok (definition', state))
    (hpath : state.path = some path)
    (hhoist : hoistDefinition c state.flags definition' = .ok hoisted) :
    (paginateDocument c d).1.definitions = [hoisted] := by
  rw [paginateDocument, hd, paginateDefinitions_singleton, hpaged]
  simp only [Except.map, hpath, List.mapM_cons, List.mapM_nil, hhoist, bind, Except.bind, pure,
    Except.pure]
  split
  · rfl
  · split <;> rfl

theorem paginateDocument_failed {definition : Definition} {e : Error}
    (hd : d.definitions = [definition])
    (hpaged : paginateDefinition c .initial definition = .error e) :
    paginateDocument c d = (d, .error e) := by
  rw [paginateDocument, hd, paginateDefinitions_singleton, hpaged]
  rfl

/-- Without paginated fields nothing happens. -/
theorem paginateDocument_unpaginated {definition : Definition} (hd : d.definitions = [definition])
    (hp : definition.paginatedFields c = []) (h : paginateDocument c d = (d', .ok own)) :
    d' = d ∧ own = [] := by
  cases hpaged : paginateDefinition c .initial definition with
  | error e =>
    rw [paginateDocument_failed hd hpaged] at h
    exact absurd (Prod.mk.inj h).2 error_ne_ok
  | ok r =>
    have hvisit := visitFields_of_paginateDefinition hpaged
    rw [hp, visitFields, pure_eq_ok, Prod.mk.injEq] at hvisit
    rw [paginateDocument, hd, paginateDefinitions_singleton, hpaged] at h
    simp only [Except.map, ← hvisit.2, PageState.initial, Prod.mk.injEq, Except.ok.injEq] at h
    exact ⟨h.1.symm, h.2.symm⟩

variable {p : PaginatedField} {ps : List PaginatedField}

/-- **A paginated query** declares what its last paginated field has in use. -/
theorem paginateDocument_operation {o : Operation} (hd : d.definitions = [.operation o])
    (hp : (Definition.operation o).paginatedFields c = ps ++ [p]) :
    paginateDocument c d = (d', .ok own) ↔ o.kind = .query ∧ ∃ ss state,
      paginateSelections c [.operation o.kind] o.selections .initial = .ok (ss, state) ∧
      d' = d.refetchable (.operation (hoistedQuery c state.flags o ss))
        (state.flags.refetch p.path false c.queryTypeName) ∧ own = [] := by
  cases hpaged : paginateSelections c [.operation o.kind] o.selections .initial with
  | error e =>
    have hfailed : paginateDefinition c .initial (.operation o) = .error e := by
      rw [paginateDefinition, hpaged]
      rfl
    rw [paginateDocument_failed hd hfailed]
    constructor
    · exact fun h => absurd (Prod.mk.inj h).2 error_ne_ok
    · rintro ⟨-, _, _, h, -⟩
      exact absurd h error_ne_ok
  | ok r =>
    obtain ⟨ss, state⟩ := r
    have hdefinition : paginateDefinition c .initial (.operation o)
        = .ok (.operation { o with selections := ss }, state) := by
      rw [paginateDefinition, hpaged]
      rfl
    rw [paginateDocument_singleton hd hdefinition (paginateSelections_last hp hpaged).2]
    constructor
    · rintro ⟨hoisted, hhoist, _, rfl, _, rfl, rfl, hown⟩
      rw [hoistDefinition] at hhoist
      split at hhoist
      · obtain rfl := Except.ok.inj hhoist
        exact ⟨‹_›, ss, state, rfl, rfl, hown⟩
      · exact absurd hhoist error_ne_ok
    · rintro ⟨hkind, _, _, hok, rfl, rfl⟩
      obtain ⟨rfl, rfl⟩ := Prod.mk.inj (Except.ok.inj hok)
      exact ⟨_, if_pos hkind, _, rfl, _, rfl, rfl, rfl⟩

/-- **A paginated fragment** declares what its last paginated field has in use, and so does the
query that refetches it. -/
theorem paginateDocument_fragment {f : Fragment} (hd : d.definitions = [.fragment f])
    (hp : (Definition.fragment f).paginatedFields c = ps ++ [p]) :
    paginateDocument c d = (d', .ok own) ↔ ∃ ss state,
      paginateSelections c [.fragment f.condition] f.selections .initial = .ok (ss, state) ∧
      ∃ refetch, refetch = state.flags.refetch p.path (f.refetchTarget c).embedded
          (refetchTargetType c f.condition) ∧
        d' = d.refetchable (.fragment (hoistedFragment c state.flags f ss)) refetch ∧
        if f.condition.isEmpty then own = []
        else ∃ query, refetchQuery c state.flags (f.refetchTarget c) = .ok query ∧
          own = [refetchDocument d' (f.refetchTarget c).query query refetch] := by
  cases hpaged : paginateSelections c [.fragment f.condition] f.selections .initial with
  | error e =>
    have hfailed : paginateDefinition c .initial (.fragment f) = .error e := by
      rw [paginateDefinition, hpaged]
      rfl
    rw [paginateDocument_failed hd hfailed]
    constructor
    · exact fun h => absurd (Prod.mk.inj h).2 error_ne_ok
    · rintro ⟨_, _, h, -⟩
      exact absurd h error_ne_ok
  | ok r =>
    obtain ⟨ss, state⟩ := r
    have hdefinition : paginateDefinition c .initial (.fragment f)
        = .ok (.fragment { f with selections := ss }, state) := by
      rw [paginateDefinition, hpaged]
      rfl
    rw [paginateDocument_singleton hd hdefinition (paginateSelections_last hp hpaged).2]
    constructor
    · rintro ⟨hoisted, hhoist, _, rfl, refetch, rfl, rfl, hown⟩
      obtain rfl := Except.ok.inj hhoist
      exact ⟨ss, state, rfl, _, rfl, rfl, hown⟩
    · rintro ⟨_, _, hok, refetch, rfl, rfl, hown⟩
      obtain ⟨rfl, rfl⟩ := Prod.mk.inj (Except.ok.inj hok)
      exact ⟨_, rfl, _, rfl, _, rfl, rfl, hown⟩

/-! ## 4. All documents -/

theorem mem_of_paginateEach : ∀ {documents documents' new : List Document},
    paginateEach c documents = (documents', .ok new) → ∀ d ∈ documents,
      ∃ d' ∈ documents', ∃ own, (∀ q ∈ own, q ∈ new) ∧ paginateDocument c d = (d', .ok own)
  | [], _, _, _, d, hd => absurd hd List.not_mem_nil
  | first :: documents, documents', new, h, d, hd => by
    rw [paginateEach] at h
    split at h
    · exact absurd (Prod.mk.inj h).2 error_ne_ok
    · rename_i first' own hfirst
      obtain ⟨rfl, hnew⟩ := Prod.mk.inj h
      rcases hrest : paginateEach c documents with ⟨rest, e | others⟩
      · rw [hrest] at hnew
        exact absurd hnew error_ne_ok
      · rw [hrest] at hnew
        obtain rfl := Except.ok.inj hnew
        rcases List.mem_cons.mp hd with rfl | hd
        · exact ⟨first', List.mem_cons_self, own, fun q hq => List.mem_append_left _ hq, hfirst⟩
        · obtain ⟨d', hd', own', hown, hpaged⟩ := mem_of_paginateEach hrest d hd
          exact ⟨d', List.mem_cons_of_mem _ hd', own',
            fun q hq => List.mem_append_right _ (hown q hq), hpaged⟩

/-- **The pass goes through the documents one by one.** -/
theorem mem_of_paginate {documents documents' new : List Document}
    (h : paginate c documents = (documents', .ok new)) (hd : d ∈ documents) :
    ∃ d' ∈ documents', ∃ own, (∀ q ∈ own, q ∈ new) ∧ paginateDocument c d = (d', .ok own) := by
  rw [paginate] at h
  split at h
  · rename_i paged added hpaged
    obtain ⟨rfl, hnew⟩ := Prod.mk.inj h
    obtain rfl := Except.ok.inj hnew
    obtain ⟨d', hd', own, hown, hdocument⟩ := mem_of_paginateEach hpaged d hd
    exact ⟨d', List.mem_append_left _ hd', own, hown, hdocument⟩
  · exact absurd (Prod.mk.inj h).2 error_ne_ok

end QueryCompiler
