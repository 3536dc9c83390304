import QueryCompiler.Proofs.Lists.Marks
import QueryCompiler.Proofs.Pagination.Documents
/-
# Where paginated selections come from

The pagination pass goes through many documents with many definitions, in a visit that carries a
state from field to field, and it may stop on the way.  What it leaves when it succeeds is simple
(`Executable.PagedFrom`): a definition is as it was, in a document without paginated fields; or it
has been visited and hoisted; or it is a query for refetching, whose fields have no directives.

* `pagedFrom_of_paginate`: every definition after the pass is one of the three;
* `PaginatesTo.everyIn_paginateSelections`: what visited fields have is said field by field.
-/
namespace QueryCompiler

variable {c : Config}

/-! ## 1. Fields -/

/-- A property `Q` of what a visit leaves of fields with the property `P`: of those that have no
directives, of paginated ones with their new arguments and with what they gain, and of all others. -/
structure PaginatesTo (c : Config) (P Q : FieldProperty) : Prop where
  plain : ∀ ancestors name ss, Q ancestors (.plain name) ss
  paginated : ∀ {ancestors others head head' ss flags flags' gained},
    AlikeAncestors ancestors others →
      paginateHead c ancestors head flags = .ok (head', gained, flags') →
        P ancestors head ss → ∀ below, Q others head' (below ++ gained)
  unpaginated : ∀ {ancestors others head ss below}, AlikeAncestors ancestors others →
    isPaginated c head below = false → P ancestors head ss → Q others head below

namespace PaginatesTo

variable {P Q : FieldProperty}

theorem everyIn_gainedSelections (hfield : PaginatesTo c P Q) (strategy : Option Strategy)
    (ancestors : List Ancestor) : EveryIn Q ancestors (gainedSelections strategy) := by
  have hpageInfo : EveryIn Q ancestors pageInfo := everyIn_pageInfo hfield.plain ancestors
  rcases strategy with _ | _ | _ | _
  · exact hpageInfo
  · exact hpageInfo
  · exact hpageInfo
  · exact everyIn_nil ancestors

mutual

theorem every_paginateSelection (hfield : PaginatesTo c P Q) :
    ∀ {s s' : Selection} {ancestors others : List Ancestor} {state state' : PageState},
      AlikeAncestors ancestors others → s.Every P ancestors →
        paginateSelection c ancestors s state = .ok (s', state') → s'.Every Q others
  | .field head ss, s', ancestors, others, state, state', halike, hs, h => by
    rw [Selection.Every] at hs
    rw [paginateSelection] at h
    split at h
    · simp only [bind_eq_ok, pure_eq_ok, Prod.mk.injEq, Prod.exists] at h
      obtain ⟨head', gained, flags, hpaged, below, state₁, hbelow, rfl, rfl⟩ := h
      obtain ⟨_, arguments, -, -, hhead', rfl⟩ := paginateHead_eq_ok hpaged
      have hunder : AlikeAncestors (ancestors ++ [.field head]) (others ++ [.field head']) :=
        halike.under (.field (by rw [hhead']))
      rw [Selection.Every, everyIn_append]
      exact ⟨hfield.paginated halike hpaged hs.1 below,
        everyIn_paginateSelections hfield hunder hs.2 hbelow, hfield.everyIn_gainedSelections _ _⟩
    · rename_i hp
      simp only [bind_eq_ok, pure_eq_ok, Prod.mk.injEq, Prod.exists] at h
      obtain ⟨below, state₁, hbelow, rfl, rfl⟩ := h
      rw [← isPaginated_congr rfl (paginateSelections_isEmpty hbelow)] at hp
      rw [Selection.Every]
      exact ⟨hfield.unpaginated halike (Bool.eq_false_iff.mpr hp) hs.1,
        everyIn_paginateSelections hfield (halike.under (.field rfl)) hs.2 hbelow⟩
  | .spread name directives, s', ancestors, others, state, state', _, _, h => by
    rw [paginateSelection, pure_eq_ok] at h
    rw [← (Prod.mk.inj h).1, Selection.Every]
    trivial
  | .inline condition directives ss, s', ancestors, others, state, state', halike, hs, h => by
    rw [Selection.Every] at hs
    rw [paginateSelection] at h
    simp only [bind_eq_ok, pure_eq_ok, Prod.mk.injEq, Prod.exists] at h
    obtain ⟨below, state₁, hbelow, rfl, rfl⟩ := h
    rw [Selection.Every]
    exact everyIn_paginateSelections hfield (halike.under (.inline condition)) hs hbelow

/-- **What visited fields have** is said field by field. -/
theorem everyIn_paginateSelections (hfield : PaginatesTo c P Q) :
    ∀ {ss ss' : List Selection} {ancestors others : List Ancestor} {state state' : PageState},
      AlikeAncestors ancestors others → EveryIn P ancestors ss →
        paginateSelections c ancestors ss state = .ok (ss', state') → EveryIn Q others ss'
  | [], ss', ancestors, others, state, state', _, _, h => by
    rw [paginateSelections, pure_eq_ok] at h
    rw [← (Prod.mk.inj h).1]
    exact everyIn_nil others
  | s :: ss, ss', ancestors, others, state, state', halike, hs, h => by
    rw [EveryIn] at hs
    rw [paginateSelections] at h
    simp only [bind_eq_ok, pure_eq_ok, Prod.mk.injEq, Prod.exists] at h
    obtain ⟨first, state₁, hfirst, rest, state₂, hrest, rfl, rfl⟩ := h
    rw [EveryIn]
    exact ⟨every_paginateSelection hfield halike hs.1 hfirst,
      everyIn_paginateSelections hfield halike hs.2 hrest⟩

end

end PaginatesTo

/-! ## 2. Definitions -/

/-- A definition that selects something, after the pass. -/
inductive Executable.PagedFrom (c : Config) (d : Document) : Executable → Prop
  /-- A definition as it was. -/
  | kept {e : Executable} (he : e ∈ d.executables)
      (hnone : paginatedFieldsOf c [e.ancestor] e.selections = []) : PagedFrom c d e
  /-- A definition that has been visited and hoisted. -/
  | visited {e e' : Executable} {ss : List Selection} {state state' : PageState} {flags : Flags}
      (he : e ∈ d.executables)
      (hvisit : paginateSelections c [e.ancestor] e.selections state = .ok (ss, state'))
      (hancestor : e'.ancestor = e.ancestor)
      (hselections : e'.selections = Selection.mapAllDirectives (hoistArguments c flags) ss) :
      PagedFrom c d e'
  /-- A query for refetching. -/
  | refetch {e : Executable}
      (hplain : EveryIn (fun _ head _ => head.directives = []) [e.ancestor] e.selections) :
      PagedFrom c d e

theorem paginateDefinition_executable {definition definition' : Definition}
    {state state' : PageState}
    (h : paginateDefinition c state definition = .ok (definition', state')) {e' : Executable}
    (he' : Executable.ofDefinition? definition' = some e') :
    ∃ e, Executable.ofDefinition? definition = some e ∧ e'.ancestor = e.ancestor ∧
      paginateSelections c [e.ancestor] e.selections state = .ok (e'.selections, state') := by
  cases definition with
  | operation o =>
    simp only [paginateDefinition, bind_eq_ok, pure_eq_ok, Prod.mk.injEq, Prod.exists] at h
    obtain ⟨ss, _, hss, rfl, rfl⟩ := h
    obtain rfl := Option.some.inj he'
    exact ⟨.operation o, rfl, rfl, hss⟩
  | fragment f =>
    simp only [paginateDefinition, bind_eq_ok, pure_eq_ok, Prod.mk.injEq, Prod.exists] at h
    obtain ⟨ss, _, hss, rfl, rfl⟩ := h
    obtain rfl := Option.some.inj he'
    exact ⟨.fragment f, rfl, rfl, hss⟩
  | schema _ | type _ | directive _ =>
    obtain rfl := (Prod.mk.inj (Except.ok.inj h)).1
    cases he'

theorem hoistDefinition_executable {flags : Flags} {definition hoisted : Definition}
    (h : hoistDefinition c flags definition = .ok hoisted) {e' : Executable}
    (he' : Executable.ofDefinition? hoisted = some e') :
    ∃ e, Executable.ofDefinition? definition = some e ∧ e'.ancestor = e.ancestor ∧
      e'.selections = Selection.mapAllDirectives (hoistArguments c flags) e.selections := by
  cases definition with
  | operation o =>
    rw [hoistDefinition] at h
    split at h
    · obtain rfl := Except.ok.inj h
      obtain rfl := Option.some.inj he'
      exact ⟨.operation o, rfl, rfl, rfl⟩
    · exact absurd h error_ne_ok
  | fragment f =>
    obtain rfl := Except.ok.inj h
    obtain rfl := Option.some.inj he'
    exact ⟨.fragment f, rfl, rfl, rfl⟩
  | schema _ | type _ | directive _ =>
    obtain rfl := Except.ok.inj h
    cases he'

theorem paginateDefinitions_eq_ok : ∀ {definitions definitions' : List Definition}
    {state state' : PageState},
    paginateDefinitions c state definitions = .ok (definitions', state') →
      (∀ definition' ∈ definitions', ∃ definition ∈ definitions, ∃ before after,
        paginateDefinition c before definition = .ok (definition', after)) ∧
      (state'.path = none → state.path = none ∧
        ∀ definition ∈ definitions, definition.paginatedFields c = [])
  | [], definitions', state, state', h => by
    rw [paginateDefinitions, pure_eq_ok] at h
    obtain ⟨rfl, rfl⟩ := Prod.mk.inj h
    exact ⟨fun _ hd => absurd hd List.not_mem_nil,
      fun hpath => ⟨hpath, fun _ hd => absurd hd List.not_mem_nil⟩⟩
  | definition :: definitions, definitions', state, state', h => by
    rw [paginateDefinitions] at h
    simp only [bind_eq_ok, pure_eq_ok, Prod.mk.injEq, Prod.exists] at h
    obtain ⟨first, state₁, hfirst, rest, state₂, hrest, rfl, rfl⟩ := h
    obtain ⟨hsource, hnone⟩ := paginateDefinitions_eq_ok hrest
    refine ⟨List.forall_mem_cons.mpr ⟨?_, fun definition' hd => ?_⟩, fun hpath => ?_⟩
    · exact ⟨definition, List.mem_cons_self, state, state₁, hfirst⟩
    · obtain ⟨definition, hd, hvisit⟩ := hsource definition' hd
      exact ⟨definition, List.mem_cons_of_mem _ hd, hvisit⟩
    · obtain ⟨hpath₁, hall⟩ := hnone hpath
      obtain ⟨hfields, rfl⟩ :=
        visitFields_of_path_eq_none (visitFields_of_paginateDefinition hfirst) hpath₁
      exact ⟨hpath₁, List.forall_mem_cons.mpr ⟨hfields, hall⟩⟩

theorem refetchQuery_plain {flags : Flags} {target : RefetchTarget} {definitions : List Definition}
    (h : refetchQuery c flags target = .ok definitions) :
    ∀ e ∈ definitions.filterMap Executable.ofDefinition?,
      EveryIn (fun _ head _ => head.directives = []) [e.ancestor] e.selections := by
  rw [refetchQuery] at h
  split at h
  · simp only [bind_eq_ok, pure_eq_ok] at h
    obtain ⟨keyVariables, -, rfl⟩ := h
    simp [Executable.ofDefinition?, Executable.selections, EveryIn, Selection.Every]
  · rw [pure_eq_ok] at h
    subst h
    simp [Executable.ofDefinition?, Executable.selections, EveryIn, Selection.Every]

/-! ## 3. Documents -/

variable {d d' : Document} {own : List Document}

/-- What stands under a definition after the pass stood there before. -/
theorem pagedFrom_of_hoisted {definitions paged hoisted : List Definition}
    {state state' : PageState} {flags : Flags} (hd : d.definitions = definitions)
    (hpaged : paginateDefinitions c state definitions = .ok (paged, state'))
    (hhoist : paged.mapM (hoistDefinition c flags) = .ok hoisted) :
    ∀ e ∈ hoisted.filterMap Executable.ofDefinition?, e.PagedFrom c d := by
  intro e he
  obtain ⟨final, hfinal, he⟩ := List.mem_filterMap.mp he
  obtain ⟨middle, hmiddle, hhoisted⟩ := exists_of_forall₂ (mapM_eq_ok.mp hhoist) hfinal
  obtain ⟨first, hfirst, before, after, hvisit⟩ := (paginateDefinitions_eq_ok hpaged).1 middle hmiddle
  obtain ⟨e₁, he₁, hancestor, hselections⟩ := hoistDefinition_executable hhoisted he
  obtain ⟨e₀, he₀, hancestor₀, hvisited⟩ := paginateDefinition_executable hvisit he₁
  refine .visited (List.mem_filterMap.mpr ⟨first, hd ▸ hfirst, he₀⟩) hvisited
    (hancestor.trans hancestor₀) hselections

/-- **What the pass leaves of a document**, and of the query that refetches it. -/
theorem pagedFrom_of_paginateDocument (h : paginateDocument c d = (d', .ok own)) :
    ∀ q ∈ d' :: own, ∀ e ∈ q.executables, e.PagedFrom c d := by
  rw [paginateDocument] at h
  split at h
  · exact absurd (Prod.mk.inj h).2 error_ne_ok
  · rename_i definitions state hpaged
    split at h
    · rename_i hpath
      obtain ⟨rfl, hown⟩ := Prod.mk.inj h
      obtain rfl := Except.ok.inj hown
      rw [List.forall_mem_singleton]
      intro e he
      obtain ⟨definition, hdefinition, hofdef⟩ := List.mem_filterMap.mp he
      have hnone := ((paginateDefinitions_eq_ok hpaged).2 hpath).2 definition hdefinition
      refine .kept he ?_
      cases definition with
      | operation o => obtain rfl := Option.some.inj hofdef; exact hnone
      | fragment f => obtain rfl := Option.some.inj hofdef; exact hnone
      | schema _ | type _ | directive _ => cases hofdef
    · dsimp only at h
      split at h
      · exact absurd (Prod.mk.inj h).2 error_ne_ok
      · rename_i hoisted hhoist
        have hhoisted := @pagedFrom_of_hoisted c d _ _ _ _ _ _ rfl hpaged hhoist
        split at h
        · obtain ⟨rfl, hown⟩ := Prod.mk.inj h
          obtain rfl := Except.ok.inj hown
          rw [List.forall_mem_singleton]
          exact hhoisted
        · split at h
          · exact absurd (Prod.mk.inj h).2 error_ne_ok
          · rename_i query hquery
            obtain ⟨rfl, hown⟩ := Prod.mk.inj h
            obtain rfl := Except.ok.inj hown
            rw [List.forall_mem_cons, List.forall_mem_singleton]
            exact ⟨hhoisted, fun e he => .refetch (refetchQuery_plain hquery e he)⟩

theorem source_of_paginateEach : ∀ {documents documents' new : List Document},
    paginateEach c documents = (documents', .ok new) → ∀ q ∈ documents' ++ new,
      ∃ d ∈ documents, ∃ d' own, paginateDocument c d = (d', .ok own) ∧ q ∈ d' :: own
  | [], documents', new, h, q, hq => by
    obtain ⟨rfl, hnew⟩ := Prod.mk.inj h
    obtain rfl := Except.ok.inj hnew
    exact absurd hq List.not_mem_nil
  | d :: documents, documents', new, h, q, hq => by
    rw [paginateEach] at h
    split at h
    · exact absurd (Prod.mk.inj h).2 error_ne_ok
    · rename_i d' own hfirst
      obtain ⟨rfl, hnew⟩ := Prod.mk.inj h
      rcases hrest : paginateEach c documents with ⟨rest, e | others⟩
      · rw [hrest] at hnew
        exact absurd hnew error_ne_ok
      · rw [hrest] at hnew hq
        obtain rfl := Except.ok.inj hnew
        have hcases : q ∈ d' :: own ∨ q ∈ rest ++ others := by
          simp only [List.mem_append, List.mem_cons] at hq ⊢
          tauto
        rcases hcases with hq | hq
        · exact ⟨d, List.mem_cons_self, d', own, hfirst, hq⟩
        · obtain ⟨d, hd, hpaged⟩ := source_of_paginateEach hrest q hq
          exact ⟨d, List.mem_cons_of_mem _ hd, hpaged⟩

/-- **What the pass leaves of all documents.** -/
theorem pagedFrom_of_paginate {documents documents' new : List Document}
    (h : paginate c documents = (documents', .ok new)) :
    ∀ q ∈ documents', ∀ e ∈ q.executables, ∃ d ∈ documents, e.PagedFrom c d := by
  intro q hq e he
  rw [paginate] at h
  split at h
  · rename_i paged added hpaged
    obtain ⟨rfl, -⟩ := Prod.mk.inj h
    obtain ⟨d, hd, d', own, hdocument, hq⟩ := source_of_paginateEach hpaged q hq
    exact ⟨d, hd, pagedFrom_of_paginateDocument hdocument q hq e he⟩
  · exact absurd (Prod.mk.inj h).2 error_ne_ok

end QueryCompiler
