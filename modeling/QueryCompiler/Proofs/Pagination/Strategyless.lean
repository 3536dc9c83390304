import QueryCompiler.Proofs.Artifact.Sent
import QueryCompiler.Proofs.Lists.Names
import QueryCompiler.Proofs.Pagination.Hoisting
/-
# Paginated fields without a way to page

A field with the pagination directive may have no way to page: it declares too few arguments, or it
is asked for its first and its last members at once.  No argument is in use then, so no variable is
passed or declared.  The field is paginated all the same:

* `Definition.informed`: the field selects the page information, and a fragment has an arguments
  directive, if only an empty one;
* `paginate_strategyless`: a client is told to refetch pages of size zero by position, and a
  fragment gets a query that does so.
-/
namespace QueryCompiler

variable {c : Config}

/-! ## 1. No arguments in use -/

theorem Flags.use_disabled : Flags.disabled.use none = .disabled := rfl

theorem Flags.enabled_disabled : Flags.disabled.enabled = [] := rfl

theorem Flags.inUse?_disabled (name : String) : Flags.disabled.inUse? name = none :=
  Flags.inUse?_eq_none fun _ ha => absurd ha List.not_mem_nil

theorem replacePassed_disabled : ∀ arguments : List Argument,
    replacePassed .disabled arguments = .ok (arguments, .disabled, [])
  | [] => rfl
  | argument :: rest => by
    rw [replacePassed, Flags.inUse?_disabled]
    simp only [replacePassed_disabled rest]
    rfl

theorem replaceArguments_disabled (arguments : List Argument) :
    replaceArguments .disabled arguments = .ok (arguments, .disabled) := by
  rw [replaceArguments, replacePassed_disabled]
  simp only [bind, Except.bind, pure, Except.pure, Flags.lacking]
  rw [show PageArgument.all.filter _ = [] from rfl, List.map_nil, List.append_nil]

theorem hoistArguments_disabled : hoistArguments c .disabled = id := by
  funext directives
  refine (List.map_congr_left fun d _ => ?_).trans (List.map_id directives)
  rw [Flags.enabled_disabled]
  split
  · simp only [List.filter_nil, List.map_nil, List.append_nil, id]
  · rfl

mutual

theorem Selection.mapDirectives_id : ∀ s : Selection, s.mapDirectives id = s
  | .field head ss => by rw [mapDirectives, Selection.mapAllDirectives_id ss, id]
  | .spread name directives => rfl
  | .inline condition directives ss => by rw [mapDirectives, Selection.mapAllDirectives_id ss, id]

theorem Selection.mapAllDirectives_id : ∀ ss : List Selection,
    Selection.mapAllDirectives id ss = ss
  | [] => rfl
  | s :: ss => by rw [mapAllDirectives, s.mapDirectives_id, Selection.mapAllDirectives_id ss]

end

theorem Operation.mapDirectives_id (o : Operation) : o.mapDirectives id = o := by
  have hdeclarations : o.declarations.map (·.mapDirectives id) = o.declarations := List.map_id _
  rw [mapDirectives, Selection.mapAllDirectives_id, hdeclarations, id]

theorem Fragment.mapDirectives_id (f : Fragment) : f.mapDirectives id = f := by
  rw [mapDirectives, Selection.mapAllDirectives_id, id]

theorem Definition.mapDirectives_id (d : Definition) : d.mapDirectives id = d := by
  have hpure : (fun ds : List Directive => (pure (id ds) : Id (List Directive))) = pure := rfl
  cases d with
  | operation o => rw [mapDirectives, o.mapDirectives_id]
  | fragment f => rw [mapDirectives, f.mapDirectives_id]
  | schema s => rfl
  | type t =>
    rw [mapDirectives, hpure, TypeDefinition.traverseDirectives, pure_bind,
      TypeBody.traverseDirectives_eq_pure fun _ _ => rfl]
    rfl
  | directive d =>
    rw [mapDirectives, hpure, DirectiveDefinition.traverseDirectives,
      mapM_inputValues_eq_pure fun _ _ => rfl]
    rfl

/-- How a client is told to refetch without a way to page: a page of size zero, by position. -/
def Refetch.emptyPage (path : List String) (embedded : Bool) (targetType : String) : Refetch where
  update := .append
  path := path
  method := .offset
  pageSize := .int 0
  start := .null
  embedded := embedded
  targetType := targetType

theorem refetch_disabled (path : List String) (embedded : Bool) (targetType : String) :
    Flags.disabled.refetch path embedded targetType = .emptyPage path embedded targetType := rfl

/-! ## 2. Definitions -/

mutual

/-- The selection with the page information under its paginated fields. -/
def Selection.withPageInfo (c : Config) : Selection → Selection
  | .field head ss =>
    .field head (if isPaginated c head ss then Selection.withPageInfoAll c ss ++ pageInfo
      else Selection.withPageInfoAll c ss)
  | .spread name directives => .spread name directives
  | .inline condition directives ss => .inline condition directives (Selection.withPageInfoAll c ss)

def Selection.withPageInfoAll (c : Config) : List Selection → List Selection
  | [] => []
  | s :: ss => s.withPageInfo c :: Selection.withPageInfoAll c ss

end

/-- What becomes of a definition when no argument is in use. -/
def Definition.informed (c : Config) : Definition → Definition
  | .operation o => .operation { o with
      selections := Selection.withPageInfoAll c o.selections
      declarations := hoistVariables .disabled o.declarations }
  | .fragment f => .fragment { f with
      selections := Selection.withPageInfoAll c f.selections
      directives := withArgumentsDirective c f.directives }
  | d => d

theorem length_withPageInfoAll : ∀ ss : List Selection,
    (Selection.withPageInfoAll c ss).length = ss.length
  | [] => rfl
  | s :: ss => by
    rw [Selection.withPageInfoAll, List.length_cons, List.length_cons, length_withPageInfoAll ss]

mutual

theorem paginatedFields_of_withPageInfo : ∀ {s : Selection} {ancestors : List Ancestor},
    s.withPageInfo c = s → s.paginatedFields c ancestors = []
  | .field head ss, ancestors, h => by
    rw [Selection.withPageInfo, Selection.field.injEq] at h
    have hlength := congrArg List.length h.2
    rw [Selection.paginatedFields]
    split at h
    · rename_i hp
      rw [if_pos hp, List.length_append, length_withPageInfoAll] at hlength
      exact absurd hlength (by simp [pageInfo])
    · rename_i hp
      rw [if_neg hp]
      exact paginatedFieldsOf_of_withPageInfoAll h.2
  | .spread _ _, _, _ => rfl
  | .inline _ _ _, _, h => by
    rw [Selection.withPageInfo, Selection.inline.injEq] at h
    rw [Selection.paginatedFields]
    exact paginatedFieldsOf_of_withPageInfoAll h.2.2

/-- Selections that gain no page information have no paginated fields. -/
theorem paginatedFieldsOf_of_withPageInfoAll : ∀ {ss : List Selection} {ancestors : List Ancestor},
    Selection.withPageInfoAll c ss = ss → paginatedFieldsOf c ancestors ss = []
  | [], _, _ => rfl
  | s :: ss, ancestors, h => by
    rw [Selection.withPageInfoAll, List.cons.injEq] at h
    rw [paginatedFieldsOf, paginatedFields_of_withPageInfo h.1,
      paginatedFieldsOf_of_withPageInfoAll h.2, List.append_nil]

end

/-- A definition that stays as it is has no paginated fields. -/
theorem Definition.paginatedFields_of_informed {definition : Definition}
    (h : definition.informed c = definition) : definition.paginatedFields c = [] := by
  cases definition with
  | operation o =>
    exact paginatedFieldsOf_of_withPageInfoAll
      (congrArg Operation.selections (Definition.operation.inj h))
  | fragment f =>
    exact paginatedFieldsOf_of_withPageInfoAll
      (congrArg Fragment.selections (Definition.fragment.inj h))
  | schema _ | type _ | directive _ => rfl

/-! ## 3. The visit -/

/-- A field without a way to page keeps its arguments. -/
theorem paginateHead_strategyless {ancestors : List Ancestor} {head head' : FieldHead}
    {gained : List Selection} {flags : Flags}
    (hs : PaginatedField.strategy c { ancestors, head } = none)
    (h : paginateHead c ancestors head .disabled = .ok (head', gained, flags)) :
    head' = head ∧ gained = pageInfo ∧ flags = .disabled := by
  obtain ⟨declared, arguments, hdeclared, hreplace, rfl, rfl⟩ := paginateHead_eq_ok h
  rw [PaginatedField.strategy, hdeclared] at hs
  simp only at hs
  rw [hs, Flags.use_disabled, replaceArguments_disabled] at hreplace
  obtain ⟨rfl, rfl⟩ := Prod.mk.inj (Except.ok.inj hreplace)
  rw [hs]
  exact ⟨rfl, rfl, rfl⟩

mutual

theorem paginateSelection_strategyless : ∀ {s s' : Selection} {ancestors : List Ancestor}
    {path : Option (List String)} {state : PageState},
    (∀ p ∈ s.paginatedFields c ancestors, p.strategy c = none) →
      paginateSelection c ancestors s { flags := .disabled, path } = .ok (s', state) →
        s' = s.withPageInfo c ∧ state.flags = .disabled
  | .field head ss, s', ancestors, path, state, hs, h => by
    rw [Selection.paginatedFields] at hs
    rw [paginateSelection] at h
    rw [Selection.withPageInfo]
    split at h
    · rename_i hp
      rw [if_pos hp] at hs ⊢
      simp only [bind_eq_ok, pure_eq_ok, Prod.mk.injEq, Prod.exists] at h
      obtain ⟨head', gained, flags, hhead, below, state, hbelow, rfl, rfl⟩ := h
      obtain ⟨rfl, rfl, rfl⟩ := paginateHead_strategyless (hs _ List.mem_cons_self) hhead
      obtain ⟨rfl, hflags⟩ :=
        paginateSelections_strategyless (fun p hp => hs p (List.mem_cons_of_mem _ hp)) hbelow
      exact ⟨rfl, hflags⟩
    · rename_i hp
      rw [if_neg hp] at hs ⊢
      simp only [bind_eq_ok, pure_eq_ok, Prod.mk.injEq, Prod.exists] at h
      obtain ⟨below, state, hbelow, rfl, rfl⟩ := h
      obtain ⟨rfl, hflags⟩ := paginateSelections_strategyless hs hbelow
      exact ⟨rfl, hflags⟩
  | .spread name directives, s', ancestors, path, state, _, h => by
    rw [paginateSelection, pure_eq_ok] at h
    obtain ⟨rfl, rfl⟩ := Prod.mk.inj h
    exact ⟨rfl, rfl⟩
  | .inline condition directives ss, s', ancestors, path, state, hs, h => by
    rw [paginateSelection] at h
    simp only [bind_eq_ok, pure_eq_ok, Prod.mk.injEq, Prod.exists] at h
    obtain ⟨below, state, hbelow, rfl, rfl⟩ := h
    rw [Selection.paginatedFields] at hs
    obtain ⟨rfl, hflags⟩ := paginateSelections_strategyless hs hbelow
    exact ⟨rfl, hflags⟩

/-- **Without a way to page** the visit puts the page information under the paginated fields, and
nothing else. -/
theorem paginateSelections_strategyless : ∀ {ss ss' : List Selection} {ancestors : List Ancestor}
    {path : Option (List String)} {state : PageState},
    (∀ p ∈ paginatedFieldsOf c ancestors ss, p.strategy c = none) →
      paginateSelections c ancestors ss { flags := .disabled, path } = .ok (ss', state) →
        ss' = Selection.withPageInfoAll c ss ∧ state.flags = .disabled
  | [], ss', ancestors, path, state, _, h => by
    rw [paginateSelections, pure_eq_ok] at h
    obtain ⟨rfl, rfl⟩ := Prod.mk.inj h
    exact ⟨rfl, rfl⟩
  | s :: ss, ss', ancestors, path, state, hs, h => by
    rw [paginatedFieldsOf, List.forall_mem_append] at hs
    rw [paginateSelections] at h
    simp only [bind_eq_ok, pure_eq_ok, Prod.mk.injEq, Prod.exists] at h
    obtain ⟨first, state₁, hfirst, rest, state₂, hrest, rfl, rfl⟩ := h
    obtain ⟨rfl, hflags₁⟩ := paginateSelection_strategyless hs.1 hfirst
    obtain ⟨flags, path₁⟩ := state₁
    subst hflags₁
    obtain ⟨rfl, hflags₂⟩ := paginateSelections_strategyless hs.2 hrest
    exact ⟨rfl, hflags₂⟩

end

/-! ## 4. Documents -/

/-- What the pass makes of a definition when no argument is in use. -/
theorem paginateDefinition_strategyless {definition paged : Definition}
    {path : Option (List String)} {state : PageState}
    (hs : ∀ p ∈ definition.paginatedFields c, p.strategy c = none)
    (hpaged : paginateDefinition c { flags := .disabled, path } definition = .ok (paged, state)) :
    state.flags = .disabled ∧ ∀ hoisted, hoistDefinition c .disabled paged = .ok hoisted →
      hoisted = definition.informed c := by
  cases definition with
  | operation o =>
    simp only [paginateDefinition, bind_eq_ok, pure_eq_ok, Prod.mk.injEq, Prod.exists] at hpaged
    obtain ⟨ss, state, hss, rfl, rfl⟩ := hpaged
    obtain ⟨rfl, hflags⟩ := paginateSelections_strategyless hs hss
    refine ⟨hflags, fun hoisted h => ?_⟩
    rw [hoistDefinition] at h
    split at h
    · rw [hoistArguments_disabled, Operation.mapDirectives_id] at h
      exact (Except.ok.inj h).symm
    · exact absurd h error_ne_ok
  | fragment f =>
    simp only [paginateDefinition, bind_eq_ok, pure_eq_ok, Prod.mk.injEq, Prod.exists] at hpaged
    obtain ⟨ss, state, hss, rfl, rfl⟩ := hpaged
    obtain ⟨rfl, hflags⟩ := paginateSelections_strategyless hs hss
    refine ⟨hflags, fun hoisted h => ?_⟩
    rw [hoistDefinition, hoistArguments_disabled, Fragment.mapDirectives_id] at h
    exact (Except.ok.inj h).symm
  | schema _ | type _ | directive _ =>
    obtain ⟨rfl, rfl⟩ := Prod.mk.inj (Except.ok.inj hpaged)
    refine ⟨rfl, fun hoisted h => ?_⟩
    have hmapped : Definition.mapDirectives (hoistArguments c .disabled) _ = hoisted :=
      Except.ok.inj h
    rw [hoistArguments_disabled, Definition.mapDirectives_id] at hmapped
    exact hmapped.symm

theorem paginateDefinitions_strategyless : ∀ {definitions paged : List Definition}
    {path : Option (List String)} {state : PageState},
    (∀ p ∈ definitions.flatMap (·.paginatedFields c), p.strategy c = none) →
      paginateDefinitions c { flags := .disabled, path } definitions = .ok (paged, state) →
        state.flags = .disabled ∧ ∀ hoisted, paged.mapM (hoistDefinition c .disabled) = .ok hoisted →
          hoisted = definitions.map (·.informed c)
  | [], paged, path, state, _, h => by
    rw [paginateDefinitions, pure_eq_ok] at h
    obtain ⟨rfl, rfl⟩ := Prod.mk.inj h
    exact ⟨rfl, fun hoisted h => (Except.ok.inj h).symm⟩
  | definition :: definitions, paged, path, state, hs, h => by
    rw [List.flatMap_cons, List.forall_mem_append] at hs
    rw [paginateDefinitions] at h
    simp only [bind_eq_ok, pure_eq_ok, Prod.mk.injEq, Prod.exists] at h
    obtain ⟨first, ⟨flags, path₁⟩, hfirst, rest, state₂, hrest, rfl, rfl⟩ := h
    obtain ⟨hflags₁, hhoisted₁⟩ := paginateDefinition_strategyless hs.1 hfirst
    obtain rfl : flags = .disabled := hflags₁
    obtain ⟨hflags₂, hhoisted₂⟩ := paginateDefinitions_strategyless hs.2 hrest
    refine ⟨hflags₂, fun hoisted hhoist => ?_⟩
    simp only [List.mapM_cons, bind_eq_ok, pure_eq_ok] at hhoist
    obtain ⟨_, hfirst', _, hrest', rfl⟩ := hhoist
    rw [List.map_cons, hhoisted₁ _ hfirst', hhoisted₂ _ hrest']

theorem refetchTarget_informed (definitions : List Definition) :
    RefetchTarget.of c (definitions.map (·.informed c)) = RefetchTarget.of c definitions := by
  have hnext : ∀ target definition, RefetchTarget.next c target (Definition.informed c definition)
      = RefetchTarget.next c target definition := fun _ definition => by cases definition <;> rfl
  rw [RefetchTarget.of, List.foldl_map]
  simp only [hnext]
  rfl

/-- What a client is told about a document, and the query that it gains. -/
structure EmptilyRefetched (c : Config) (d : Document) (path : List String) (d' : Document)
    (own : List Document) : Prop where
  /-- Only page information and empty arguments directives come into the document. -/
  definitions : d'.definitions = d.definitions.map (·.informed c)
  /-- A client is told to refetch an empty page, where the document selects the field. -/
  refetch : d'.refetch = some (.emptyPage path (RefetchTarget.of c d.definitions).embedded
    (refetchTargetType c (RefetchTarget.of c d.definitions).type))
  /-- A fragment gains a query that declares no arguments; a query is refetched as it is. -/
  own : if (RefetchTarget.of c d.definitions).type = "" then own = []
    else ∃ query refetch, refetchQuery c .disabled (RefetchTarget.of c d.definitions) = .ok query ∧
      d'.refetch = some refetch ∧
      own = [refetchDocument d' (RefetchTarget.of c d.definitions).query query refetch]

theorem paginateDocument_strategyless {d d' : Document} {own : List Document}
    {ps : List PaginatedField} {p : PaginatedField} (hp : d.paginatedFields c = ps ++ [p])
    (hs : ∀ q ∈ d.paginatedFields c, q.strategy c = none)
    (h : paginateDocument c d = (d', .ok own)) : EmptilyRefetched c d p.path d' own := by
  rw [paginateDocument] at h
  split at h
  · exact absurd (Prod.mk.inj h).2 error_ne_ok
  · rename_i paged state hpaged
    obtain ⟨hflags, hhoisted⟩ := paginateDefinitions_strategyless hs hpaged
    have hvisit := visitFields_of_paginateDefinitions hpaged
    rw [show d.definitions.flatMap _ = ps ++ [p] from hp] at hvisit
    rw [(visitFields_last hvisit).2, hflags] at h
    dsimp only at h
    split at h
    · exact absurd (Prod.mk.inj h).2 error_ne_ok
    · rename_i hoisted hhoist
      obtain rfl := hhoisted _ hhoist
      rw [refetchTarget_informed, refetch_disabled] at h
      split at h
      · rename_i hempty
        obtain ⟨rfl, hown⟩ := Prod.mk.inj h
        refine ⟨rfl, rfl, ?_⟩
        rw [if_pos (String.isEmpty_iff.mp hempty)]
        exact (Except.ok.inj hown).symm
      · rename_i hempty
        split at h
        · exact absurd (Prod.mk.inj h).2 error_ne_ok
        · rename_i query hquery
          obtain ⟨rfl, hown⟩ := Prod.mk.inj h
          refine ⟨rfl, rfl, ?_⟩
          rw [if_neg fun he => hempty (String.isEmpty_iff.mpr he)]
          exact ⟨query, _, hquery, rfl, (Except.ok.inj hown).symm⟩

/-- A document with paginated fields does not stay as it is. -/
theorem EmptilyRefetched.definitions_ne {d d' : Document} {path : List String}
    {own : List Document} (h : EmptilyRefetched c d path d' own) (hp : d.paginatedFields c ≠ []) :
    d'.definitions ≠ d.definitions := by
  rw [h.definitions]
  intro hsame
  refine hp (List.flatMap_eq_nil_iff.mpr fun definition hmem => ?_)
  exact Definition.paginatedFields_of_informed
    (List.map_inj_left.mp (hsame.trans (List.map_id _).symm) definition hmem)

/-- **A document whose paginated field pages in no way** is changed by every pass that succeeds.
The field selects the page information, a client is told to refetch an empty page, and a fragment
gets a query for it. -/
theorem paginate_strategyless {documents documents' new : List Document}
    (h : paginate c documents = (documents', .ok new)) {d : Document} (hd : d ∈ documents)
    {p : PaginatedField} (hp : d.paginatedFields c = [p]) (hs : p.strategy c = none) :
    ∃ d' ∈ documents', ∃ own, (∀ q ∈ own, q ∈ new) ∧ paginateDocument c d = (d', .ok own) ∧
      EmptilyRefetched c d p.path d' own ∧ d'.definitions ≠ d.definitions := by
  obtain ⟨d', hd', own, hown, hpaged⟩ := mem_of_paginate h hd
  have hnone : ∀ q ∈ d.paginatedFields c, q.strategy c = none := by
    rw [hp, List.forall_mem_singleton]
    exact hs
  have hrefetched : EmptilyRefetched c d p.path d' own :=
    @paginateDocument_strategyless c d d' own [] p hp hnone hpaged
  have hsome : d.paginatedFields c ≠ [] := by
    rw [hp]
    exact List.cons_ne_nil p []
  exact ⟨d', hd', own, hown, hpaged, hrefetched, hrefetched.definitions_ne hsome⟩

/-! ## 5. Both ends at once -/

namespace Sample

/-- The first user and the last one. -/
def firstAndLast : FieldHead := pagedHead "users" [⟨"first", .int "1"⟩, ⟨"last", .int "1"⟩]

def endsFragment : Document :=
  fragment "Ends" "Query" [
    .field firstAndLast [plainField "edges" [plainField "node" [plainField "id" []]]]]

end Sample

open Sample in
theorem endsFragment_strategyless :
    ∃ documents' new, paginate (config bothWays) [endsFragment] = (documents', .ok new) ∧
      endsFragment.paginatedFields (config bothWays) = [⟨[.fragment "Query"], firstAndLast⟩] ∧
      PaginatedField.strategy (config bothWays) ⟨[.fragment "Query"], firstAndLast⟩ = none ∧
      ∃ d' ∈ documents', ∃ own, (∀ q ∈ own, q ∈ new) ∧
        paginateDocument (config bothWays) endsFragment = (d', .ok own) ∧
        EmptilyRefetched (config bothWays) endsFragment ["users"] d' own ∧
        d'.definitions ≠ endsFragment.definitions := by
  have hok : (paginate (config bothWays) [endsFragment]).2.isOk = true := rfl
  rcases h : paginate (config bothWays) [endsFragment] with ⟨documents', e | new⟩
  · rw [h] at hok
    exact absurd hok nofun
  · have hfields : endsFragment.paginatedFields (config bothWays)
        = [⟨[.fragment "Query"], firstAndLast⟩] := rfl
    exact ⟨documents', new, rfl, hfields, rfl,
      paginate_strategyless h (List.mem_singleton_self endsFragment) hfields rfl⟩

open Sample in
/-- The fragment pages in no way, and is to be refetched by a query of its own. -/
theorem endsFragment_refetched :
    ∃ d' q, paginate (config bothWays) [endsFragment] = ([d', q], .ok [q]) ∧
      (∃ p, endsFragment.paginatedFields (config bothWays) = [p] ∧
        p.strategy (config bothWays) = none) ∧
      d'.refetch.map (·.path) = some ["users"] ∧ q.name = "Ends_Pagination_Query" ∧
      ∃ f, d'.definitions = [.fragment f] ∧ hasDirective f.directives "arguments" = true :=
  ⟨_, _, rfl, ⟨_, rfl, rfl⟩, rfl, rfl, _, rfl, rfl⟩

end QueryCompiler
