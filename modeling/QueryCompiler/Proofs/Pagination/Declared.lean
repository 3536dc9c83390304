import QueryCompiler.Proofs.Artifact.Sent
import QueryCompiler.Proofs.Pagination.Hoisting
/-
# Which page variables are declared

All paginated fields of a definition pass variables for the arguments of their ways to page.  What
is declared for them is what the table of flags has in use after the visit, and this is what the
last field uses.

* `paginate_declares`: what a paginated field passes afterwards, and when it is declared.

Hence nothing is missing where all fields page in the same way, a single field among them.  Where
they differ, a variable of an earlier field is declared only if the document did so already
(`mixed_undeclared`).
-/
namespace QueryCompiler

variable {c : Config}

/-! ## 1. Declarations of a definition -/

namespace Definition

/-- What declares a page argument: a query among its variables; a fragment in its arguments
directive, and also the query that refetches it. -/
def Declares (c : Config) (own : List Document) (a : PageArgument) : Definition → Prop
  | .operation o => a.name ∈ o.declarations.map (·.name)
  | .fragment f => c.DeclaresArgument a f.directives ∧
      ∃ q ∈ own, ∃ o, .operation o ∈ q.definitions ∧ a.name ∈ o.declarations.map (·.name)
  | _ => False

/-- What declares a page argument by hand: a fragment also needs its refetch query to look up the
record by a key of that name. -/
def DeclaresByHand (c : Config) (a : PageArgument) : Definition → Prop
  | .operation o => a.name ∈ o.declarations.map (·.name)
  | .fragment f => c.DeclaresArgument a f.directives ∧ a.name ∈ (f.refetchTarget c).keys c
  | _ => False

/-- Queries are refetched as they are, and fragments by a query on their type, if it has a name. -/
def IsRefetched : Definition → Prop
  | .fragment f => f.condition ≠ ""
  | _ => True

/-- The way in which the paginated field visited last pages. -/
def lastStrategy (c : Config) (definition : Definition) : Option Strategy :=
  (definition.paginatedFields c).getLast?.bind (·.strategy c)

theorem lastStrategy_of_concat {definition : Definition} {ps : List PaginatedField}
    {p : PaginatedField} (h : definition.paginatedFields c = ps ++ [p]) :
    definition.lastStrategy c = p.strategy c := by
  rw [lastStrategy, h, List.getLast?_concat]
  rfl

end Definition

/-! ## 2. A paginated definition -/

section Hoisted

variable {flags : Flags} {ss : List Selection} {a : PageArgument}

theorem declares_hoistedQuery {o : Operation} {own : List Document} :
    (Definition.operation (hoistedQuery c flags o ss)).Declares c own a ↔
      a ∈ flags.enabled ∨ a.name ∈ o.declarations.map (·.name) := by
  have hnames : (hoistedQuery c flags o ss).declarations.map (·.name)
      = (hoistVariables flags o.declarations).map (·.name) := by
    rw [hoistedQuery, Operation.mapDirectives, List.map_map]
    rfl
  rw [Definition.Declares, hnames, mem_hoistVariables]

theorem declares_hoistedFragment {f : Fragment} {definitions : List Definition} {d : Document}
    {name : String} {refetch : Refetch}
    (h : refetchQuery c flags (f.refetchTarget c) = .ok definitions) :
    (Definition.fragment (hoistedFragment c flags f ss)).Declares c
        [refetchDocument d name definitions refetch] a ↔
      a ∈ flags.enabled ∨ (Definition.fragment f).DeclaresByHand c a := by
  obtain ⟨keyVariables, hkeys, rfl⟩ := refetchQuery_eq_ok.mp h
  have hkeyNames : keyVariables.map (·.name) = (f.refetchTarget c).keys c := by
    refine List.forall₂_eq_eq_eq ▸ List.forall₂_map_left_iff.mpr ?_
    exact hkeys.flip.imp fun v key hv => (keyVariable_eq_ok hv).1
  have hrefetch : (∃ q ∈ [refetchDocument d name [.operation {
          description := none, kind := .query, name := some (f.refetchTarget c).query
          declarations := flags.enabled.map flags.variable ++ keyVariables
          directives := [], selections := (f.refetchTarget c).selections c flags.enabled }] refetch],
        ∃ o, .operation o ∈ q.definitions ∧ a.name ∈ o.declarations.map (·.name)) ↔
      a ∈ flags.enabled ∨ a.name ∈ (f.refetchTarget c).keys c := by
    simp only [List.mem_singleton, exists_eq_left, refetchDocument, Document.ofDefinitions,
      Definition.operation.injEq]
    rw [List.map_append, List.mem_append, name_mem_map flags.variable fun _ => rfl, hkeyNames]
  rw [Definition.Declares, hrefetch, hoistedFragment, Fragment.mapDirectives,
    declaresArgument_hoisted, Definition.DeclaresByHand]
  tauto

end Hoisted

/-- What the fields of a definition pass is read off after hoisting. -/
theorem passes_hoisted {flags : Flags} {ancestors : List Ancestor} {ss ss' : List Selection}
    {state : PageState} (h : paginateSelections c ancestors ss .initial = .ok (ss', state))
    (others : List Ancestor) :
    List.Forall₂ (fun p p' => p.Passes c p'.head.arguments) (paginatedFieldsOf c ancestors ss)
      (paginatedFieldsOf c others (Selection.mapAllDirectives (hoistArguments c flags) ss')) := by
  have hvisited := visitFields_passes (visitFields_of_paginateSelections h ancestors)
  have hhoisted : List.Forall₂ (fun p head => p.Passes c head.arguments)
      (paginatedFieldsOf c ancestors ss) ((paginatedFieldsOf c others
        (Selection.mapAllDirectives (hoistArguments c flags) ss')).map (·.head)) := by
    rw [heads_hoistArguments c flags ss' ancestors others, List.forall₂_map_right_iff]
    exact hvisited
  rw [List.forall₂_map_right_iff] at hhoisted
  exact hhoisted

/-! ## 3. The pass -/

/-- **What paginated fields pass, and when it is declared.**  A paginated field passes variables for
arguments of its way to page only.  Such a variable is declared exactly if the paginated field
visited last uses that argument too, or if the document declares it by hand. -/
theorem paginate_declares {documents documents' new : List Document}
    (h : paginate c documents = (documents', .ok new)) {d : Document} (hd : d ∈ documents)
    {definition : Definition} (hdefinition : d.definitions = [definition]) :
    ∃ d' ∈ documents', ∃ own, (∀ q ∈ own, q ∈ new) ∧ paginateDocument c d = (d', .ok own) ∧
      ∃ definition', d'.definitions = [definition'] ∧
        List.Forall₂ (fun p p' => p.Passes c p'.head.arguments) (definition.paginatedFields c)
          (definition'.paginatedFields c) ∧
        ∀ p ∈ definition.paginatedFields c, ∀ a ∈ usedArguments (p.strategy c),
          (definition'.Declares c own a ↔ definition.IsRefetched ∧
            (a ∈ usedArguments (definition.lastStrategy c) ∨ definition.DeclaresByHand c a)) := by
  obtain ⟨d', hd', own, hown, hpaged⟩ := mem_of_paginate h hd
  refine ⟨d', hd', own, hown, hpaged, ?_⟩
  rcases List.eq_nil_or_concat (definition.paginatedFields c) with hp | ⟨ps, last, hp⟩
  · obtain ⟨rfl, -⟩ := paginateDocument_unpaginated hdefinition hp hpaged
    refine ⟨definition, hdefinition, ?_⟩
    rw [hp]
    exact ⟨.nil, fun _ hp => absurd hp List.not_mem_nil⟩
  rw [List.concat_eq_append] at hp
  rw [Definition.lastStrategy_of_concat hp]
  cases definition with
  | operation o =>
    obtain ⟨hkind, ss, state, hss, rfl, rfl⟩ :=
      (paginateDocument_operation hdefinition hp).mp hpaged
    refine ⟨_, rfl, passes_hoisted hss _, fun _ _ a _ => ?_⟩
    have henabled := (paginateSelections_last hp hss).1
    rw [declares_hoistedQuery, henabled]
    exact (and_iff_right trivial).symm
  | fragment f =>
    obtain ⟨ss, state, hss, refetch, -, rfl, hown⟩ :=
      (paginateDocument_fragment hdefinition hp).mp hpaged
    refine ⟨_, rfl, passes_hoisted hss _, fun _ _ a _ => ?_⟩
    have henabled := (paginateSelections_last hp hss).1
    split at hown
    · rename_i hempty
      have hcondition : f.condition = "" := String.isEmpty_iff.mp hempty
      constructor
      · rintro ⟨-, q, hq, -⟩
        rw [hown] at hq
        exact absurd hq List.not_mem_nil
      · exact fun hnamed => absurd hcondition hnamed.1
    · rename_i hnamed
      obtain ⟨query, hquery, rfl⟩ := hown
      have hcondition : f.condition ≠ "" := fun he => hnamed (String.isEmpty_iff.mpr he)
      rw [declares_hoistedFragment hquery, henabled]
      exact (and_iff_right hcondition).symm
  | schema _ | type _ | directive _ =>
    exact absurd (congrArg List.length hp) (by simp [Definition.paginatedFields])

/-! ## 4. Two ways to page in one query -/

namespace Sample

/-- A page of users and a page of posts. -/
def mixed : Document :=
  operation .query "Mixed" [
    .field (pagedHead "users" []) [plainField "edges" [plainField "node" [plainField "id" []]]],
    .field (pagedHead "posts" []) [plainField "id" []]]

end Sample

open Sample in
theorem mixed_declares :
    ∃ documents' new, paginate (config blog) [mixed] = (documents', .ok new) ∧
      ∃ definition, mixed.definitions = [definition] ∧
      ∃ d' ∈ documents', ∃ own, (∀ q ∈ own, q ∈ new) ∧
        paginateDocument (config blog) mixed = (d', .ok own) ∧
        ∃ definition', d'.definitions = [definition'] ∧
          List.Forall₂ (fun p p' => p.Passes (config blog) p'.head.arguments)
            (definition.paginatedFields (config blog))
            (definition'.paginatedFields (config blog)) ∧
          ∀ p ∈ definition.paginatedFields (config blog),
            ∀ a ∈ usedArguments (p.strategy (config blog)),
              (definition'.Declares (config blog) own a ↔ definition.IsRefetched ∧
                (a ∈ usedArguments (definition.lastStrategy (config blog)) ∨
                  definition.DeclaresByHand (config blog) a)) := by
  have hok : (paginate (config blog) [mixed]).2.isOk = true := rfl
  rcases h : paginate (config blog) [mixed] with ⟨documents', e | new⟩
  · rw [h] at hok
    exact absurd hok nofun
  · exact ⟨documents', new, rfl, _, rfl, paginate_declares h (List.mem_singleton_self mixed) rfl⟩

open Sample in
/-- The page of users passes `$first`, and only the variables of the page of posts are declared. -/
theorem mixed_undeclared :
    ∃ d' o, paginate (config blog) [mixed] = ([d'], .ok []) ∧ d'.definitions = [.operation o] ∧
      (∃ p ∈ (Definition.operation o).paginatedFields (config blog),
        variableArgument "first" ∈ p.head.arguments) ∧
      ¬ (Definition.operation o).Declares (config blog) [] .first := by
  refine ⟨?_, ?_, ?paged, ?definitions, ?passed, ?declared⟩
  case paged => exact rfl
  case definitions => exact rfl
  case passed => exact ⟨_, List.mem_cons_self, List.mem_cons_self⟩
  case declared =>
    rw [Definition.Declares]
    decide

end QueryCompiler
