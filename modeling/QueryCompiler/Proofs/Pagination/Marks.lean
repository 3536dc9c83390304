import QueryCompiler.Proofs.Pagination.Sources
/-
# Pagination marks no connections

The pagination pass changes the arguments of fields, adds selections without directives, and
declares page arguments in arguments directives.  None of this says that a field is a connection,
so the marks in what it leaves are those of the documents.
-/
namespace QueryCompiler

variable {c : Config} {P : Argument → Prop}

/-- A visit leaves the directives of fields as they are. -/
theorem marksIn_paginates :
    PaginatesTo c (fun _ head _ => head.MarksIn c P) fun _ head _ => head.MarksIn c P where
  plain _ _ _ := marksIn_of_no_directives rfl
  paginated _ h hmarks _ := by
    obtain ⟨_, arguments, -, -, rfl, -⟩ := paginateHead_eq_ok h
    exact hmarks
  unpaginated _ _ hmarks := hmarks

/-- A page argument is not called `connection`. -/
theorem hoistArguments_marksIn (flags : Flags) {head : FieldHead} (h : head.MarksIn c P) :
    (head.mapDirectives (hoistArguments c flags)).MarksIn c P := by
  intro d hd htag
  obtain ⟨d, hd', rfl⟩ := List.mem_map.mp hd
  by_cases ha : d.name = c.argumentsDirective
  · rw [if_pos ha] at htag ⊢
    have hdeclared (names : List PageArgument) : argument? (names.map fun a =>
        argumentDeclaration a.name a.typeName (flags a).defaultValue) "connection" = none := by
      rw [argument?, List.find?_map, Option.map_eq_none_iff, List.find?_eq_none]
      intro a _
      cases a <;> simp [argumentDeclaration, PageArgument.name]
    intro a hfound
    rw [argument?, List.find?_append] at hfound
    rw [← argument?, ← argument?, hdeclared, Option.or_none] at hfound
    exact h d hd' htag a hfound
  · rw [if_neg ha] at htag ⊢
    exact h d hd' htag

/-- **Pagination marks no connections.** -/
theorem paginate_marksIn {documents documents' new : List Document}
    (hu : ∀ d ∈ documents, d.MarksIn c P) (h : paginate c documents = (documents', .ok new)) :
    ∀ d ∈ documents', d.MarksIn c P := by
  intro q hq e he
  obtain ⟨d, hd, hsource⟩ := pagedFrom_of_paginate h q hq e he
  cases hsource with
  | kept he _ => exact hu d hd e he
  | @visited e _ ss _ _ flags he hvisit _ hselections =>
    have hbefore : EveryIn (fun _ head _ => head.MarksIn c P) [e.ancestor] e.selections :=
      (hu d hd e he).elsewhere
    have hvisited : MarksIn c P ss := (marksIn_paginates.everyIn_paginateSelections
      (alikeAncestors_refl _) hbefore hvisit).elsewhere
    rw [hselections]
    exact everyIn_mapAllDirectives
      (fun _ _ _ _ _ hmarks => hoistArguments_marksIn flags hmarks) .nil hvisited
  | refetch hplain =>
    have hmarks : EveryIn (fun _ head _ => head.MarksIn c P) [e.ancestor] e.selections :=
      hplain.mono fun _ _ _ hnone => marksIn_of_no_directives hnone
    exact hmarks.elsewhere

end QueryCompiler
