import QueryCompiler.Proofs.Artifact.Sent
import QueryCompiler.Proofs.Pagination.OneField
/-
# The choice of a way to page

A field may declare the arguments of several ways to page, and a call may pass any of them.  Which
way is taken, and what the field passes then, is said here for a document with one paginated field
in terms of names alone:

* `Flags.Chosen`: forward goes first, then backward, then by position, and never two of them;
* `Flags.Rewrites`: arguments keep their places, and behind them come those that are missing;
* `paginate_chosen`: both hold of every document with one paginated field.
-/
namespace QueryCompiler

/-! ## 1. One way at most -/

/-- All arguments of a way to page are in use. -/
def Flags.Enables (flags : Flags) (s : Strategy) : Prop :=
  ∀ a, s.uses a = true → (flags a).enabled = true

/-- Which ways to page are taken, from the names that a field declares and those that it passes. -/
structure Flags.Chosen (flags : Flags) (declared passed : List String) : Prop where
  /-- Forward, unless the last members are asked for. -/
  forward : flags.Enables .forward ↔ "first" ∈ declared ∧ "after" ∈ declared ∧ "last" ∉ passed
  /-- Backward where forward does not apply, unless the first members are asked for. -/
  backward : flags.Enables .backward ↔
    ¬ flags.Enables .forward ∧ "last" ∈ declared ∧ "before" ∈ declared ∧ "first" ∉ passed
  /-- By position where neither applies. -/
  byOffset : flags.Enables .byOffset ↔
    ¬ flags.Enables .forward ∧ ¬ flags.Enables .backward ∧ "offset" ∈ declared ∧ "limit" ∈ declared
  /-- Never two ways at once. -/
  single : ∀ {s t}, flags.Enables s → flags.Enables t → s = t
  /-- No argument is in use but those of the way that is taken. -/
  whole : ∀ {a}, a ∈ flags.enabled ↔ ∃ s, flags.Enables s ∧ s.uses a = true

namespace Strategy

/-- Every way to page has arguments. -/
theorem exists_uses : ∀ s : Strategy, ∃ a, s.uses a = true
  | .forward => ⟨.first, rfl⟩
  | .backward => ⟨.last, rfl⟩
  | .byOffset => ⟨.limit, rfl⟩

/-- No argument belongs to two ways to page. -/
theorem eq_of_uses {s t : Strategy} {a : PageArgument} (hs : s.uses a = true)
    (ht : t.uses a = true) : s = t := by
  revert hs ht
  cases s <;> cases t <;> cases a <;> decide

variable {declared passed : List String}

theorem choose_eq_forward : choose declared passed = some .forward ↔
    "first" ∈ declared ∧ "after" ∈ declared ∧ "last" ∉ passed := by
  have hdeclared : isDeclared .forward declared = true ↔ "first" ∈ declared ∧ "after" ∈ declared := by
    change _ ↔ PageArgument.first.name ∈ declared ∧ PageArgument.after.name ∈ declared
    simp [isDeclared, PageArgument.all, uses]
  rw [← and_assoc, ← hdeclared, choose]
  grind

theorem choose_eq_backward : choose declared passed = some .backward ↔
    choose declared passed ≠ some .forward ∧
      "last" ∈ declared ∧ "before" ∈ declared ∧ "first" ∉ passed := by
  have hdeclared : isDeclared .backward declared = true ↔
      "last" ∈ declared ∧ "before" ∈ declared := by
    change _ ↔ PageArgument.last.name ∈ declared ∧ PageArgument.before.name ∈ declared
    simp [isDeclared, PageArgument.all, uses]
  rw [← and_assoc (a := "last" ∈ declared), ← hdeclared, choose]
  grind

theorem choose_eq_byOffset : choose declared passed = some .byOffset ↔
    choose declared passed ≠ some .forward ∧ choose declared passed ≠ some .backward ∧
      "offset" ∈ declared ∧ "limit" ∈ declared := by
  have hdeclared : isDeclared .byOffset declared = true ↔
      "offset" ∈ declared ∧ "limit" ∈ declared := by
    change _ ↔ PageArgument.offset.name ∈ declared ∧ PageArgument.limit.name ∈ declared
    simp [isDeclared, PageArgument.all, uses, and_comm]
  rw [← hdeclared, choose]
  grind

end Strategy

section Chosen

variable {flags : Flags} {strategy : Option Strategy}

/-- Where the arguments of one way are in use, this way is enabled and no other. -/
theorem Flags.enables_iff (h : flags.enabled = usedArguments strategy) {s : Strategy} :
    flags.Enables s ↔ strategy = some s := by
  have huses : ∀ a, (flags a).enabled = true ↔ strategy.any (·.uses a) = true := fun a => by
    rw [← Flags.mem_enabled, h, mem_usedArguments]
  constructor
  · intro henables
    obtain ⟨a, ha⟩ := s.exists_uses
    obtain ⟨t, ht, hta⟩ := (Option.any_eq_true _ _).mp ((huses a).mp (henables a ha))
    rw [ht, Strategy.eq_of_uses hta ha]
  · rintro rfl a ha
    exact (huses a).mpr ha

/-- **The choice**, as it is made from names. -/
theorem Flags.chosen_of_enabled {declared passed : List String}
    (h : flags.enabled = usedArguments (Strategy.choose declared passed)) :
    flags.Chosen declared passed where
  forward := (Flags.enables_iff h).trans Strategy.choose_eq_forward
  backward := by
    rw [Flags.enables_iff h, Flags.enables_iff h]
    exact Strategy.choose_eq_backward
  byOffset := by
    rw [Flags.enables_iff h, Flags.enables_iff h, Flags.enables_iff h]
    exact Strategy.choose_eq_byOffset
  single hs ht := by
    rw [Flags.enables_iff h] at hs ht
    exact Option.some.inj (hs.symm.trans ht)
  whole := by
    intro a
    rw [h, mem_usedArguments, Option.any_eq_true]
    exact exists_congr fun s => and_congr_left' (Flags.enables_iff h).symm

end Chosen

/-! ## 2. What is passed then -/

/-- How a field passes its arguments while some are in use. -/
structure Flags.Rewrites (flags : Flags) (passed passed' : List Argument) : Prop where
  /-- Those in use are variables in their places, the others are untouched, and behind them come
  those in use that were missing, in their order. -/
  arguments : passed' = passed.map flags.asVariable ++
    (flags.enabled.filter fun a => a.name ∉ passed.map (·.name)).map (variableArgument ·.name)
  /-- An argument in use is passed once, as the variable of its name. -/
  single : ∀ a ∈ flags.enabled, passed'.filter (·.name = a.name) = [variableArgument a.name]
  /-- Nothing comes in but arguments in use. -/
  added : ∀ argument ∈ passed', argument ∉ passed →
    ∃ a ∈ flags.enabled, argument = variableArgument a.name

variable {c : Config}

namespace PaginatedField

variable {p : PaginatedField} {head : FieldHead} {state : PageState}

/-- A field that is visited has arguments to choose from. -/
theorem strategy_of_visit {state' : PageState} (h : p.visit c state = .ok (head, state')) :
    ∃ declared, declaredArguments c.schema p.ancestors p.head.name = .ok declared ∧
      p.strategy c = Strategy.choose declared (p.head.arguments.map (·.name)) := by
  simp only [visit, bind_eq_ok, pure_eq_ok, Prod.mk.injEq, Prod.exists] at h
  obtain ⟨_, _, flags, hhead, -, -⟩ := h
  obtain ⟨declared, -, hdeclared, -⟩ := paginateHead_eq_ok hhead
  exact ⟨declared, hdeclared, by rw [strategy, hdeclared]⟩

/-- **What a field passes** where no defaults are known before it. -/
theorem rewrites_of_visit (h : p.visit c .initial = .ok (head, state))
    (hnames : (p.head.arguments.map (·.name)).Nodup) :
    state.flags.Rewrites p.head.arguments head.arguments := by
  obtain ⟨hhead, henabled, -, -⟩ := p.visit_initial h
  have harguments : head.arguments = p.newArguments c := by rw [hhead]
  refine { arguments := ?_, single := fun a ha => ?_, added := fun argument hmem hnew => ?_ }
  · have huse : ∀ a, (state.flags a).enabled = (Flags.disabled.use (p.strategy c) a).enabled := by
      intro a
      rw [Bool.eq_iff_iff, ← Flags.mem_enabled, henabled, ← Flags.mem_enabled, Flags.enabled_use]
    have hsame : state.flags.asVariable = (Flags.disabled.use (p.strategy c)).asVariable := by
      funext argument
      rw [Flags.asVariable, Flags.asVariable, Flags.inUse?_congr huse]
    rw [harguments, newArguments, hsame, henabled]
  · rw [harguments]
    exact p.passes_once hnames (henabled ▸ ha)
  · rw [henabled]
    rcases p.passes_of_visit h argument hmem with ⟨hold, -⟩ | hvariable
    · exact absurd hold hnew
    · exact hvariable

end PaginatedField

/-! ## 3. Documents -/

/-- **A document with one paginated field.**  Its way to page follows from the names that the field
declares and passes, and afterwards the field passes what pages in this way. -/
theorem paginate_chosen {documents documents' new : List Document}
    (h : paginate c documents = (documents', .ok new)) {d : Document} (hd : d ∈ documents)
    {p : PaginatedField} (hp : d.paginatedFields c = [p])
    (hnames : (p.head.arguments.map (·.name)).Nodup) :
    ∃ d' ∈ documents', ∃ own, (∀ q ∈ own, q ∈ new) ∧ paginateDocument c d = (d', .ok own) ∧
      ∃ paged state, paginateDefinitions c .initial d.definitions = .ok (paged, state) ∧
      ∃ declared, declaredArguments c.schema p.ancestors p.head.name = .ok declared ∧
        state.flags.Chosen declared (p.head.arguments.map (·.name)) ∧
      ∃ p', d'.paginatedFields c = [p'] ∧ p'.head.label = p.head.label ∧
        p'.head.name = p.head.name ∧
        state.flags.Rewrites p.head.arguments p'.head.arguments := by
  obtain ⟨d', hd', own, hown, hpaged⟩ := mem_of_paginate h hd
  obtain ⟨paged, state, heads, hdefinitions, hvisits, hheads⟩ :=
    visitFields_of_paginateDocument hpaged
  rw [hp] at hvisits
  simp only [visitFields, bind_eq_ok, pure_eq_ok, Prod.mk.injEq, Prod.exists] at hvisits
  obtain ⟨head, state, hvisit, _, _, ⟨rfl, rfl⟩, rfl, rfl⟩ := hvisits
  rw [List.map_singleton, List.map_eq_singleton_iff] at hheads
  obtain ⟨p', hp', hhead'⟩ := hheads
  obtain ⟨hhead, henabled, -, -⟩ := p.visit_initial hvisit
  obtain ⟨declared, hdeclared, hstrategy⟩ := p.strategy_of_visit hvisit
  have hchosen : state.flags.Chosen declared (p.head.arguments.map (·.name)) :=
    Flags.chosen_of_enabled (hstrategy ▸ henabled)
  have harguments : p'.head.arguments = head.arguments := by
    rw [hhead']
    rfl
  have hrewrites : state.flags.Rewrites p.head.arguments p'.head.arguments :=
    harguments ▸ p.rewrites_of_visit hvisit hnames
  refine ⟨d', hd', own, hown, hpaged, paged, state, hdefinitions, declared, hdeclared, hchosen,
    p', hp', ?label, ?name, hrewrites⟩
  case label => rw [hhead', hhead]; rfl
  case name => rw [hhead', hhead]; rfl

namespace Sample

/-- The users before a page. -/
def lastUsers : FieldHead :=
  pagedHead "users" [⟨"before", .variable "cursor"⟩, ⟨"last", .int "5"⟩]

def lastUsersQuery : Document :=
  operation .query "LastUsers" [
    .field lastUsers [plainField "edges" [plainField "node" [plainField "id" []]]]]

end Sample

open Sample in
theorem lastUsersQuery_chosen :
    ∃ documents' new, paginate (config bothWays) [lastUsersQuery] = (documents', .ok new) ∧
      lastUsersQuery.paginatedFields (config bothWays) = [⟨[.operation .query], lastUsers⟩] ∧
      (lastUsers.arguments.map (·.name)).Nodup ∧
      ∃ d' ∈ documents', ∃ own, (∀ q ∈ own, q ∈ new) ∧
        paginateDocument (config bothWays) lastUsersQuery = (d', .ok own) ∧
        ∃ paged state, paginateDefinitions (config bothWays) .initial lastUsersQuery.definitions
            = .ok (paged, state) ∧
        ∃ declared, declaredArguments bothWays [.operation .query] "users" = .ok declared ∧
          state.flags.Chosen declared (lastUsers.arguments.map (·.name)) ∧
        ∃ p', d'.paginatedFields (config bothWays) = [p'] ∧
          p'.head.label = lastUsers.label ∧ p'.head.name = lastUsers.name ∧
          state.flags.Rewrites lastUsers.arguments p'.head.arguments := by
  have hok : (paginate (config bothWays) [lastUsersQuery]).2.isOk = true := rfl
  rcases h : paginate (config bothWays) [lastUsersQuery] with ⟨documents', e | new⟩
  · rw [h] at hok
    cases hok
  · have hfields : lastUsersQuery.paginatedFields (config bothWays)
        = [⟨[.operation .query], lastUsers⟩] := rfl
    have hnames : (lastUsers.arguments.map (·.name)).Nodup := by decide
    exact ⟨documents', new, rfl, hfields, hnames,
      paginate_chosen h (List.mem_singleton_self lastUsersQuery) hfields hnames⟩

end QueryCompiler
