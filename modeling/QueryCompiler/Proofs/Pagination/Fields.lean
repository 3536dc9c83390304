import QueryCompiler.Pagination.Documents
import QueryCompiler.Proofs.Pagination.Arguments
import QueryCompiler.Proofs.Selection.Directives
/-
# The paginated fields of a document

Visiting a document changes its paginated fields and leaves everything else.  What the visit does
to them depends on the fields alone, and on the order in which they come:

* `Definition.paginatedFields`: the paginated fields of a definition, in the order of the visit;
* `paginateSelections_visits`: to visit some selections is to visit their paginated fields one after
  the other;
* `visitFields_passes`: each of them passes variables for its own way to page;
* `visitFields_last`: afterwards the arguments of the last one are in use.
-/
namespace QueryCompiler

/-! ## 1. Paginated fields -/

/-- A paginated field and what it stands under. -/
structure PaginatedField where
  ancestors : List Ancestor
  head : FieldHead

mutual

/-- The paginated fields of a selection, in the order of the visit. -/
def Selection.paginatedFields (c : Config) (ancestors : List Ancestor) :
    Selection → List PaginatedField
  | .field head selections =>
    let below := paginatedFieldsOf c (ancestors ++ [.field head]) selections
    if isPaginated c head selections then { ancestors, head } :: below else below
  | .spread _ _ => []
  | .inline condition _ selections => paginatedFieldsOf c (ancestors ++ [.inline condition]) selections

def paginatedFieldsOf (c : Config) (ancestors : List Ancestor) :
    List Selection → List PaginatedField
  | [] => []
  | s :: selections => s.paginatedFields c ancestors ++ paginatedFieldsOf c ancestors selections

end

/-- The paginated fields of a definition, in the order of the visit. -/
def Definition.paginatedFields (c : Config) : Definition → List PaginatedField
  | .operation o => paginatedFieldsOf c [.operation o.kind] o.selections
  | .fragment f => paginatedFieldsOf c [.fragment f.condition] f.selections
  | _ => []

/-- The paginated fields of a document, in the order of the visit. -/
def Document.paginatedFields (c : Config) (d : Document) : List PaginatedField :=
  d.definitions.flatMap (·.paginatedFields c)

theorem paginatedFieldsOf_append (c : Config) (ancestors : List Ancestor) :
    ∀ ss rest : List Selection, paginatedFieldsOf c ancestors (ss ++ rest)
      = paginatedFieldsOf c ancestors ss ++ paginatedFieldsOf c ancestors rest
  | [], _ => rfl
  | s :: ss, rest => by
    simp [paginatedFieldsOf, paginatedFieldsOf_append c ancestors ss rest]

/-- The page information has no directives. -/
theorem paginatedFieldsOf_gainedSelections (c : Config) (ancestors : List Ancestor)
    (strategy : Option Strategy) :
    paginatedFieldsOf c ancestors (gainedSelections strategy) = [] := by
  rcases strategy with _ | _ | _ | _ <;>
    simp [gainedSelections, pageInfo, plainField, paginatedFieldsOf, Selection.paginatedFields,
      isPaginated, hasDirective, directive?]

namespace PaginatedField

/-- The path of a field, itself included. -/
def path (p : PaginatedField) : List String := Ancestor.path (p.ancestors ++ [.field p.head])

/-- The way in which a field pages.  There is none where its type has no arguments to speak of. -/
def strategy (c : Config) (p : PaginatedField) : Option Strategy :=
  match declaredArguments c.schema p.ancestors p.head.name with
  | .ok declared => Strategy.choose declared (p.head.arguments.map (·.name))
  | .error _ => none

/-- The field with its new arguments, and the state after it. -/
def visit (c : Config) (p : PaginatedField) (state : PageState) :
    Except Error (FieldHead × PageState) := do
  let (head, _, flags) ← paginateHead c p.ancestors p.head state.flags
  return (head, { flags, path := some p.path })

end PaginatedField

/-- The fields with their new arguments, one after the other, and the state after them. -/
def visitFields (c : Config) : List PaginatedField → PageState →
    Except Error (List FieldHead × PageState)
  | [], state => return ([], state)
  | p :: ps, state => do
    let (head, state) ← p.visit c state
    let (heads, state) ← visitFields c ps state
    return (head :: heads, state)

theorem visitFields_append (c : Config) : ∀ (ps qs : List PaginatedField) (state : PageState),
    visitFields c (ps ++ qs) state = (do
      let (heads, state) ← visitFields c ps state
      let (others, state) ← visitFields c qs state
      return (heads ++ others, state))
  | [], _, _ => by simp [visitFields]
  | p :: ps, qs, state => by
    simp [visitFields, visitFields_append c ps qs]

/-! ## 2. The visit -/

variable {c : Config}

theorem paginateHead_eq_ok {ancestors : List Ancestor} {head head' : FieldHead}
    {gained : List Selection} {flags flags' : Flags}
    (h : paginateHead c ancestors head flags = .ok (head', gained, flags')) :
    ∃ declared arguments, declaredArguments c.schema ancestors head.name = .ok declared ∧
      replaceArguments (flags.use (Strategy.choose declared (head.arguments.map (·.name))))
        head.arguments = .ok (arguments, flags') ∧
      head' = { head with arguments } ∧
      gained = gainedSelections (Strategy.choose declared (head.arguments.map (·.name))) := by
  simp only [paginateHead, bind_eq_ok, pure_eq_ok, Prod.mk.injEq, Prod.exists] at h
  obtain ⟨declared, hdeclared, arguments, flags, hreplace, rfl, rfl, rfl⟩ := h
  exact ⟨declared, arguments, hdeclared, hreplace, rfl, rfl⟩

/-- A visit leaves nothing empty that was not. -/
theorem paginateSelections_isEmpty {ancestors : List Ancestor} {ss ss' : List Selection}
    {state state' : PageState} (h : paginateSelections c ancestors ss state = .ok (ss', state')) :
    ss'.isEmpty = ss.isEmpty := by
  cases ss with
  | nil =>
    rw [paginateSelections, pure_eq_ok] at h
    rw [← (Prod.mk.inj h).1]
  | cons s ss =>
    rw [paginateSelections] at h
    simp only [bind_eq_ok, pure_eq_ok, Prod.mk.injEq, Prod.exists] at h
    obtain ⟨_, _, _, _, _, _, rfl, rfl⟩ := h
    rfl

/-- Whether a field is paginated depends on its directives, and on whether it selects something. -/
theorem isPaginated_congr {head head' : FieldHead} {ss ss' : List Selection}
    (hdirectives : head'.directives = head.directives) (hss : ss'.isEmpty = ss.isEmpty) :
    isPaginated c head' ss' = isPaginated c head ss := by
  rw [isPaginated, isPaginated, hdirectives, hss]

theorem isPaginated_append {head : FieldHead} {ss : List Selection}
    (h : isPaginated c head ss = true) (gained : List Selection) :
    isPaginated c head (ss ++ gained) = true := by
  rw [isPaginated, Bool.and_eq_true] at h ⊢
  cases ss with
  | nil => exact absurd h.2 nofun
  | cons s ss => exact ⟨h.1, rfl⟩

mutual

theorem paginateSelection_visits (ancestors others : List Ancestor) :
    ∀ (s : Selection) (state : PageState),
      (paginateSelection c ancestors s state).map
          (fun r => ((r.1.paginatedFields c others).map (·.head), r.2))
        = visitFields c (s.paginatedFields c ancestors) state
  | .field head ss, state => by
    by_cases hp : isPaginated c head ss = true
    · rw [paginateSelection, if_pos hp, Selection.paginatedFields, if_pos hp, visitFields,
        PaginatedField.visit, PaginatedField.path]
      cases hhead : paginateHead c ancestors head state.flags with
      | error e => rfl
      | ok r =>
        obtain ⟨head', gained, flags⟩ := r
        obtain ⟨declared, arguments, -, -, hhead', rfl⟩ := paginateHead_eq_ok hhead
        simp only [bind, Except.bind, pure, Except.pure]
        rw [← paginateSelections_visits _ (others ++ [.field head']) ss]
        cases hbelow : paginateSelections c (ancestors ++ [.field head]) ss _ with
        | error e => rfl
        | ok r =>
          have hsame : isPaginated c head' r.1 = true :=
            (isPaginated_congr (by rw [hhead']) (paginateSelections_isEmpty hbelow)).trans hp
          simp [Except.map, Selection.paginatedFields, isPaginated_append hsame,
            paginatedFieldsOf_append, paginatedFieldsOf_gainedSelections]
    · rw [paginateSelection, if_neg hp, Selection.paginatedFields, if_neg hp,
        ← paginateSelections_visits _ (others ++ [.field head]) ss]
      cases hbelow : paginateSelections c (ancestors ++ [.field head]) ss state with
      | error e => rfl
      | ok r =>
        have hsame : ¬ isPaginated c head r.1 = true := by
          rwa [isPaginated_congr rfl (paginateSelections_isEmpty hbelow)]
        simp [bind, Except.bind, pure, Except.pure, Except.map, Selection.paginatedFields, hsame]
  | .spread name directives, state => rfl
  | .inline condition directives ss, state => by
    have hbelow := paginateSelections_visits (ancestors ++ [.inline condition])
      (others ++ [.inline condition]) ss state
    rw [paginateSelection, Selection.paginatedFields, ← hbelow]
    cases paginateSelections c (ancestors ++ [.inline condition]) ss state <;> rfl

/-- **To visit some selections is to visit their paginated fields.** -/
theorem paginateSelections_visits (ancestors others : List Ancestor) :
    ∀ (ss : List Selection) (state : PageState),
      (paginateSelections c ancestors ss state).map
          (fun r => ((paginatedFieldsOf c others r.1).map (·.head), r.2))
        = visitFields c (paginatedFieldsOf c ancestors ss) state
  | [], state => rfl
  | s :: ss, state => by
    rw [paginateSelections, paginatedFieldsOf, visitFields_append,
      ← paginateSelection_visits ancestors others s state]
    cases paginateSelection c ancestors s state with
    | error e => rfl
    | ok r =>
      simp only [bind, Except.bind, pure, Except.pure, Except.map]
      rw [← paginateSelections_visits ancestors others ss r.2]
      cases paginateSelections c ancestors ss r.2 with
      | error e => rfl
      | ok r => simp [Except.map, paginatedFieldsOf]

end

/-! ## 3. The fields afterwards -/

/-- What a visit does to one field. -/
theorem PaginatedField.visit_eq_ok {p : PaginatedField} {state state' : PageState}
    {head : FieldHead} (h : p.visit c state = .ok (head, state')) :
    ∃ arguments, replaceArguments (state.flags.use (p.strategy c)) p.head.arguments
        = .ok (arguments, state'.flags) ∧
      head = { p.head with arguments } ∧ state'.path = some p.path := by
  simp only [visit, bind_eq_ok, pure_eq_ok, Prod.mk.injEq, Prod.exists] at h
  obtain ⟨_, _, flags, hhead, rfl, rfl⟩ := h
  obtain ⟨declared, arguments, hdeclared, hreplace, rfl, -⟩ := paginateHead_eq_ok hhead
  refine ⟨arguments, ?_, rfl, rfl⟩
  rw [strategy, hdeclared]
  exact hreplace

/-- A field that pages in some way declares its arguments. -/
theorem PaginatedField.declared_of_strategy {p : PaginatedField} {s : Strategy}
    (h : p.strategy c = some s) :
    ∃ declared, declaredArguments c.schema p.ancestors p.head.name = .ok declared := by
  rw [strategy] at h
  split at h
  · exact ⟨_, ‹_›⟩
  · exact absurd h nofun

theorem PaginatedField.visit_isOk {p : PaginatedField} {declared : List String}
    (hdeclared : declaredArguments c.schema p.ancestors p.head.name = .ok declared)
    (h : Readable (usedArguments (p.strategy c)) p.head.arguments) (state : PageState) :
    ∃ r, p.visit c state = .ok r := by
  have hstrategy : p.strategy c = Strategy.choose declared (p.head.arguments.map (·.name)) := by
    rw [strategy, hdeclared]
  obtain ⟨r, hr⟩ := @replaceArguments_isOk p.head.arguments (state.flags.use (p.strategy c)) h
  have hhead : paginateHead c p.ancestors p.head state.flags
      = .ok ({ p.head with arguments := r.1 }, gainedSelections (p.strategy c), r.2) := by
    refine bind_eq_ok.mpr ⟨declared, hdeclared, ?_⟩
    rw [← hstrategy]
    exact bind_eq_ok.mpr ⟨r, hr, rfl⟩
  exact ⟨_, bind_eq_ok.mpr ⟨_, hhead, rfl⟩⟩

/-- Arguments that a paginated field may pass afterwards: those that it had and that it does not
page with, and variables for the arguments of its way to page. -/
def PaginatedField.Passes (c : Config) (p : PaginatedField) (arguments : List Argument) : Prop :=
  ∀ argument ∈ arguments,
    argument ∈ p.head.arguments ∧ (∀ a ∈ usedArguments (p.strategy c), argument.name ≠ a.name) ∨
      ∃ a ∈ usedArguments (p.strategy c), argument = variableArgument a.name

theorem PaginatedField.passes_of_visit {p : PaginatedField} {state state' : PageState}
    {head : FieldHead} (h : p.visit c state = .ok (head, state')) : p.Passes c head.arguments := by
  intro argument hmem
  obtain ⟨arguments, hreplace, rfl, -⟩ := p.visit_eq_ok h
  rcases mem_replaceArguments hreplace hmem with ⟨hpassed, hnone⟩ | ⟨a, ha, hvariable⟩
  · refine .inl ⟨hpassed, fun a ha hname => ?_⟩
    have hused : ((state.flags.use (p.strategy c)) a).enabled = true := mem_usedArguments.mp ha
    exact absurd ((Flags.inUse?_eq_some.mpr ⟨hname, hused⟩).symm.trans hnone) nofun
  · exact .inr ⟨a, mem_usedArguments.mpr ha, hvariable⟩

theorem visitFields_passes : ∀ {ps : List PaginatedField} {heads : List FieldHead}
    {state state' : PageState}, visitFields c ps state = .ok (heads, state') →
      List.Forall₂ (fun p head => p.Passes c head.arguments) ps heads
  | [], heads, state, state', h => by
    rw [visitFields, pure_eq_ok] at h
    rw [← (Prod.mk.inj h).1]
    exact .nil
  | p :: ps, heads, state, state', h => by
    rw [visitFields] at h
    simp only [bind_eq_ok, pure_eq_ok, Prod.mk.injEq, Prod.exists] at h
    obtain ⟨head, state₁, hvisit, rest, state₂, hrest, rfl, rfl⟩ := h
    exact .cons (p.passes_of_visit hvisit) (visitFields_passes hrest)

/-- **The last field decides**: its arguments are in use in the end. -/
theorem visitFields_last : ∀ {ps : List PaginatedField} {p : PaginatedField}
    {heads : List FieldHead} {state state' : PageState},
    visitFields c (ps ++ [p]) state = .ok (heads, state') →
      state'.flags.enabled = usedArguments (p.strategy c) ∧ state'.path = some p.path
  | [], p, heads, state, state', h => by
    rw [List.nil_append, visitFields] at h
    simp only [visitFields, bind_eq_ok, pure_eq_ok, Prod.mk.injEq, Prod.exists] at h
    obtain ⟨head, state₁, hvisit, _, _, ⟨rfl, rfl⟩, rfl, rfl⟩ := h
    obtain ⟨arguments, hreplace, -, hpath⟩ := p.visit_eq_ok hvisit
    exact ⟨List.filter_congr fun a _ => (replaceArguments_eq_ok hreplace).2.1 a, hpath⟩
  | q :: ps, p, heads, state, state', h => by
    rw [List.cons_append, visitFields] at h
    simp only [bind_eq_ok, pure_eq_ok, Prod.mk.injEq, Prod.exists] at h
    obtain ⟨_, _, -, _, _, hrest, -, rfl⟩ := h
    exact visitFields_last hrest

/-- A visit that has come to no paginated field has gone through none. -/
theorem visitFields_of_path_eq_none {ps : List PaginatedField} {heads : List FieldHead}
    {state state' : PageState} (h : visitFields c ps state = .ok (heads, state'))
    (hpath : state'.path = none) : ps = [] ∧ state' = state := by
  rcases ps.eq_nil_or_concat with rfl | ⟨qs, p, rfl⟩
  · rw [visitFields, pure_eq_ok] at h
    exact ⟨rfl, (Prod.mk.inj h).2.symm⟩
  · rw [List.concat_eq_append] at h
    rw [(visitFields_last h).2] at hpath
    cases hpath

/-! ## 4. Hoisting -/

theorem hasDirective_hoistArguments (flags : Flags) (directives : List Directive) (name : String) :
    hasDirective (hoistArguments c flags directives) name = hasDirective directives name := by
  rw [hasDirective, hasDirective, directive?, directive?, hoistArguments, List.find?_map,
    Option.isSome_map]
  congr 2
  funext d
  simp only [Function.comp_apply]
  split <;> rfl

variable {f : List Directive → List Directive}

theorem isPaginated_mapDirectives
    (hf : ∀ directives, hasDirective (f directives) c.paginateDirective
      = hasDirective directives c.paginateDirective) (head : FieldHead) (ss : List Selection) :
    isPaginated c (head.mapDirectives f) (Selection.mapAllDirectives f ss)
      = isPaginated c head ss := by
  have hempty : (Selection.mapAllDirectives f ss).isEmpty = ss.isEmpty := by
    cases ss <;> rfl
  rw [isPaginated, isPaginated, hempty]
  exact congrArg (· && _) (hf head.directives)

mutual

theorem paginatedFields_mapDirectives
    (hf : ∀ directives, hasDirective (f directives) c.paginateDirective
      = hasDirective directives c.paginateDirective) :
    ∀ (s : Selection) (ancestors others : List Ancestor),
      ((s.mapDirectives f).paginatedFields c others).map (·.head)
        = (s.paginatedFields c ancestors).map (·.head.mapDirectives f)
  | .field head ss, ancestors, others => by
    have hbelow := paginatedFieldsOf_mapAllDirectives hf ss (ancestors ++ [.field head])
      (others ++ [.field (head.mapDirectives f)])
    have hsame := isPaginated_mapDirectives hf head ss
    rw [FieldHead.mapDirectives] at hbelow hsame
    rw [Selection.mapDirectives, Selection.paginatedFields, Selection.paginatedFields, hsame]
    split
    · rw [List.map_cons, List.map_cons, hbelow]
      rfl
    · exact hbelow
  | .spread _ _, _, _ => rfl
  | .inline condition _ ss, _, _ => paginatedFieldsOf_mapAllDirectives hf ss _ _

/-- Hoisting keeps the paginated fields, up to their directives. -/
theorem paginatedFieldsOf_mapAllDirectives
    (hf : ∀ directives, hasDirective (f directives) c.paginateDirective
      = hasDirective directives c.paginateDirective) :
    ∀ (ss : List Selection) (ancestors others : List Ancestor),
      (paginatedFieldsOf c others (Selection.mapAllDirectives f ss)).map (·.head)
        = (paginatedFieldsOf c ancestors ss).map (·.head.mapDirectives f)
  | [], _, _ => rfl
  | s :: ss, ancestors, others => by
    rw [Selection.mapAllDirectives, paginatedFieldsOf, paginatedFieldsOf, List.map_append,
      List.map_append, paginatedFields_mapDirectives hf s ancestors others,
      paginatedFieldsOf_mapAllDirectives hf ss ancestors others]

end

variable (c) in
/-- The paginated fields after hoisting, wherever they stand. -/
theorem heads_hoistArguments (flags : Flags) (ss : List Selection)
    (ancestors others : List Ancestor) :
    (paginatedFieldsOf c others (Selection.mapAllDirectives (hoistArguments c flags) ss)).map
        (·.head)
      = ((paginatedFieldsOf c ancestors ss).map (·.head)).map
        (·.mapDirectives (hoistArguments c flags)) := by
  rw [List.map_map]
  exact paginatedFieldsOf_mapAllDirectives
    (fun ds => hasDirective_hoistArguments flags ds c.paginateDirective) ss ancestors others

/-! ## 5. Lists of a blog -/

namespace Sample

/-- Users page by cursor, and posts by position, those of one user too. -/
def blog : Schema :=
  let posts : SchemaField :=
    ⟨"posts", some [("limit", .named "Int"), ("offset", .named "Int")], .list (.named "Post")⟩
  { types := [.scalar "Int", .scalar "String", .scalar "ID", .scalar "Boolean",
      .object "Query" [] [
        ⟨"users", some [("first", .named "Int"), ("after", .named "String")],
          .named "UserConnection"⟩,
        posts],
      .object "UserConnection" [] [⟨"edges", some [], .list (.named "UserEdge")⟩,
        ⟨"pageInfo", some [], .named "PageInfo"⟩],
      .object "UserEdge" [] [⟨"cursor", some [], .named "String"⟩,
        ⟨"node", some [], .named "User"⟩],
      .object "User" [] [⟨"id", some [], .named "ID"⟩, posts],
      .object "PageInfo" [] [⟨"hasPreviousPage", some [], .named "Boolean"⟩,
        ⟨"hasNextPage", some [], .named "Boolean"⟩, ⟨"startCursor", some [], .named "String"⟩,
        ⟨"endCursor", some [], .named "String"⟩],
      .object "Post" [] [⟨"id", some [], .named "ID"⟩]]
    query := some "Query", mutation := none, subscription := none }

/-- Users, who page forward and backward. -/
def bothWays : Schema :=
  { types := [.scalar "String", .scalar "Boolean", .scalar "Int", .scalar "ID",
      .object "PageInfo" [] [⟨"hasPreviousPage", some [], .named "Boolean"⟩,
        ⟨"hasNextPage", some [], .named "Boolean"⟩, ⟨"startCursor", some [], .named "String"⟩,
        ⟨"endCursor", some [], .named "String"⟩],
      .object "UserEdge" [] [⟨"cursor", some [], .named "String"⟩,
        ⟨"node", some [], .named "User"⟩],
      .object "UserConnection" [] [⟨"edges", some [], .list (.named "UserEdge")⟩,
        ⟨"pageInfo", some [], .named "PageInfo"⟩],
      .object "User" [] [⟨"id", some [], .named "ID"⟩],
      .object "Query" [] [⟨"users",
        some [("first", .named "Int"), ("after", .named "String"), ("last", .named "Int"),
          ("before", .named "String")],
        .named "UserConnection"⟩]]
    query := some "Query", mutation := none, subscription := none }

/-- A field with the pagination directive. -/
def pagedHead (name : String) (arguments : List Argument) : FieldHead :=
  { label := none, name, arguments, directives := [plainDirective "paginate" []] }

end Sample

end QueryCompiler
