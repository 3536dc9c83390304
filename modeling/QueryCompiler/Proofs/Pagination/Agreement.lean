import QueryCompiler.Proofs.Artifact.Sent
import QueryCompiler.Proofs.Pagination.OneField
/-
# All places agree on the page variables

The variables of a paginated field are named in up to five places: on the field itself, where they
are declared, and, for a fragment, in the declarations of the query that refetches it, in what this
query hands to the fragment, and in what a client is told about refetching.  Different functions
write them, and all of them write the same arguments, in the same order, with the same types and
defaults:

* `QueryAgrees`, `FragmentAgrees`: what agreement means for a query and for a fragment;
* `paginateDocument_agrees`: a document with one paginated field is paginated, and all places agree.
-/
namespace QueryCompiler

/-! ## 1. What the places name -/

namespace Strategy

/-- The argument for the size of a page. -/
def pageSize : Strategy → PageArgument
  | .forward => .first
  | .backward => .last
  | .byOffset => .limit

/-- The argument for the start of a page. -/
def start : Strategy → PageArgument
  | .forward => .after
  | .backward => .before
  | .byOffset => .offset

end Strategy

namespace PaginatedField

/-- An argument of the field as a variable, with the default that the field leaves. -/
def declaration (p : PaginatedField) (a : PageArgument) : VariableDefinition :=
  variableDeclaration a.name a.typeName (p.defaultOf a)

/-- An argument of the field as an entry of an arguments directive. -/
def entry (p : PaginatedField) (a : PageArgument) : Argument :=
  argumentDeclaration a.name a.typeName (p.defaultOf a)

/-- How a field that pages in some way is refetched. -/
def refetch (p : PaginatedField) (s : Strategy) (embedded : Bool) (targetType : String) :
    Refetch where
  update := if s = .backward then .prepend else .append
  path := p.path
  method := if s = .byOffset then .offset else .cursor
  pageSize := p.defaultOf s.pageSize
  start := p.defaultOf s.start
  embedded := embedded
  targetType := targetType

end PaginatedField

/-- **A paginated query agrees** with its field `p`, which pages in the way `s`. -/
structure QueryAgrees (c : Config) (p : PaginatedField) (s : Strategy) (o o' : Operation)
    (refetched : Option Refetch) : Prop where
  /-- The field passes each argument once, as the variable of that name. -/
  field : ∃ p', (Definition.operation o').paginatedFields c = [p'] ∧
    ∀ a ∈ usedArguments (some s),
      p'.head.arguments.filter (·.name = a.name) = [variableArgument a.name]
  /-- The query declares what it declared, and the arguments that it did not declare. -/
  declarations : o'.declarations = o.declarations ++
    ((usedArguments (some s)).filter fun a => a.name ∉ o.declarations.map (·.name)).map
      p.declaration
  refetch : refetched = some (p.refetch s false c.queryTypeName)

/-- **A paginated fragment agrees** with its field `p`, which pages in the way `s`, and with the
document that refetches it. -/
structure FragmentAgrees (c : Config) (p : PaginatedField) (s : Strategy) (f f' : Fragment)
    (refetched : Option Refetch) (q : Document) : Prop where
  /-- The field passes each argument once, as the variable of that name. -/
  field : ∃ p', (Definition.fragment f').paginatedFields c = [p'] ∧
    ∀ a ∈ usedArguments (some s),
      p'.head.arguments.filter (·.name = a.name) = [variableArgument a.name]
  /-- The arguments directive, made for it if there was none, gains an entry for each argument. -/
  directives : f'.directives = (withArgumentsDirective c f.directives).map fun d =>
    if d.name = c.argumentsDirective then
      { d with arguments := d.arguments ++ (usedArguments (some s)).map p.entry }
    else d
  /-- The query declares the arguments and then the keys of the record, of which it looks up the
  fragment, and hands all arguments to it. -/
  query : ∃ keyVariables,
    List.Forall₂ (fun key v => keyVariable c.schema f.condition key = .ok v)
      (if f.condition = c.queryTypeName then [] else c.keyFields f.condition) keyVariables ∧
    q.definitions = [.operation {
      description := none, kind := .query, name := some (c.paginationQueryName f.name)
      declarations := (usedArguments (some s)).map p.declaration ++ keyVariables
      directives := []
      selections :=
        let spread := Selection.spread f.name [plainDirective c.withDirective
          ((usedArguments (some s)).map (variableArgument ·.name))]
        if f.condition = c.queryTypeName then [spread]
        else [.field {
          label := none, name := c.lookupField f.condition
          arguments := (c.keyFields f.condition).map variableArgument, directives := [] } [spread]] }]
  refetch : refetched = some (p.refetch s (f.condition ≠ c.queryTypeName)
    (refetchTargetType c f.condition))
  /-- The client is told the same about both documents. -/
  same : q.refetch = refetched

/-- A variable, or a literal of the kind that a page argument is declared with: a number for a
count, a string for a cursor. -/
def Value.IsOfKind (a : PageArgument) : Value → Prop
  | .variable _ => True
  | .int text => a.isCount = true ∧ (Numeral.int? text).isSome = true
  | .string _ _ => a.isCount = false
  | _ => False

variable {c : Config} {p : PaginatedField} {s : Strategy}

theorem Value.IsOfKind.readable {a : PageArgument} : ∀ {v : Value}, v.IsOfKind a →
    (∃ name, v = .variable name) ∨ ∃ d, passedDefault a v = .ok d
  | .variable name, _ => .inl ⟨name, rfl⟩
  | .int text, h => by
    obtain ⟨n, hn⟩ := Option.isSome_iff_exists.mp h.2
    exact .inr ⟨.int n, by rw [passedDefault_int h.1, intDatum, hn]⟩
  | .string text block, h => .inr ⟨.text text, passedDefault_string h text block⟩

/-! ## 2. The places one by one -/

section Flags

variable {flags : Flags}

theorem refetch_eq (henabled : flags.enabled = usedArguments (some s))
    (hdefault : ∀ a ∈ usedArguments (some s), (flags a).defaultValue = p.defaultOf a)
    (embedded : Bool) (targetType : String) :
    flags.refetch p.path embedded targetType = p.refetch s embedded targetType := by
  have huses : ∀ a, (flags a).enabled = s.uses a := fun a => by
    rw [Bool.eq_iff_iff, ← Flags.mem_enabled, henabled, mem_usedArguments]
    rfl
  have hdefault : ∀ a, s.uses a = true → (flags a).defaultValue = p.defaultOf a :=
    fun a ha => hdefault a (mem_usedArguments.mpr ha)
  rw [Flags.refetch, Flags.pageArguments, PaginatedField.refetch]
  cases s <;> simp [huses, Strategy.uses, Strategy.pageSize, Strategy.start, hdefault]

/-- What a query declares for arguments that the field leaves in use. -/
theorem map_variable_eq {used : List PageArgument}
    (hdefault : ∀ a ∈ used, (flags a).defaultValue = p.defaultOf a) :
    used.map flags.variable = used.map p.declaration := by
  refine List.map_congr_left fun a ha => ?_
  rw [Flags.variable, hdefault a ha, PaginatedField.declaration]

theorem hoistArguments_of_no_directive {directives : List Directive}
    (h : hasDirective directives c.argumentsDirective = false) :
    hoistArguments c flags directives = directives := by
  have hnone : ∀ d ∈ directives, d.name ≠ c.argumentsDirective := by
    simpa [hasDirective, directive?] using h
  rw [hoistArguments, List.map_congr_left fun d hd => if_neg (hnone d hd), List.map_id']

/-- Without arguments directives on them, the variables of a query stay as they are. -/
theorem declarations_hoistedQuery {o : Operation} {ss : List Selection}
    (hnodup : (o.declarations.map (·.name)).Nodup)
    (hplain : ∀ v ∈ o.declarations, hasDirective v.directives c.argumentsDirective = false) :
    (hoistedQuery c flags o ss).declarations = o.declarations ++
      (flags.enabled.filter fun a => a.name ∉ o.declarations.map (·.name)).map flags.variable := by
  have hsame : ∀ v ∈ hoistVariables flags o.declarations,
      v.mapDirectives (hoistArguments c flags) = v := fun v hv => by
    rw [hoistVariables_of_nodup hnodup, List.mem_append] at hv
    rcases hv with hv | hv
    · rw [VariableDefinition.mapDirectives, hoistArguments_of_no_directive (hplain v hv)]
    · obtain ⟨a, -, rfl⟩ := List.mem_map.mp hv
      rfl
  have hmapped : (hoistedQuery c flags o ss).declarations
      = (hoistVariables flags o.declarations).map (·.mapDirectives (hoistArguments c flags)) := rfl
  rw [hmapped, List.map_congr_left hsame, List.map_id', hoistVariables_of_nodup hnodup]

/-- Without entries for them, all arguments in use are declared by each arguments directive. -/
theorem hoistArguments_withArgumentsDirective {directives : List Directive}
    (hdefault : ∀ a ∈ flags.enabled, (flags a).defaultValue = p.defaultOf a)
    (h : ∀ a ∈ flags.enabled, ¬ c.DeclaresArgument a directives) :
    hoistArguments c flags (withArgumentsDirective c directives)
      = (withArgumentsDirective c directives).map fun d =>
        if d.name = c.argumentsDirective then
          { d with arguments := d.arguments ++ flags.enabled.map p.entry }
        else d := by
  refine List.map_congr_left fun d hd => ?_
  by_cases hname : d.name = c.argumentsDirective
  · have hlacks : ∀ a ∈ flags.enabled, d.arguments.all (·.name ≠ a.name) = true := by
      intro a ha
      rw [List.all_eq_true]
      intro argument hmem
      exact decide_eq_true (lacks_withArgumentsDirective (h a ha) hd hname argument hmem)
    rw [if_pos hname, if_pos hname, List.filter_eq_self.mpr hlacks]
    congr 2
    exact List.map_congr_left fun a ha => by rw [hdefault a ha, PaginatedField.entry]
  · rw [if_neg hname, if_neg hname]

end Flags

/-! ## 3. Documents with one paginated field -/

/-- What the only paginated field passes afterwards, and what it leaves in use. -/
theorem passes_once_of_singleton {ancestors : List Ancestor} {ss ss' : List Selection}
    {state : PageState} (hp : paginatedFieldsOf c ancestors ss = [p]) (hs : p.strategy c = some s)
    (hnames : (p.head.arguments.map (·.name)).Nodup)
    (hss : paginateSelections c ancestors ss .initial = .ok (ss', state)) (others : List Ancestor) :
    (∃ p', paginatedFieldsOf c others
        (Selection.mapAllDirectives (hoistArguments c state.flags) ss') = [p'] ∧
      ∀ a ∈ usedArguments (some s),
        p'.head.arguments.filter (·.name = a.name) = [variableArgument a.name]) ∧
      state.flags.enabled = usedArguments (some s) ∧
      ∀ a ∈ usedArguments (some s), (state.flags a).defaultValue = p.defaultOf a := by
  obtain ⟨⟨p', hp', hpassed⟩, henabled, hdefault, -⟩ := hoisted_singleton hp hss others
  rw [← hs]
  refine ⟨⟨p', hp', fun a ha => ?_⟩, henabled, hdefault⟩
  rw [hpassed]
  exact p.passes_once hnames ha

theorem exists_forall₂ {α β : Type} {R : α → β → Prop} : ∀ {as : List α},
    (∀ a ∈ as, ∃ b, R a b) → ∃ bs, List.Forall₂ R as bs
  | [], _ => ⟨[], .nil⟩
  | a :: as, h => by
    obtain ⟨b, hb⟩ := h a List.mem_cons_self
    obtain ⟨bs, hbs⟩ := exists_forall₂ fun a ha => h a (List.mem_cons_of_mem _ ha)
    exact ⟨b :: bs, .cons hb hbs⟩

theorem keyVariable_isOk {schema : Schema} {type : String} {t : NamedType}
    {fields : List SchemaField} (ht : schema.type? type = some t) (hfields : t.fields? = some fields)
    {key : String} (hkey : key ∈ fields.map (·.name)) :
    ∃ v, keyVariable schema type key = .ok v := by
  have hfound : (fields.find? (·.name = key)).isSome = true := by
    rw [List.find?_isSome]
    obtain ⟨f, hf, rfl⟩ := List.mem_map.mp hkey
    exact ⟨f, hf, decide_eq_true rfl⟩
  obtain ⟨f, hf⟩ := Option.isSome_iff_exists.mp hfound
  exact ⟨_, by simp [keyVariable, ht, hfields, hf]; rfl⟩

theorem keys_refetchTarget (f : Fragment) : (f.refetchTarget c).keys c
    = if f.condition = c.queryTypeName then [] else c.keyFields f.condition := by
  by_cases h : f.condition = c.queryTypeName <;> simp [RefetchTarget.keys, Fragment.refetchTarget, h]

theorem selections_refetchTarget (f : Fragment) (used : List PageArgument) :
    (f.refetchTarget c).selections c used =
      let spread := Selection.spread f.name
        [plainDirective c.withDirective (used.map (variableArgument ·.name))]
      if f.condition = c.queryTypeName then [spread]
      else [.field {
        label := none, name := c.lookupField f.condition
        arguments := (c.keyFields f.condition).map variableArgument, directives := [] } [spread]] := by
  by_cases h : f.condition = c.queryTypeName <;>
    simp [RefetchTarget.selections, Fragment.refetchTarget, h]

section Documents

variable {d : Document} {declared : List String} (hs : p.strategy c = some s)
  (hnames : (p.head.arguments.map (·.name)).Nodup)
  (hdeclared : declaredArguments c.schema p.ancestors p.head.name = .ok declared)
  (hread : Readable (usedArguments (p.strategy c)) p.head.arguments)

include hs hnames hdeclared hread

theorem paginateDocument_query_agrees {o : Operation} (hdefinition : d.definitions = [.operation o])
    (hp : (Definition.operation o).paginatedFields c = [p]) (hquery : o.kind = .query)
    (hnodup : (o.declarations.map (·.name)).Nodup)
    (hplain : ∀ v ∈ o.declarations, hasDirective v.directives c.argumentsDirective = false) :
    ∃ d' o', paginateDocument c d = (d', .ok []) ∧ d'.definitions = [.operation o'] ∧
      QueryAgrees c p s o o' d'.refetch := by
  obtain ⟨ss, state, hss⟩ := paginateSelections_of_singleton hp hdeclared hread
  obtain ⟨hfield, henabled, hdefault⟩ := passes_once_of_singleton hp hs hnames hss [.operation o.kind]
  refine ⟨_, hoistedQuery c state.flags o ss,
    (@paginateDocument_operation c d _ [] p [] o hdefinition hp).mpr
      ⟨hquery, ss, state, hss, rfl, rfl⟩, rfl, ⟨hfield, ?_, ?_⟩⟩
  · rw [declarations_hoistedQuery hnodup hplain, henabled]
    congr 1
    exact map_variable_eq fun a ha => hdefault a (List.mem_filter.mp ha).1
  · exact congrArg some (refetch_eq henabled hdefault false c.queryTypeName)

theorem paginateDocument_fragment_agrees {f : Fragment} (hdefinition : d.definitions = [.fragment f])
    (hp : (Definition.fragment f).paginatedFields c = [p]) (hnamed : f.condition ≠ "")
    (hlacks : ∀ a ∈ usedArguments (some s), ¬ c.DeclaresArgument a f.directives)
    (hkeys : ∀ key ∈ (f.refetchTarget c).keys c,
      ∃ v, keyVariable c.schema f.condition key = .ok v) :
    ∃ d' f' q, paginateDocument c d = (d', .ok [q]) ∧ d'.definitions = [.fragment f'] ∧
      FragmentAgrees c p s f f' d'.refetch q := by
  obtain ⟨ss, state, hss⟩ := paginateSelections_of_singleton hp hdeclared hread
  obtain ⟨hfield, henabled, hdefault⟩ :=
    passes_once_of_singleton hp hs hnames hss [.fragment f.condition]
  obtain ⟨keyVariables, hkeyVariables⟩ := exists_forall₂ hkeys
  obtain ⟨query, hquery⟩ : ∃ query, refetchQuery c state.flags (f.refetchTarget c) = .ok query :=
    ⟨_, refetchQuery_eq_ok.mpr ⟨keyVariables, hkeyVariables, rfl⟩⟩
  obtain ⟨refetch, hrefetch⟩ : ∃ refetch, refetch = state.flags.refetch p.path
    (f.refetchTarget c).embedded (refetchTargetType c f.condition) := ⟨_, rfl⟩
  obtain ⟨d', hd'⟩ : ∃ d', d' = d.refetchable
    (.fragment (hoistedFragment c state.flags f ss)) refetch := ⟨_, rfl⟩
  have hpaged : paginateDocument c d
      = (d', .ok [refetchDocument d' (f.refetchTarget c).query query refetch]) := by
    refine (@paginateDocument_fragment c d d' _ p [] f hdefinition hp).mpr
      ⟨ss, state, hss, refetch, hrefetch, hd', ?_⟩
    rw [if_neg fun he => hnamed (String.isEmpty_iff.mp he)]
    exact ⟨query, hquery, rfl⟩
  rw [refetch_eq henabled hdefault] at hrefetch
  subst hrefetch hd'
  refine ⟨_, _, _, hpaged, rfl, ⟨hfield, ?directives, ?query, rfl, rfl⟩⟩
  case directives =>
    rw [← henabled]
    exact hoistArguments_withArgumentsDirective (henabled ▸ hdefault) (henabled ▸ hlacks)
  case query =>
    obtain ⟨keyVariables, hkeyVariables, rfl⟩ := refetchQuery_eq_ok.mp hquery
    rw [keys_refetchTarget] at hkeyVariables
    refine ⟨keyVariables, hkeyVariables, ?_⟩
    rw [selections_refetchTarget, henabled, map_variable_eq hdefault]
    rfl

end Documents

/-- **All places agree.**  A document with one definition, of which one field is paginated, with
distinct arguments that are variables or literals of their kind, goes through the pass, and what
comes out agrees with the field: for a query that declares distinct variables, and for a fragment
that declares none of the arguments itself and whose record can be looked up by its keys. -/
theorem paginateDocument_agrees {d : Document} {definition : Definition}
    (hdefinition : d.definitions = [definition]) (hp : definition.paginatedFields c = [p])
    (hs : p.strategy c = some s) (hnames : (p.head.arguments.map (·.name)).Nodup)
    (hkind : ∀ argument ∈ p.head.arguments, ∀ a ∈ usedArguments (some s),
      argument.name = a.name → argument.value.IsOfKind a) :
    (∀ o, definition = .operation o → o.kind = .query → (o.declarations.map (·.name)).Nodup →
      (∀ v ∈ o.declarations, hasDirective v.directives c.argumentsDirective = false) →
        ∃ d' o', paginateDocument c d = (d', .ok []) ∧ d'.definitions = [.operation o'] ∧
          QueryAgrees c p s o o' d'.refetch) ∧
    ∀ f, definition = .fragment f → f.condition ≠ "" →
      (∀ a ∈ usedArguments (some s), ¬ c.DeclaresArgument a f.directives) →
      (f.condition ≠ c.queryTypeName → ∃ t fields, c.schema.type? f.condition = some t ∧
        t.fields? = some fields ∧ ∀ key ∈ c.keyFields f.condition, key ∈ fields.map (·.name)) →
        ∃ d' f' q, paginateDocument c d = (d', .ok [q]) ∧ d'.definitions = [.fragment f'] ∧
          FragmentAgrees c p s f f' d'.refetch q := by
  have hread : Readable (usedArguments (p.strategy c)) p.head.arguments := by
    rw [hs]
    exact fun argument hmem a ha hname => (hkind argument hmem a ha hname).readable
  obtain ⟨declared, hdeclared⟩ := p.declared_of_strategy hs
  constructor
  · rintro o rfl hquery hnodup hplain
    exact paginateDocument_query_agrees hs hnames hdeclared hread hdefinition hp hquery hnodup hplain
  · rintro f rfl hnamed hlacks hkeys
    refine paginateDocument_fragment_agrees hs hnames hdeclared hread hdefinition hp hnamed hlacks
      fun key hkey => ?_
    rw [keys_refetchTarget] at hkey
    split at hkey
    · exact absurd hkey List.not_mem_nil
    · obtain ⟨t, fields, ht, hfields, hall⟩ := hkeys ‹_›
      exact keyVariable_isOk ht hfields (hall key hkey)

/-! ## 4. A query and a fragment -/

namespace Sample

/-- The first ten users. -/
def tenUsers : FieldHead := pagedHead "users" [⟨"first", .int "10"⟩]

/-- Two posts, from some position on. -/
def twoPosts : FieldHead := pagedHead "posts" [⟨"offset", .variable "start"⟩, ⟨"limit", .int "2"⟩]

def tenUsersQuery : Document :=
  operation .query "Users" [
    .field tenUsers [plainField "edges" [plainField "node" [plainField "id" []]]]]

def twoPostsFragment : Document :=
  fragment "Posts" "User" [.field twoPosts [plainField "id" []]]

end Sample

open Sample in
theorem blog_agrees :
    (∃ o d' o', tenUsersQuery.definitions = [.operation o] ∧
      paginateDocument (config blog) tenUsersQuery = (d', .ok []) ∧
      d'.definitions = [.operation o'] ∧
      QueryAgrees (config blog) ⟨[.operation .query], tenUsers⟩ .forward o o' d'.refetch) ∧
    ∃ f d' f' q, twoPostsFragment.definitions = [.fragment f] ∧
      paginateDocument (config blog) twoPostsFragment = (d', .ok [q]) ∧
      d'.definitions = [.fragment f'] ∧
      FragmentAgrees (config blog) ⟨[.fragment "User"], twoPosts⟩ .byOffset f f' d'.refetch q := by
  constructor
  · have hkind : ∀ argument ∈ tenUsers.arguments, ∀ a ∈ usedArguments (some .forward),
        argument.name = a.name → argument.value.IsOfKind a := by
      intro argument hmem a _ hname
      obtain rfl := List.mem_singleton.mp hmem
      obtain rfl : PageArgument.first = a := PageArgument.name_injective hname
      exact ⟨rfl, by decide +kernel⟩
    obtain ⟨d', o', hpaged, hdefinitions, hagrees⟩ :=
      (@paginateDocument_agrees (config blog) ⟨[.operation .query], tenUsers⟩ .forward
        tenUsersQuery _ rfl rfl rfl (by decide) hkind).1 _ rfl rfl (by decide)
          fun _ hv => absurd hv List.not_mem_nil
    exact ⟨_, d', o', rfl, hpaged, hdefinitions, hagrees⟩
  · have hkind : ∀ argument ∈ twoPosts.arguments, ∀ a ∈ usedArguments (some .byOffset),
        argument.name = a.name → argument.value.IsOfKind a := by
      intro argument hmem a _ hname
      rcases List.mem_cons.mp hmem with rfl | hmem
      · trivial
      · obtain rfl := List.mem_singleton.mp hmem
        obtain rfl : PageArgument.limit = a := PageArgument.name_injective hname
        exact ⟨rfl, by decide +kernel⟩
    obtain ⟨d', f', q, hpaged, hdefinitions, hagrees⟩ :=
      (@paginateDocument_agrees (config blog) ⟨[.fragment "User"], twoPosts⟩ .byOffset
        twoPostsFragment _ rfl rfl rfl (by decide) hkind).2 _ rfl (by decide)
          (fun _ _ ⟨_, hd, _⟩ => absurd hd List.not_mem_nil)
          fun _ => ⟨_, _, rfl, rfl, by decide⟩
    exact ⟨_, d', f', q, rfl, hpaged, hdefinitions, hagrees⟩

end QueryCompiler
