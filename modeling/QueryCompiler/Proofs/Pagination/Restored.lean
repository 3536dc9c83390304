import QueryCompiler.Proofs.Artifact.Sent
import QueryCompiler.Proofs.Number.Numeral
import QueryCompiler.Proofs.Pagination.OneField
/-
# The first page stays the same

Where nobody says otherwise, a paginated field is asked for with the defaults of its variables.  So
with its variables replaced by their defaults, and those without one dropped, it should pass what it
passed before.

It does, up to what a default leaves off (`Value.comesBack`): zero and the empty string are no
defaults, and a block string becomes a plain one.  Of several values for one argument the last one
counts.

* `paginateDocument_restores`: what a field passes, with its variables replaced by their defaults.
-/
namespace QueryCompiler

variable {c : Config} {p : PaginatedField}

/-! ## 1. Literals -/

/-- A literal of the kind that a page argument is declared with: a whole number, as it is written,
of no more digits than are read, or a string. -/
inductive PageLiteral (a : PageArgument) : Value → Prop where
  | int (n : Int) (kind : a.isCount = true)
      (short : (Nat.toDigits 10 n.natAbs).length ≤ Numeral.mostDigits) :
      PageLiteral a (.int (toString n))
  | minusZero (kind : a.isCount = true) : PageLiteral a (.int "-0")
  | string (kind : a.isCount = false) (text : String) (block : Bool) :
      PageLiteral a (.string text block)

/-- What comes back of a literal that was turned into a default. -/
def Value.comesBack : Value → Option Value
  | .int text => if text = "0" ∨ text = "-0" then none else some (.int text)
  | .string text _ => if text = "" then none else some (.string text false)
  | v => some v

theorem toString_eq_zero {n : Int} : toString n = "0" ∨ toString n = "-0" ↔ n = 0 := by
  constructor
  · intro h
    have hread : Numeral.int? (toString n) = some 0 := by
      rcases h with h | h <;> rw [h] <;> decide +kernel
    rw [Numeral.int?_toString] at hread
    split at hread
    · exact Option.some.inj hread
    · cases hread
  · rintro rfl
    exact .inl rfl

/-- What a literal is read as. -/
theorem PageLiteral.passedDefault_eq {a : PageArgument} {v : Value} (h : PageLiteral a v) :
    ∃ d, passedDefault a v = .ok d ∧ d.defaultLiteral = v.comesBack ∧
      ∀ name, v ≠ .variable name := by
  cases h with
  | int n kind short =>
    refine ⟨.int n, ?_, ?_, by simp⟩
    · rw [passedDefault_int kind, intDatum, Numeral.int?_toString, if_pos short]
    · rw [Value.comesBack, Datum.defaultLiteral, Datum.isTrue]
      by_cases hn : n = 0
      · rw [if_pos (toString_eq_zero.mpr hn), hn]
        rfl
      · rw [if_neg (toString_eq_zero.not.mpr hn), if_pos (bne_iff_ne.mpr hn)]
        rfl
  | minusZero kind =>
    have hread : Numeral.int? "-0" = some 0 := by decide +kernel
    refine ⟨.int 0, ?_, rfl, by simp⟩
    rw [passedDefault_int kind, intDatum, hread]
  | string kind text block =>
    refine ⟨.text text, passedDefault_string kind text block, ?_, by simp⟩
    rw [Value.comesBack, Datum.defaultLiteral, Datum.isTrue]
    by_cases htext : text = ""
    · rw [if_pos htext, htext]
      rfl
    · have hempty : (!text.isEmpty) = true := by simpa using htext
      rw [if_neg htext, if_pos hempty]
      rfl

/-- The default that a literal leaves, as it is declared. -/
theorem PageLiteral.default_comesBack {a : PageArgument} {v : Value} (h : PageLiteral a v) :
    ∃ d, v.remembered? a = some d ∧ d.defaultLiteral = v.comesBack := by
  obtain ⟨d, hd, hback, hliteral⟩ := h.passedDefault_eq
  refine ⟨d, ?_, hback⟩
  rw [Value.remembered?, hd]
  · rfl
  · exact hliteral

/-! ## 2. Declared defaults -/

/-- The value that an entry of an arguments directive has under `default`. -/
def Value.declaredDefault? : Value → Option Value
  | .object fields => Table.get? fields "default"
  | _ => none

namespace Definition

/-- The definition itself declares a page argument: a query among its variables, a fragment in its
arguments directive. -/
def DeclaresItself (c : Config) (a : PageArgument) : Definition → Prop
  | .operation o => a.name ∈ o.declarations.map (·.name)
  | .fragment f => c.DeclaresArgument a f.directives
  | _ => False

/-- The default that a definition declares for a variable. -/
def default? (c : Config) (name : String) : Definition → Option Value
  | .operation o => (o.declarations.find? (·.name = name)).bind (·.defaultValue)
  | .fragment f => do
    let d ← directive? f.directives c.argumentsDirective
    let entry ← argument? d.arguments name
    entry.value.declaredDefault?
  | _ => none

end Definition

/-- The page argument that an argument hands on as the variable of its name. -/
def Argument.handed? (used : List PageArgument) : Argument → Option PageArgument
  | { name, value := .variable v } => used.find? fun a => name = a.name && v = a.name
  | _ => none

/-- The arguments with each variable of a page argument replaced by the default that is declared
for it; one without a default is dropped. -/
def Definition.restore (c : Config) (used : List PageArgument) (definition : Definition)
    (arguments : List Argument) : List Argument :=
  arguments.filterMap fun argument =>
    match argument.handed? used with
    | some a => (definition.default? c a.name).map fun value => { argument with value }
    | none => some argument

/-- The last value that is passed for a page argument. -/
def lastPassed? (a : PageArgument) (arguments : List Argument) : Option Value :=
  ((arguments.filter (·.name = a.name)).getLast?).map (·.value)

/-- The arguments as they come back: those that the field pages with have the last value that is
passed for them, if it comes back at all. -/
def comeBack (used : List PageArgument) (arguments : List Argument) : List Argument :=
  arguments.filterMap fun argument =>
    match used.find? fun a => argument.name = a.name with
    | some a => ((lastPassed? a arguments).bind (·.comesBack)).map fun value =>
        { argument with value }
    | none => some argument

/-! ## 3. What comes back -/

/-- The default that is declared for an argument is what comes back of the last literal. -/
theorem defaultLiteral_lastRemembered? {a : PageArgument} {arguments : List Argument}
    (h : ∀ argument ∈ arguments, argument.name = a.name → PageLiteral a argument.value) :
    ((lastRemembered? a arguments).getD .null).defaultLiteral
      = (lastPassed? a arguments).bind (·.comesBack) := by
  rw [lastRemembered?, lastPassed?]
  rcases List.eq_nil_or_concat (arguments.filter (·.name = a.name)) with hnone | ⟨before, last, hlast⟩
  · rw [hnone]
    rfl
  · have hmem : last ∈ arguments.filter (·.name = a.name) := by
      rw [hlast, List.concat_eq_append]
      exact List.mem_concat_self
    obtain ⟨hmem, hname⟩ := List.mem_filter.mp hmem
    obtain ⟨d, hd, hdefault⟩ := (h last hmem (of_decide_eq_true hname)).default_comesBack
    rw [hlast, List.concat_eq_append, List.reverse_append, List.reverse_singleton,
      List.singleton_append, List.findSome?_cons, hd, List.getLast?_concat]
    exact hdefault

theorem default?_hoistedQuery {flags : Flags} {o : Operation} {ss : List Selection}
    {a : PageArgument} (ha : a ∈ flags.enabled)
    (hfresh : ¬ (Definition.operation o).DeclaresItself c a) :
    (Definition.operation (hoistedQuery c flags o ss)).default? c a.name
      = (flags a).defaultValue.defaultLiteral := by
  have hfound : (hoistedQuery c flags o ss).declarations.find? (·.name = a.name)
      = some ((flags.variable a).mapDirectives (hoistArguments c flags)) := by
    rw [hoistedQuery, Operation.mapDirectives, List.find?_map]
    exact congrArg (Option.map _) (find?_hoistVariables ha hfresh)
  rw [Definition.default?, hfound]
  rfl

theorem default?_hoistedFragment {flags : Flags} {f : Fragment} {ss : List Selection}
    {a : PageArgument} (ha : a ∈ flags.enabled)
    (hfresh : ¬ (Definition.fragment f).DeclaresItself c a) :
    (Definition.fragment (hoistedFragment c flags f ss)).default? c a.name
      = (flags a).defaultValue.defaultLiteral := by
  obtain ⟨d, hd, hentry⟩ := argument?_hoisted ha hfresh
  have hdirective : directive? (hoistedFragment c flags f ss).directives c.argumentsDirective
      = some d := hd
  rw [Definition.default?, hdirective]
  simp only [Option.bind_eq_bind, Option.bind_some, hentry]
  rw [argumentDeclaration, Value.declaredDefault?]
  cases (flags a).defaultValue.defaultLiteral <;> rfl

theorem handed?_variableArgument {used : List PageArgument} {a : PageArgument} (ha : a ∈ used) :
    (variableArgument a.name).handed? used = some a := by
  refine find?_eq_some_of_unique ha (by simp) fun b _ hb => ?_
  rw [Bool.and_eq_true, decide_eq_true_iff] at hb
  exact PageArgument.name_injective hb.1.symm

theorem handed?_eq_none {used : List PageArgument} : ∀ {argument : Argument},
    (∀ a ∈ used, argument.name ≠ a.name) → argument.handed? used = none
  | ⟨name, .variable v⟩, h => by
    refine List.find?_eq_none.mpr fun a ha hand => h a ha ?_
    rw [Bool.and_eq_true, decide_eq_true_iff] at hand
    exact hand.1
  | ⟨_, .int _⟩, _ | ⟨_, .float _⟩, _ | ⟨_, .string _ _⟩, _ | ⟨_, .boolean _⟩, _ | ⟨_, .null⟩, _
  | ⟨_, .enumeration _⟩, _ | ⟨_, .list _⟩, _ | ⟨_, .object _⟩, _ => rfl

theorem lastPassed?_eq_none {a : PageArgument} {arguments : List Argument}
    (h : a.name ∉ arguments.map (·.name)) : lastPassed? a arguments = none := by
  have hnone : arguments.filter (·.name = a.name) = [] := by
    rw [List.filter_eq_nil_iff]
    exact fun argument hmem hname =>
      h (of_decide_eq_true hname ▸ List.mem_map.mpr ⟨argument, hmem, rfl⟩)
  rw [lastPassed?, hnone]
  rfl

section Restore

variable {definition : Definition} {used : List PageArgument} {arguments : List Argument}

theorem restore_append (rest : List Argument) :
    definition.restore c used (arguments ++ rest)
      = definition.restore c used arguments ++ definition.restore c used rest :=
  List.filterMap_append

variable (hback : ∀ a ∈ used,
  definition.default? c a.name = (lastPassed? a arguments).bind (·.comesBack))

include hback

/-- What a field passed comes back in its place. -/
theorem restore_map_asVariable {flags : Flags} (henabled : flags.enabled = used) :
    definition.restore c used (arguments.map flags.asVariable) = comeBack used arguments := by
  rw [Definition.restore, comeBack, List.filterMap_map]
  refine List.filterMap_congr fun argument _ => ?_
  rw [Function.comp_apply]
  cases hused : used.find? fun a => argument.name = a.name with
  | none =>
    have hother : ∀ a ∈ used, argument.name ≠ a.name :=
      fun a ha hname => absurd (decide_eq_true hname) (List.find?_eq_none.mp hused a ha)
    rw [Flags.asVariable_of_none (Flags.inUse?_eq_none (henabled ▸ hother)), handed?_eq_none hother]
  | some a =>
    have ha := List.mem_of_find?_eq_some hused
    have hname : argument.name = a.name := by simpa using List.find?_some hused
    have huse : flags.inUse? argument.name = some a :=
      Flags.inUse?_eq_some.mpr ⟨hname, Flags.mem_enabled.mp (henabled ▸ ha)⟩
    rw [Flags.asVariable_of_some huse, handed?_variableArgument ha]
    simp only [hback a ha, hname]
    rfl

/-- What a field lacked is dropped. -/
theorem restore_lacking {lacking : List PageArgument}
    (h : ∀ a ∈ lacking, a ∈ used ∧ a.name ∉ arguments.map (·.name)) :
    definition.restore c used (lacking.map (variableArgument ·.name)) = [] := by
  rw [Definition.restore, List.filterMap_map, List.filterMap_eq_nil_iff]
  intro a ha
  obtain ⟨hused, hlacks⟩ := h a ha
  rw [Function.comp_apply, handed?_variableArgument hused]
  simp only [hback a hused, lastPassed?_eq_none hlacks, Option.bind_none, Option.map_none]

end Restore

/-- With variables replaced by defaults, the new arguments of a field are what comes back. -/
theorem restore_newArguments {definition : Definition}
    (hliteral : ∀ argument ∈ p.head.arguments, ∀ a ∈ usedArguments (p.strategy c),
      argument.name = a.name → PageLiteral a argument.value)
    (hdefault : ∀ a ∈ usedArguments (p.strategy c),
      definition.default? c a.name = (p.defaultOf a).defaultLiteral) :
    definition.restore c (usedArguments (p.strategy c)) (p.newArguments c)
      = comeBack (usedArguments (p.strategy c)) p.head.arguments := by
  have hback : ∀ a ∈ usedArguments (p.strategy c), definition.default? c a.name
      = (lastPassed? a p.head.arguments).bind (·.comesBack) := fun a ha => by
    rw [hdefault a ha, PaginatedField.defaultOf, defaultLiteral_lastRemembered?
      fun argument hmem hname => hliteral argument hmem a ha hname]
  rw [PaginatedField.newArguments, restore_append,
    restore_map_asVariable hback (Flags.enabled_use _ _), restore_lacking hback, List.append_nil]
  intro a ha
  obtain ⟨hused, hlacks⟩ := List.mem_filter.mp ha
  exact ⟨hused, of_decide_eq_true hlacks⟩

/-- Distinct arguments whose literals all come back come back as they were. -/
theorem comeBack_of_nodup {used : List PageArgument} {arguments : List Argument}
    (hnodup : (arguments.map (·.name)).Nodup)
    (h : ∀ argument ∈ arguments, ∀ a ∈ used, argument.name = a.name →
      argument.value.comesBack = some argument.value) :
    comeBack used arguments = arguments := by
  refine (List.filterMap_congr fun argument hmem => ?_).trans List.filterMap_some
  cases hused : used.find? fun a => argument.name = a.name with
  | none => rfl
  | some a =>
    have hname : argument.name = a.name := by simpa using List.find?_some hused
    have hlast : lastPassed? a arguments = some argument.value := by
      rw [lastPassed?, ← hname, filter_eq_singleton hnodup hmem]
      rfl
    simp only [hlast, Option.bind_some,
      h argument hmem a (List.mem_of_find?_eq_some hused) hname, Option.map_some]

/-! ## 4. Documents -/

/-- A definition with one paginated field passes new arguments there, and declares the defaults
that the field leaves. -/
theorem paginateDocument_declares_defaults {d : Document} {definition : Definition}
    {declared : List String} (hdefinition : d.definitions = [definition])
    (hp : definition.paginatedFields c = [p])
    (hquery : ∀ o, definition = .operation o → o.kind = .query)
    (hdeclared : declaredArguments c.schema p.ancestors p.head.name = .ok declared)
    (hread : Readable (usedArguments (p.strategy c)) p.head.arguments)
    (hfresh : ∀ a ∈ usedArguments (p.strategy c), ¬ definition.DeclaresItself c a) :
    ∃ definition' p', (paginateDocument c d).1.definitions = [definition'] ∧
      definition'.paginatedFields c = [p'] ∧ p'.head.arguments = p.newArguments c ∧
      ∀ a ∈ usedArguments (p.strategy c),
        definition'.default? c a.name = (p.defaultOf a).defaultLiteral := by
  cases definition with
  | operation o =>
    obtain ⟨ss, state, hss⟩ := paginateSelections_of_singleton hp hdeclared hread
    obtain ⟨⟨p', hp', hpassed⟩, henabled, hdefaults, hpath⟩ :=
      hoisted_singleton hp hss [.operation o.kind]
    have hpaged : paginateDefinition c .initial (.operation o)
        = .ok (.operation { o with selections := ss }, state) := by
      rw [paginateDefinition, hss]
      rfl
    refine ⟨.operation (hoistedQuery c state.flags o ss), p',
      paginateDocument_fst hdefinition hpaged hpath (if_pos (hquery o rfl)), hp', hpassed,
      fun a ha => ?_⟩
    rw [default?_hoistedQuery (henabled ▸ ha) (hfresh a ha), hdefaults a ha]
  | fragment f =>
    obtain ⟨ss, state, hss⟩ := paginateSelections_of_singleton hp hdeclared hread
    obtain ⟨⟨p', hp', hpassed⟩, henabled, hdefaults, hpath⟩ :=
      hoisted_singleton hp hss [.fragment f.condition]
    have hpaged : paginateDefinition c .initial (.fragment f)
        = .ok (.fragment { f with selections := ss }, state) := by
      rw [paginateDefinition, hss]
      rfl
    refine ⟨.fragment (hoistedFragment c state.flags f ss), p',
      paginateDocument_fst hdefinition hpaged hpath rfl, hp', hpassed, fun a ha => ?_⟩
    rw [default?_hoistedFragment (henabled ▸ ha) (hfresh a ha), hdefaults a ha]
  | schema _ | type _ | directive _ => cases hp

/-- **The first page stays the same.**  With the variables of its only paginated field replaced by
the defaults that are declared for them, a query or fragment that declares none of them itself has
what comes back of the arguments of the field: exactly these, where they are distinct and no literal
is zero, empty or a block. -/
theorem paginateDocument_restores {d : Document} {definition : Definition} {declared : List String}
    (hdefinition : d.definitions = [definition]) (hp : definition.paginatedFields c = [p])
    (hquery : ∀ o, definition = .operation o → o.kind = .query)
    (hdeclared : declaredArguments c.schema p.ancestors p.head.name = .ok declared)
    (hliteral : ∀ argument ∈ p.head.arguments, ∀ a ∈ usedArguments (p.strategy c),
      argument.name = a.name → PageLiteral a argument.value)
    (hfresh : ∀ a ∈ usedArguments (p.strategy c), ¬ definition.DeclaresItself c a) :
    ∃ definition' p', (paginateDocument c d).1.definitions = [definition'] ∧
      definition'.paginatedFields c = [p'] ∧
      definition'.restore c (usedArguments (p.strategy c)) p'.head.arguments
        = comeBack (usedArguments (p.strategy c)) p.head.arguments ∧
      ((p.head.arguments.map (·.name)).Nodup →
        (∀ argument ∈ p.head.arguments, ∀ a ∈ usedArguments (p.strategy c),
          argument.name = a.name → argument.value.comesBack = some argument.value) →
        definition'.restore c (usedArguments (p.strategy c)) p'.head.arguments
          = p.head.arguments) := by
  have hread : Readable (usedArguments (p.strategy c)) p.head.arguments := by
    intro argument hmem a ha hname
    obtain ⟨d, hd, -⟩ := (hliteral argument hmem a ha hname).passedDefault_eq
    exact .inr ⟨d, hd⟩
  obtain ⟨definition', p', hdocument, hp', hpassed, hdefault⟩ :=
    paginateDocument_declares_defaults hdefinition hp hquery hdeclared hread hfresh
  have hrestored := restore_newArguments hliteral hdefault
  refine ⟨definition', p', hdocument, hp', by rw [hpassed, hrestored], fun hnodup hback => ?_⟩
  rw [hpassed, hrestored, comeBack_of_nodup hnodup hback]

/-! ## 5. A page of posts -/

namespace Sample

/-- Ten posts from some position on. -/
def tenPosts (offset : String) : List Argument := [⟨"limit", .int "10"⟩, ⟨"offset", .int offset⟩]

def tenPostsQuery (offset : String) : Document :=
  operation .query "Posts" [.field (pagedHead "posts" (tenPosts offset)) [plainField "id" []]]

end Sample

open Sample in
theorem tenPosts_restored :
    ∃ definition' p',
      (paginateDocument (config blog) (tenPostsQuery "20")).1.definitions = [definition'] ∧
      definition'.paginatedFields (config blog) = [p'] ∧
      definition'.restore (config blog) (usedArguments (some .byOffset)) p'.head.arguments
        = comeBack (usedArguments (some .byOffset)) (tenPosts "20") ∧
      definition'.restore (config blog) (usedArguments (some .byOffset)) p'.head.arguments
        = tenPosts "20" := by
  have hliteral : ∀ argument ∈ tenPosts "20", ∀ a ∈ usedArguments (some .byOffset),
      argument.name = a.name → PageLiteral a argument.value := by
    intro argument hmem a _ hname
    rcases List.mem_cons.mp hmem with rfl | hmem
    · obtain rfl : PageArgument.limit = a := PageArgument.name_injective hname
      exact .int 10 rfl (by decide)
    · obtain rfl := List.mem_singleton.mp hmem
      obtain rfl : PageArgument.offset = a := PageArgument.name_injective hname
      exact .int 20 rfl (by decide)
  have hback : ∀ argument ∈ tenPosts "20", ∀ a ∈ usedArguments (some .byOffset),
      argument.name = a.name → argument.value.comesBack = some argument.value := by
    intro argument hmem _ _ _
    rcases List.mem_cons.mp hmem with rfl | hmem
    · rfl
    · obtain rfl := List.mem_singleton.mp hmem
      rfl
  obtain ⟨definition', p', hdocument, hp', hcomeBack, hrestored⟩ :=
    @paginateDocument_restores (config blog) ⟨[.operation .query], pagedHead "posts" (tenPosts "20")⟩
      (tenPostsQuery "20") _ _ rfl rfl (fun o ho => by cases ho; rfl) rfl hliteral
      fun _ _ h => absurd h List.not_mem_nil
  exact ⟨definition', p', hdocument, hp', hcomeBack, hrestored (by decide) hback⟩

open Sample in
/-- A page that starts at zero comes back without its start. -/
theorem tenPosts_at_zero :
    ∃ definition' p',
      (paginateDocument (config blog) (tenPostsQuery "0")).1.definitions = [definition'] ∧
      definition'.paginatedFields (config blog) = [p'] ∧
      definition'.restore (config blog) (usedArguments (some .byOffset)) p'.head.arguments
        ≠ tenPosts "0" := by
  refine ⟨?_, ?_, ?document, ?field, ?restored⟩
  case document => exact rfl
  case field => exact rfl
  case restored => exact fun h => absurd (congrArg List.length h) (by decide +kernel)

end QueryCompiler
