import QueryCompiler.Pagination.Field
import QueryCompiler.Proofs.Outcome
/-
# The arguments of a paginated field

A paginated field passes every argument of its way to page as a variable of that name, and the
values that were written there are remembered as defaults.  What it passes afterwards is said
without the loop that does it:

* `replaceArguments_eq_ok`: the arguments stay in their places, those in use as variables, and
  those that are lacking come behind; the last value written for an argument becomes its default;
* `replaceArguments_first`: what this comes to for the first field that is visited;
* `choose_replaceArguments`: with what it passes afterwards a field still pages in its way.
-/
namespace QueryCompiler

/-! ## 1. Arguments in use -/

/-- The arguments of a way to page, in their order. -/
def usedArguments (strategy : Option Strategy) : List PageArgument :=
  PageArgument.all.filter fun a => strategy.any (·.uses a)

theorem mem_usedArguments {strategy : Option Strategy} {a : PageArgument} :
    a ∈ usedArguments strategy ↔ strategy.any (·.uses a) = true := by
  simp [usedArguments, PageArgument.mem_all]

theorem nodup_usedArguments (strategy : Option Strategy) : (usedArguments strategy).Nodup :=
  List.Pairwise.filter _ (by decide)

namespace Flags

theorem enabled_use (flags : Flags) (strategy : Option Strategy) :
    (flags.use strategy).enabled = usedArguments strategy := rfl

theorem mem_enabled {flags : Flags} {a : PageArgument} :
    a ∈ flags.enabled ↔ (flags a).enabled = true := by
  simp [enabled, PageArgument.mem_all]

@[simp]
theorem enabled_remember (flags : Flags) (a b : PageArgument) (d : Datum) :
    ((flags.remember a d) b).enabled = (flags b).enabled := by
  rw [remember]
  split <;> rfl

theorem defaultValue_remember (flags : Flags) (a b : PageArgument) (d : Datum) :
    ((flags.remember a d) b).defaultValue = if b = a then d else (flags b).defaultValue := by
  rw [remember]
  split <;> rfl

/-- Flags with the same arguments in use. -/
theorem inUse?_congr {flags others : Flags} (h : ∀ a, (flags a).enabled = (others a).enabled)
    (name : String) : flags.inUse? name = others.inUse? name := by
  unfold inUse?
  congr 1
  funext a
  exact h a

theorem inUse?_eq_some {flags : Flags} {name : String} {a : PageArgument} :
    flags.inUse? name = some a ↔ name = a.name ∧ (flags a).enabled = true := by
  rw [inUse?, Option.filter_eq_some_iff]
  refine and_congr_left fun _ => ⟨fun h => ?_, fun h => ?_⟩
  · have hname := List.find?_some h
    simpa [eq_comm] using hname
  · rw [h, PageArgument.ofName?_name]

theorem inUse?_eq_none {flags : Flags} {name : String}
    (h : ∀ a ∈ flags.enabled, name ≠ a.name) : flags.inUse? name = none := by
  rw [Option.eq_none_iff_forall_ne_some]
  intro a ha
  obtain ⟨hname, henabled⟩ := inUse?_eq_some.mp ha
  exact h a (mem_enabled.mpr henabled) hname

/-! ## 2. Passed arguments -/

/-- An argument in use as the variable of its name; any other one as it is. -/
def asVariable (flags : Flags) (argument : Argument) : Argument :=
  if (flags.inUse? argument.name).isSome then variableArgument argument.name else argument

theorem asVariable_of_none {flags : Flags} {argument : Argument}
    (h : flags.inUse? argument.name = none) : flags.asVariable argument = argument := by
  simp [asVariable, h]

theorem asVariable_of_some {flags : Flags} {argument : Argument} {a : PageArgument}
    (h : flags.inUse? argument.name = some a) :
    flags.asVariable argument = variableArgument a.name := by
  rw [asVariable, h, Option.isSome_some, if_pos rfl, (inUse?_eq_some.mp h).1]

@[simp]
theorem name_asVariable (flags : Flags) (argument : Argument) :
    (flags.asVariable argument).name = argument.name := by
  unfold asVariable
  split <;> rfl

end Flags

/-- What a value that is passed for an argument leaves as its default. -/
def Value.remembered? (a : PageArgument) : Value → Option Datum
  | .variable _ => none
  | v => (passedDefault a v).toOption

theorem passedDefault_int {a : PageArgument} (h : a.isCount = true) (text : String) :
    passedDefault a (.int text) = intDatum text := by
  simp [passedDefault, Value.single?, h, toCount]

theorem passedDefault_string {a : PageArgument} (h : a.isCount = false) (text : String)
    (block : Bool) : passedDefault a (.string text block) = .ok (.text text) := by
  simp [passedDefault, Value.single?, h]

/-- The default that the arguments of a call leave for one of them: the last value written. -/
def lastRemembered? (a : PageArgument) (arguments : List Argument) : Option Datum :=
  (arguments.filter (·.name = a.name)).reverse.findSome? (·.value.remembered? a)

theorem lastRemembered?_cons (a : PageArgument) (argument : Argument) (rest : List Argument) :
    lastRemembered? a (argument :: rest) = (lastRemembered? a rest).or
      (if argument.name = a.name then argument.value.remembered? a else none) := by
  unfold lastRemembered?
  by_cases h : argument.name = a.name
  · rw [if_pos h, List.filter_cons_of_pos (by simpa using h), List.reverse_cons,
      List.findSome?_append, List.findSome?_singleton]
  · rw [if_neg h, List.filter_cons_of_neg (by simpa using h), Option.or_none]

/-- The flags after a value has been passed for an argument. -/
def Flags.afterValue (flags : Flags) (a : PageArgument) : Value → Except Error Flags
  | .variable _ => .ok flags
  | v => do return flags.remember a (← passedDefault a v)

theorem Flags.afterValue_eq_ok {flags flags' : Flags} {a : PageArgument} : ∀ {v : Value},
    flags.afterValue a v = .ok flags' →
      (∀ b, (flags' b).enabled = (flags b).enabled) ∧
      ∀ b, (flags' b).defaultValue = if b = a then
        (v.remembered? a).getD (flags a).defaultValue else (flags b).defaultValue
  | .variable _, h => by
    obtain rfl := Except.ok.inj h
    refine ⟨fun _ => rfl, fun b => ?_⟩
    split
    · rename_i hb
      rw [hb]
      rfl
    · rfl
  | .int _, h | .float _, h | .string _ _, h | .boolean _, h | .null, h | .enumeration _, h
  | .list _, h | .object _, h => by
    simp only [afterValue, bind_eq_ok, pure_eq_ok] at h
    obtain ⟨d, hd, rfl⟩ := h
    refine ⟨fun b => flags.enabled_remember a b d, fun b => ?_⟩
    rw [flags.defaultValue_remember, Value.remembered?, hd]
    · rfl
    · exact nofun

theorem replacePassed_cons_some {flags : Flags} {argument : Argument} {rest : List Argument}
    {a : PageArgument} (h : flags.inUse? argument.name = some a) :
    replacePassed flags (argument :: rest) = (do
      let flags ← flags.afterValue a argument.value
      let (arguments, flags, seen) ← replacePassed flags rest
      return (variableArgument a.name :: arguments, flags, a :: seen)) := by
  rw [replacePassed, h]
  match argument.value with
  | .variable _ => rfl
  | .int _ | .float _ | .string _ _ | .boolean _ | .null | .enumeration _ | .list _ | .object _ =>
    simp [Flags.afterValue]

/-- **What is passed.**  The arguments stay in their places, those in use as variables, and the
last value written for each of them is its default. -/
theorem replacePassed_eq_ok : ∀ {arguments arguments' : List Argument} {flags flags' : Flags}
    {seen : List PageArgument}, replacePassed flags arguments = .ok (arguments', flags', seen) →
      arguments' = arguments.map flags.asVariable ∧
      seen = arguments.filterMap (fun argument => flags.inUse? argument.name) ∧
      (∀ a, (flags' a).enabled = (flags a).enabled) ∧
      ∀ a, (flags' a).defaultValue = if (flags a).enabled then
        (lastRemembered? a arguments).getD (flags a).defaultValue else (flags a).defaultValue
  | [], arguments', flags, flags', seen, h => by
    rw [replacePassed, Except.ok.injEq, Prod.mk.injEq, Prod.mk.injEq] at h
    obtain ⟨rfl, rfl, rfl⟩ := h
    exact ⟨rfl, rfl, fun _ => rfl, fun a => by simp [lastRemembered?]⟩
  | argument :: rest, arguments', flags, flags', seen, h => by
    cases huse : flags.inUse? argument.name with
    | none =>
      simp only [replacePassed, huse, bind_eq_ok, pure_eq_ok, Prod.mk.injEq, Prod.exists] at h
      obtain ⟨rest', flags₁, seen₁, hrest, rfl, rfl, rfl⟩ := h
      obtain ⟨rfl, rfl, henabled, hdefault⟩ := replacePassed_eq_ok hrest
      refine ⟨?_, ?_, henabled, fun a => ?_⟩
      · rw [List.map_cons, Flags.asVariable_of_none huse]
      · simp [huse]
      · rw [hdefault]
        by_cases ha : (flags a).enabled = true
        · have hname : argument.name ≠ a.name := fun hn =>
            Option.some_ne_none a ((Flags.inUse?_eq_some.mpr ⟨hn, ha⟩).symm.trans huse)
          rw [lastRemembered?_cons, if_neg hname, Option.or_none]
        · simp [ha]
    | some b =>
      obtain ⟨hname, hb⟩ := Flags.inUse?_eq_some.mp huse
      rw [replacePassed_cons_some huse] at h
      simp only [bind_eq_ok, pure_eq_ok, Prod.mk.injEq, Prod.exists] at h
      obtain ⟨flags₀, hvalue, rest', flags₁, seen₁, hrest, rfl, rfl, rfl⟩ := h
      obtain ⟨henabled₀, hdefault₀⟩ := Flags.afterValue_eq_ok hvalue
      obtain ⟨rfl, rfl, henabled, hdefault⟩ := replacePassed_eq_ok hrest
      have hsame := Flags.inUse?_congr henabled₀
      refine ⟨?_, ?_, fun a => (henabled a).trans (henabled₀ a), fun a => ?_⟩
      · rw [List.map_cons, Flags.asVariable_of_some huse]
        simp [Flags.asVariable, hsame]
      · simp [huse, hsame]
      · rw [hdefault, henabled₀, hdefault₀, lastRemembered?_cons]
        by_cases ha : a = b
        · subst ha
          rw [if_pos hb, if_pos hb, if_pos rfl, if_pos hname]
          cases lastRemembered? a rest <;> rfl
        · have hother : argument.name ≠ a.name := fun hn =>
            ha (PageArgument.name_injective (hn.symm.trans hname))
          rw [if_neg ha, if_neg hother, Option.or_none]

/-! ## 3. All arguments in use -/

/-- **What a field passes.**  Its arguments stay in their places, those in use as variables, and
behind them come the arguments in use that it lacks. -/
theorem replaceArguments_eq_ok {arguments arguments' : List Argument} {flags flags' : Flags}
    (h : replaceArguments flags arguments = .ok (arguments', flags')) :
    arguments' = arguments.map flags.asVariable ++
      (flags'.lacking (arguments.filterMap fun argument => flags.inUse? argument.name)).map
        (variableArgument ·.name) ∧
      (∀ a, (flags' a).enabled = (flags a).enabled) ∧
      ∀ a, (flags' a).defaultValue = if (flags a).enabled then
        (lastRemembered? a arguments).getD (flags a).defaultValue else (flags a).defaultValue := by
  simp only [replaceArguments, bind_eq_ok, pure_eq_ok, Prod.mk.injEq, Prod.exists] at h
  obtain ⟨passed, flags₁, seen, hpassed, rfl, rfl⟩ := h
  obtain ⟨rfl, rfl, henabled, hdefault⟩ := replacePassed_eq_ok hpassed
  exact ⟨rfl, henabled, hdefault⟩

/-- An argument that a field passes is one that it had and that is not in use, or a variable. -/
theorem mem_replaceArguments {arguments arguments' : List Argument} {flags flags' : Flags}
    (h : replaceArguments flags arguments = .ok (arguments', flags')) {argument : Argument}
    (hmem : argument ∈ arguments') :
    (argument ∈ arguments ∧ flags.inUse? argument.name = none) ∨
      ∃ a, (flags a).enabled = true ∧ argument = variableArgument a.name := by
  obtain ⟨rfl, henabled, -⟩ := replaceArguments_eq_ok h
  rcases List.mem_append.mp hmem with hmem | hmem
  · obtain ⟨passed, hpassed, rfl⟩ := List.mem_map.mp hmem
    rw [Flags.name_asVariable]
    cases huse : flags.inUse? passed.name with
    | none =>
      rw [Flags.asVariable_of_none huse]
      exact .inl ⟨hpassed, rfl⟩
    | some a =>
      rw [Flags.asVariable_of_some huse]
      exact .inr ⟨a, (Flags.inUse?_eq_some.mp huse).2, rfl⟩
  · obtain ⟨a, ha, rfl⟩ := List.mem_map.mp hmem
    simp only [Flags.lacking, List.mem_filter, Bool.and_eq_true] at ha
    exact .inr ⟨a, (henabled a).symm.trans ha.2.1.1.1, rfl⟩

/-- **More arguments of its own way to page** leave a field to page in that way. -/
theorem Strategy.choose_names_append {declared passed added : List String}
    (h : ∀ name ∈ added, ∃ a : PageArgument,
      (choose declared passed).any (·.uses a) = true ∧ name = a.name) :
    choose declared (passed ++ added) = choose declared passed := by
  have hnot (a : PageArgument) (ha : (choose declared passed).any (·.uses a) = false) :
      a.name ∉ added := by
    intro hmem
    obtain ⟨b, hb, hname⟩ := h _ hmem
    rw [PageArgument.name_injective hname, hb] at ha
    exact absurd ha nofun
  have hfirst := hnot .first
  have hlast := hnot .last
  simp only [PageArgument.name] at hfirst hlast
  cases hs : choose declared passed with
  | none =>
    rw [hs] at hfirst hlast
    rw [← hs]
    simp only [choose, List.mem_append, hfirst rfl, hlast rfl, or_false]
  | some s =>
    rw [hs] at hfirst hlast
    cases s with
    | forward =>
      have hlast := hlast rfl
      unfold choose at hs ⊢
      grind
    | backward =>
      have hfirst := hfirst rfl
      unfold choose at hs ⊢
      grind
    | byOffset =>
      rw [← hs]
      simp only [choose, List.mem_append, hfirst rfl, hlast rfl, or_false]

/-- A field still pages in its way with the arguments that it passes afterwards. -/
theorem choose_replaceArguments {declared : List String} {arguments arguments' : List Argument}
    {flags flags' : Flags}
    (h : replaceArguments
      (flags.use (Strategy.choose declared (arguments.map (·.name)))) arguments
        = .ok (arguments', flags')) :
    Strategy.choose declared (arguments'.map (·.name))
      = Strategy.choose declared (arguments.map (·.name)) := by
  obtain ⟨rfl, henabled, -⟩ := replaceArguments_eq_ok h
  rw [List.map_append, List.map_map]
  have hnames : arguments.map ((·.name) ∘ Flags.asVariable
      (flags.use (Strategy.choose declared (arguments.map (·.name))))) = arguments.map (·.name) :=
    List.map_congr_left fun argument _ => Flags.name_asVariable _ argument
  rw [hnames]
  refine Strategy.choose_names_append fun name hname => ?_
  obtain ⟨_, hargument, rfl⟩ := List.mem_map.mp hname
  obtain ⟨a, ha, rfl⟩ := List.mem_map.mp hargument
  have hlacking := (List.mem_filter.mp ha).2
  simp only [Bool.and_eq_true] at hlacking
  exact ⟨a, (henabled a).symm.trans hlacking.1.1.1, rfl⟩

/-- The values that are passed for the arguments in use can all be kept as defaults. -/
def Readable (used : List PageArgument) (arguments : List Argument) : Prop :=
  ∀ argument ∈ arguments, ∀ a ∈ used, argument.name = a.name →
    (∃ name, argument.value = .variable name) ∨ ∃ d, passedDefault a argument.value = .ok d

theorem Flags.afterValue_isOk (flags : Flags) {a : PageArgument} {v : Value}
    (h : (∃ name, v = .variable name) ∨ ∃ d, passedDefault a v = .ok d) :
    ∃ flags', flags.afterValue a v = .ok flags' := by
  rcases h with ⟨name, rfl⟩ | ⟨d, hd⟩
  · exact ⟨flags, rfl⟩
  · match v with
    | .variable _ => exact ⟨flags, rfl⟩
    | .int _ | .float _ | .string _ _ | .boolean _ | .null | .enumeration _ | .list _
    | .object _ =>
      exact ⟨flags.remember a d, by rw [afterValue, hd]; rfl; exact nofun⟩

theorem replacePassed_isOk : ∀ {arguments : List Argument} {flags : Flags},
    Readable flags.enabled arguments → ∃ r, replacePassed flags arguments = .ok r
  | [], flags, _ => ⟨([], flags, []), rfl⟩
  | argument :: rest, flags, h => by
    have hrest : Readable flags.enabled rest := fun x hx => h x (List.mem_cons_of_mem _ hx)
    cases huse : flags.inUse? argument.name with
    | none =>
      obtain ⟨r, hr⟩ := replacePassed_isOk hrest
      exact ⟨_, by rw [replacePassed, huse, hr]; rfl⟩
    | some a =>
      obtain ⟨hname, ha⟩ := Flags.inUse?_eq_some.mp huse
      obtain ⟨flags₀, hvalue⟩ := flags.afterValue_isOk
        (h argument List.mem_cons_self a (Flags.mem_enabled.mpr ha) hname)
      have hsame : flags₀.enabled = flags.enabled :=
        List.filter_congr fun b _ => (Flags.afterValue_eq_ok hvalue).1 b
      obtain ⟨r, hr⟩ := replacePassed_isOk (hsame ▸ hrest : Readable flags₀.enabled rest)
      refine ⟨(variableArgument a.name :: r.1, r.2.1, a :: r.2.2), ?_⟩
      rw [replacePassed_cons_some huse]
      exact bind_eq_ok.mpr ⟨flags₀, hvalue, bind_eq_ok.mpr ⟨r, hr, rfl⟩⟩

theorem replaceArguments_isOk {arguments : List Argument} {flags : Flags}
    (h : Readable flags.enabled arguments) : ∃ r, replaceArguments flags arguments = .ok r := by
  obtain ⟨r, hr⟩ := replacePassed_isOk h
  exact ⟨_, by rw [replaceArguments, hr]; rfl⟩

/-! ## 4. The first paginated field -/

/-- No argument of a way to page is kept off a field that pages in this way. -/
theorem Flags.excludes_eq_false {flags : Flags} {strategy : Option Strategy}
    (henabled : ∀ a, (flags a).enabled = strategy.any (·.uses a)) {a : PageArgument}
    (h : strategy.any (·.uses a) = true) : flags.excludes a = false := by
  rw [excludes, henabled, henabled]
  rcases strategy with _ | s
  · exact absurd h nofun
  · cases s <;> cases a <;> first | rfl | exact absurd h nofun

theorem exists_of_lastRemembered? {a : PageArgument} {arguments : List Argument} {d : Datum}
    (h : lastRemembered? a arguments = some d) : a.name ∈ arguments.map (·.name) := by
  obtain ⟨argument, hmem, -⟩ := List.exists_of_findSome?_eq_some h
  rw [List.mem_reverse, List.mem_filter, decide_eq_true_iff] at hmem
  exact List.mem_map.mpr ⟨argument, hmem⟩

theorem mem_filterMap_inUse? {flags : Flags} {arguments : List Argument} {a : PageArgument}
    (ha : (flags a).enabled = true) :
    a ∈ arguments.filterMap (fun argument => flags.inUse? argument.name)
      ↔ a.name ∈ arguments.map (·.name) := by
  rw [List.mem_filterMap, List.mem_map]
  refine exists_congr fun argument => and_congr_right fun _ => ?_
  rw [Flags.inUse?_eq_some, and_iff_left ha]

/-- **What the first field passes.**  No defaults are known before it, so it passes all arguments
of its way to page, and what it passes for them are the defaults. -/
theorem replaceArguments_first {strategy : Option Strategy} {arguments arguments' : List Argument}
    {flags : Flags}
    (h : replaceArguments (Flags.disabled.use strategy) arguments = .ok (arguments', flags)) :
    arguments' = arguments.map (Flags.disabled.use strategy).asVariable ++
      ((usedArguments strategy).filter fun a => a.name ∉ arguments.map (·.name)).map
        (variableArgument ·.name) ∧
      flags.enabled = usedArguments strategy ∧
      ∀ a ∈ usedArguments strategy,
        (flags a).defaultValue = (lastRemembered? a arguments).getD .null := by
  obtain ⟨rfl, henabled, hdefault⟩ := replaceArguments_eq_ok h
  have huse : ∀ a, (flags a).enabled = strategy.any (·.uses a) := henabled
  have hdefault : ∀ a ∈ usedArguments strategy,
      (flags a).defaultValue = (lastRemembered? a arguments).getD .null := fun a ha => by
    have hused : ((Flags.disabled.use strategy) a).enabled = true := mem_usedArguments.mp ha
    rw [hdefault, if_pos hused]
    rfl
  refine ⟨?_, List.filter_congr fun a _ => huse a, hdefault⟩
  rw [Flags.lacking, usedArguments, List.filter_filter]
  congr 2
  refine List.filter_congr fun a _ => ?_
  rw [huse]
  by_cases ha : strategy.any (·.uses a) = true
  · have hseen := @mem_filterMap_inUse? (Flags.disabled.use strategy) arguments a ha
    rw [ha, Flags.excludes_eq_false huse ha, hdefault a (mem_usedArguments.mpr ha)]
    -- a default is known only where a value was passed
    by_cases hpassed : a.name ∈ arguments.map (·.name)
    · simp [hseen, hpassed]
    · have hnone : lastRemembered? a arguments = none :=
        Option.eq_none_iff_forall_ne_some.mpr fun d hd => hpassed (exists_of_lastRemembered? hd)
      simp [hseen, hpassed, hnone, Datum.isTrue]
  · simp [Bool.eq_false_iff.mpr ha]

end QueryCompiler
