import QueryCompiler.Proofs.Operations
/-
# Where a record is placed

A spread of a generated fragment says at which end of the list its record goes, under which parent
the list is found, and which lists are left out.  All of it may stand in the arguments of the
directive that names the end, or each part in a directive of its own.  Four lookups read the one
form and three the other, and a guard is an object here and a list of arguments there; what they
come to is the same operation, or the same error.

* `Placement.Read`: what is read off directives that place a record;
* `Placement.read_shorthand`, `Placement.read_separate`: both forms are read alike;
* `Compilation.tree_placement`: and so a field is compiled alike with both of them.
-/
namespace QueryCompiler

/-! ## 1. Two ways to say it -/

/-- A guard as it is written.  Either part may be missing, and then it is no guard. -/
structure WrittenGuard where
  argument : Option Value
  value : Option Value

/-- The parts that are there, by name. -/
def WrittenGuard.fields (g : WrittenGuard) : List (String × Value) :=
  (g.argument.map fun v => ("argument", v)).toList ++ (g.value.map fun v => ("value", v)).toList

/-- The parts as arguments of a directive. -/
def WrittenGuard.arguments (g : WrittenGuard) : List Argument :=
  (g.argument.map fun v => ⟨"argument", v⟩).toList ++ (g.value.map fun v => ⟨"value", v⟩).toList

/-- What a directive says: its name and its arguments. -/
abbrev DirectiveCall := String × List Argument

def Directive.call (d : Directive) : DirectiveCall := (d.name, d.arguments)

/-- The directives that say where a record goes. -/
def Config.placingDirectives (c : Config) : List String :=
  [c.prependDirective, c.appendDirective, c.parentIdDirective, c.whenDirective,
    c.whenNotDirective]

/-- Some directives say just this of where a record goes.  They may stand in any order, and say
other things as well. -/
def Config.Places (c : Config) (calls : List DirectiveCall) (ds : List Directive) : Prop :=
  ∃ others : List DirectiveCall, (∀ call ∈ others, call.1 ∉ c.placingDirectives) ∧
    (ds.map Directive.call).Perm (others ++ calls)

/-- Where a record is to go: at which end of the list, under which parent, and in which lists. -/
structure Placement where
  position : ListPosition
  parent : Option Value
  must : Option WrittenGuard
  mustNot : Option WrittenGuard

namespace Placement

/-- The directive that names the end of the list. -/
def place (c : Config) (p : Placement) : String :=
  match p.position with
  | .first => c.prependDirective
  | .last => c.appendDirective

/-- The other parts as arguments of that directive. -/
def arguments (p : Placement) : List Argument :=
  (p.parent.map fun v => ⟨"parentID", v⟩).toList
    ++ ((p.must.map fun g => ⟨"when", .object g.fields⟩).toList
      ++ (p.mustNot.map fun g => ⟨"when_not", .object g.fields⟩).toList)

/-- All of it in one directive. -/
def shorthand (c : Config) (p : Placement) : List DirectiveCall := [(p.place c, p.arguments)]

/-- A bare directive for the end of the list, and one for each other part. -/
def separate (c : Config) (p : Placement) : List DirectiveCall :=
  (p.place c, []) :: ((p.parent.map fun v => (c.parentIdDirective, [⟨"value", v⟩])).toList
    ++ ((p.must.map fun g => (c.whenDirective, g.arguments)).toList
      ++ (p.mustNot.map fun g => (c.whenNotDirective, g.arguments)).toList))

end Placement

theorem Config.mem_placingDirectives (c : Config) :
    c.prependDirective ∈ c.placingDirectives ∧ c.appendDirective ∈ c.placingDirectives ∧
      c.parentIdDirective ∈ c.placingDirectives ∧ c.whenDirective ∈ c.placingDirectives ∧
        c.whenNotDirective ∈ c.placingDirectives := by
  simp [placingDirectives]

/-- Directives that say where a record goes are told apart by their names. -/
theorem Config.ne_of_nodup {c : Config} (h : c.placingDirectives.Nodup) :
    (c.prependDirective ≠ c.appendDirective ∧ c.prependDirective ≠ c.parentIdDirective ∧
      c.prependDirective ≠ c.whenDirective ∧ c.prependDirective ≠ c.whenNotDirective) ∧
    (c.appendDirective ≠ c.parentIdDirective ∧ c.appendDirective ≠ c.whenDirective ∧
      c.appendDirective ≠ c.whenNotDirective) ∧
    (c.parentIdDirective ≠ c.whenDirective ∧ c.parentIdDirective ≠ c.whenNotDirective) ∧
      c.whenDirective ≠ c.whenNotDirective := by
  simpa [placingDirectives] using h

/-! ## 2. The operation that is meant -/

/-- The guards with one that is written down. -/
def GuardScope.addWritten (s : GuardScope) (g : Guards) (kind : GuardKind) :
    Option WrittenGuard → Except Error Guards
  | none => .ok g
  | some guard => s.add g kind guard.argument guard.value

namespace Placement

/-- The guards of a placement. -/
def guards (p : Placement) (s : GuardScope) : Except Error Guards := do
  let g ← s.addWritten [] .must p.must
  s.addWritten g .mustNot p.mustNot

/-- The operation that a placement asks for. -/
def operation (r : Registry) (list : String) (action : ListAction) (p : Placement) :
    Except Error ListOperation := do
  let parent ← describe? p.parent
  let guards ← p.guards { registry := r, list := some list, type := none }
  return { action, list := some list, type := none
           position := if action = .insert ∨ action = .toggle then some p.position else none
           parent, guards }

/-- What is read off directives is the placement. -/
structure Read (c : Config) (p : Placement) (ds : List Directive) : Prop where
  position : positionOf c ds = p.position
  parent : parentValue? c ds = p.parent
  guards : ∀ s, GuardScope.guards c s ds = p.guards s

theorem Read.edit? {c : Config} {r : Registry} {p : Placement} {ds : List Directive}
    (h : p.Read c ds) {name list : String} {action : ListAction}
    (hname : r.operation? c name = some (list, action)) :
    edit? c r (.spread name ds) = some <$> p.operation r list action := by
  rw [QueryCompiler.edit?, hname]
  simp only [h.parent, h.guards, h.position, operation]
  cases describe? p.parent with
  | error e => rfl
  | ok parent =>
    simp only [bind, Except.bind]
    cases p.guards { registry := r, list := some list, type := none } <;> rfl

end Placement

/-! ## 3. Lookups -/

/-- What alone fits is found wherever it stands. -/
theorem find?_perm {α : Type} {fits : α → Bool} {items others : List α} (h : items.Perm others)
    (hunique : ∀ a ∈ others, ∀ b ∈ others, fits a = true → fits b = true → a = b) :
    items.find? fits = others.find? fits := by
  cases hfound : others.find? fits with
  | none =>
    rw [List.find?_eq_none] at hfound ⊢
    exact fun a ha => hfound a (h.mem_iff.mp ha)
  | some b =>
    have hb := List.mem_of_find?_eq_some hfound
    have hsome : (items.find? fits).isSome = true :=
      List.find?_isSome.mpr ⟨b, h.mem_iff.mpr hb, List.find?_some hfound⟩
    obtain ⟨a, ha⟩ := Option.isSome_iff_exists.mp hsome
    rw [ha, hunique a (h.mem_iff.mp (List.mem_of_find?_eq_some ha)) b hb (List.find?_some ha)
      (List.find?_some hfound)]

section Lookups

variable {c : Config} {calls : List DirectiveCall} {ds : List Directive}

/-- **What directives say** is looked up in their calls. -/
theorem Config.Places.directive? (h : c.Places calls ds) (hcalls : (calls.map (·.1)).Nodup)
    {name : String} (hname : name ∈ c.placingDirectives) :
    (directive? ds name).map Directive.call = calls.find? (·.1 = name) := by
  obtain ⟨others, hothers, hperm⟩ := h
  have hnone : ∀ call ∈ others, ¬ call.1 = name := fun call hcall hsame =>
    hothers call hcall (hsame ▸ hname)
  have hunique : ∀ a ∈ others ++ calls, ∀ b ∈ others ++ calls,
      decide (a.1 = name) = true → decide (b.1 = name) = true → a = b := by
    intro a ha b hb hna hnb
    rw [decide_eq_true_iff] at hna hnb
    have ha : a ∈ calls := (List.mem_append.mp ha).resolve_left fun ha => hnone a ha hna
    have hb : b ∈ calls := (List.mem_append.mp hb).resolve_left fun hb => hnone b hb hnb
    exact List.inj_on_of_nodup_map hcalls ha hb (hna.trans hnb.symm)
  have hfind := find?_perm hperm hunique
  have hnotfound : others.find? (·.1 = name) = none :=
    List.find?_eq_none.mpr fun call hcall => by simpa using hnone call hcall
  rw [List.find?_map, List.find?_append, hnotfound, Option.none_or] at hfind
  exact hfind

/-- The value of an argument, as the calls have it. -/
theorem Config.Places.directiveValue? (h : c.Places calls ds) (hcalls : (calls.map (·.1)).Nodup)
    {name : String} (hname : name ∈ c.placingDirectives) (argument : String) :
    directiveValue? ds name argument = (calls.find? (·.1 = name)).bind fun call =>
      (argument? call.2 argument).map (·.value) := by
  rw [← h.directive? hcalls hname, QueryCompiler.directiveValue?]
  cases QueryCompiler.directive? ds name <;> rfl

/-- Whether there is a directive of a name, as the calls have it. -/
theorem Config.Places.hasDirective (h : c.Places calls ds) (hcalls : (calls.map (·.1)).Nodup)
    {name : String} (hname : name ∈ c.placingDirectives) :
    hasDirective ds name = (calls.find? (·.1 = name)).isSome := by
  rw [← h.directive? hcalls hname, Option.isSome_map, QueryCompiler.hasDirective]

/-- A call that may be missing is found under its name. -/
theorem find?_optional {α : Type} (item : Option α) (name : String) (arguments : α → List Argument)
    (other : String) :
    (item.map fun a => (name, arguments a)).toList.find? (·.1 = other)
      = if name = other then item.map fun a => (name, arguments a) else none := by
  cases item with
  | none =>
    rw [Option.map_none, ite_self]
    rfl
  | some a =>
    rw [Option.map_some, Option.toList_some, List.find?_singleton]
    simp only [decide_eq_true_eq]

end Lookups

/-! ## 4. Both forms are read alike -/

theorem WrittenGuard.get?_fields (g : WrittenGuard) :
    Table.get? (Table.ofRows g.fields) "argument" = g.argument ∧
      Table.get? (Table.ofRows g.fields) "value" = g.value := by
  obtain ⟨argument, value⟩ := g
  cases argument <;> cases value <;> exact ⟨rfl, rfl⟩

/-- The parts of a guard in the arguments of a directive that may be missing. -/
theorem WrittenGuard.lookup (guard : Option WrittenGuard) (name : String) :
    ((guard.map fun g => (name, g.arguments)).bind fun call =>
        (argument? call.2 "argument").map (·.value)) = guard.bind (·.argument) ∧
      ((guard.map fun g => (name, g.arguments)).bind fun call =>
        (argument? call.2 "value").map (·.value)) = guard.bind (·.value) := by
  rcases guard with _ | ⟨_ | argument, _ | value⟩ <;> exact ⟨rfl, rfl⟩

theorem GuardScope.addObject_none (s : GuardScope) (g : Guards) (kind : GuardKind) :
    s.addObject g kind none = pure g := rfl

theorem GuardScope.add_none (s : GuardScope) (g : Guards) (kind : GuardKind)
    (value : Option Value) : s.add g kind none value = pure g := rfl

/-- A guard in an object is the guard. -/
theorem GuardScope.addObject_written (s : GuardScope) (g : Guards) (kind : GuardKind)
    (guard : Option WrittenGuard) :
    s.addObject g kind (guard.map fun g => .object g.fields) = s.addWritten g kind guard := by
  cases guard with
  | none => rfl
  | some guard =>
    rw [Option.map_some, addObject, addWritten, guard.get?_fields.1, guard.get?_fields.2]

/-- A guard in the arguments of a directive is the guard. -/
theorem GuardScope.add_written (s : GuardScope) (g : Guards) (kind : GuardKind)
    (guard : Option WrittenGuard) :
    s.add g kind (guard.bind (·.argument)) (guard.bind (·.value)) = s.addWritten g kind guard := by
  cases guard <;> rfl

namespace Placement

variable {c : Config} {p : Placement} {ds : List Directive}

theorem argument?_arguments (p : Placement) :
    (argument? p.arguments "parentID").map (·.value) = p.parent ∧
      (argument? p.arguments "when").map (·.value) = p.must.map (fun g => .object g.fields) ∧
        (argument? p.arguments "when_not").map (·.value)
          = p.mustNot.map (fun g => .object g.fields) := by
  obtain ⟨-, parent, must, mustNot⟩ := p
  cases parent <;> cases must <;> cases mustNot <;> exact ⟨rfl, rfl, rfl⟩

/-- **The one directive** is read as the placement. -/
theorem read_shorthand (hnames : c.placingDirectives.Nodup) (h : c.Places (p.shorthand c) ds) :
    p.Read c ds := by
  obtain ⟨hprepend, happend, hparent, hwhen, hwhenNot⟩ := c.mem_placingDirectives
  have hone : ((p.shorthand c).map (·.1)).Nodup := List.nodup_singleton _
  have hvalue {name : String} (hname : name ∈ c.placingDirectives) (argument : String) :
      directiveValue? ds name argument = if p.place c = name then
        (argument? p.arguments argument).map (·.value) else none := by
    rw [h.directiveValue? hone hname, shorthand, List.find?_singleton]
    simp only [decide_eq_true_eq]
    split <;> rfl
  have hhas {name : String} (hname : name ∈ c.placingDirectives) :
      hasDirective ds name = decide (p.place c = name) := by
    rw [h.hasDirective hone hname, shorthand, List.find?_singleton]
    by_cases hplace : p.place c = name <;> simp [hplace]
  obtain ⟨hargument, hmust, hmustNot⟩ := p.argument?_arguments
  obtain ⟨⟨hpa, hpp, hpw, hpn⟩, ⟨hap, haw, han⟩, -⟩ := Config.ne_of_nodup hnames
  obtain ⟨position, parent, must, mustNot⟩ := p
  cases position with
  | first =>
    have hplace : place c ⟨.first, parent, must, mustNot⟩ = c.prependDirective := rfl
    rw [hplace] at hvalue hhas
    refine ⟨?_, ?_, fun s => ?_⟩
    · rw [positionOf, hhas hprepend]
      simp
    · rw [parentValue?, hvalue hprepend, hvalue happend, hvalue hparent, if_pos rfl, if_neg hpa,
        if_neg hpp, hargument]
      simp
    · simp only [GuardScope.guards, hvalue hprepend, hvalue happend, hvalue hwhen, hvalue hwhenNot,
        hpa, hpw, hpn, if_true, if_false, hmust, hmustNot, GuardScope.addObject_written,
        GuardScope.addObject_none, GuardScope.add_none, bind_pure, guards]
  | last =>
    have hplace : place c ⟨.last, parent, must, mustNot⟩ = c.appendDirective := rfl
    rw [hplace] at hvalue hhas
    refine ⟨?_, ?_, fun s => ?_⟩
    · rw [positionOf, hhas hprepend, hhas happend]
      simp [hpa.symm]
    · rw [parentValue?, hvalue hprepend, hvalue happend, hvalue hparent, if_pos rfl,
        if_neg hpa.symm, if_neg hap, hargument]
      simp
    · simp only [GuardScope.guards, hvalue hprepend, hvalue happend, hvalue hwhen, hvalue hwhenNot,
        hpa.symm, haw, han, if_true, if_false, hmust, hmustNot, GuardScope.addObject_written,
        GuardScope.addObject_none, GuardScope.add_none, pure_bind, bind_pure, guards]

theorem nodup_separate (hnames : c.placingDirectives.Nodup) :
    ((p.separate c).map (·.1)).Nodup := by
  have hoptional {α : Type} (item : Option α) (name : String) (arguments : α → List Argument) :
      ((item.map fun a => (name, arguments a)).toList.map (·.1)).Sublist [name] := by
    cases item
    · exact List.nil_sublist _
    · exact List.Sublist.refl _
  have hsublist : ((p.separate c).map (·.1)).Sublist
      [p.place c, c.parentIdDirective, c.whenDirective, c.whenNotDirective] := by
    rw [separate, List.map_cons, List.map_append, List.map_append]
    exact .cons_cons _ ((hoptional _ _ _).append ((hoptional _ _ _).append (hoptional _ _ _)))
  refine List.Nodup.sublist hsublist ?_
  obtain ⟨⟨-, hpp, hpw, hpn⟩, ⟨hap, haw, han⟩, ⟨hiw, hin⟩, hwn⟩ := Config.ne_of_nodup hnames
  rw [place]
  cases p.position <;> simp [*]

/-- The call of each directive, if it is there. -/
theorem find?_separate (p : Placement) (name : String) : (p.separate c).find? (·.1 = name) =
    if p.place c = name then some (p.place c, []) else
      (if c.parentIdDirective = name then
          p.parent.map fun v => (c.parentIdDirective, [⟨"value", v⟩]) else none).or
        ((if c.whenDirective = name then
            p.must.map fun g => (c.whenDirective, g.arguments) else none).or
          (if c.whenNotDirective = name then
            p.mustNot.map fun g => (c.whenNotDirective, g.arguments) else none)) := by
  rw [separate, List.find?_cons, List.find?_append, List.find?_append, find?_optional,
    find?_optional, find?_optional]
  by_cases hplace : p.place c = name <;> simp [hplace]

/-- **Directives of their own** are read as the placement. -/
theorem read_separate (hnames : c.placingDirectives.Nodup) (h : c.Places (p.separate c) ds) :
    p.Read c ds := by
  obtain ⟨hprepend, happend, hparent, hwhen, hwhenNot⟩ := c.mem_placingDirectives
  have hdistinct : ((p.separate c).map (·.1)).Nodup := nodup_separate hnames
  have hvalue {name : String} (hname : name ∈ c.placingDirectives) (argument : String) :=
    h.directiveValue? hdistinct hname argument
  have hhas {name : String} (hname : name ∈ c.placingDirectives) := h.hasDirective hdistinct hname
  obtain ⟨⟨hpa, hpp, hpw, hpn⟩, ⟨hap, haw, han⟩, ⟨hiw, hin⟩, hwn⟩ := Config.ne_of_nodup hnames
  have hplace : p.place c ≠ c.parentIdDirective ∧ p.place c ≠ c.whenDirective ∧
      p.place c ≠ c.whenNotDirective := by
    rw [place]
    cases p.position
    · exact ⟨hpp, hpw, hpn⟩
    · exact ⟨hap, haw, han⟩
  -- the directive that names the end of the list says nothing else
  have hends (argument : String) : directiveValue? ds c.prependDirective argument = none ∧
      directiveValue? ds c.appendDirective argument = none := by
    rw [hvalue hprepend, hvalue happend, find?_separate, find?_separate, if_neg hpp.symm,
      if_neg hpw.symm, if_neg hpn.symm, if_neg hap.symm, if_neg haw.symm, if_neg han.symm]
    constructor <;> split <;> rfl
  have hparentValue : directiveValue? ds c.parentIdDirective "value" = p.parent := by
    rw [hvalue hparent, find?_separate, if_neg hplace.1, if_pos rfl, if_neg hiw.symm,
      if_neg hin.symm]
    cases p.parent <;> rfl
  have hmust : directiveValue? ds c.whenDirective "argument" = p.must.bind (·.argument) ∧
      directiveValue? ds c.whenDirective "value" = p.must.bind (·.value) := by
    rw [hvalue hwhen, hvalue hwhen, find?_separate, if_neg hplace.2.1, if_neg hiw, if_pos rfl,
      if_neg hwn.symm, Option.none_or, Option.or_none]
    exact WrittenGuard.lookup p.must c.whenDirective
  have hmustNot :
      directiveValue? ds c.whenNotDirective "argument" = p.mustNot.bind (·.argument) ∧
        directiveValue? ds c.whenNotDirective "value" = p.mustNot.bind (·.value) := by
    rw [hvalue hwhenNot, hvalue hwhenNot, find?_separate, if_neg hplace.2.2, if_neg hin,
      if_neg hwn, if_pos rfl, Option.none_or, Option.none_or]
    exact WrittenGuard.lookup p.mustNot c.whenNotDirective
  refine ⟨?_, ?_, fun s => ?_⟩
  · rw [positionOf, hhas hprepend, hhas happend, find?_separate, find?_separate, if_neg hpp.symm,
      if_neg hpw.symm, if_neg hpn.symm, if_neg hap.symm, if_neg haw.symm, if_neg han.symm, place]
    cases p.position
    · simp
    · simp [hpa.symm]
  · rw [parentValue?, (hends _).1, (hends _).2, hparentValue, Option.none_or, Option.none_or]
  · simp only [GuardScope.guards, (hends _).1, (hends _).2, hmust, hmustNot,
      GuardScope.addObject_none, GuardScope.add_written, pure_bind, guards]

end Placement

/-! ## 5. Compiling -/

namespace Compilation

variable {x : Compilation} {follow : Follow} {parent : Option NamedType} {masked : Bool}

/-- What a spread selects has nothing to do with its directives. -/
theorem forest_spread (name : String) (ds ds' : List Directive) (after : List Selection) :
    ∀ (before : List Selection) (merged : SelectionTree),
      x.forest follow parent masked merged (before ++ .spread name ds :: after)
        = x.forest follow parent masked merged (before ++ .spread name ds' :: after)
  | [], _ => rfl
  | s :: before, merged => by
    rw [List.cons_append, List.cons_append, forest, forest]
    simp only [forest_spread name ds ds' after before]

/-- **Both ways to place a record compile alike.**  A spread of a generated fragment asks for one
operation, or fails in one way, whether it says where the record goes in the directive that names
the end of the list or in directives of their own; and so a field that has it among its selections
has the same entry. -/
theorem tree_placement (hnames : x.config.internalDirectives.Nodup) {name list : String}
    {action : ListAction} (hname : x.registry.operation? x.config name = some (list, action))
    (p : Placement) {short long : List Directive}
    (hshort : x.config.Places (p.shorthand x.config) short)
    (hlong : x.config.Places (p.separate x.config) long) :
    edit? x.config x.registry (.spread name short)
        = some <$> p.operation x.registry list action ∧
      edit? x.config x.registry (.spread name long)
        = some <$> p.operation x.registry list action ∧
      ∀ follow parent masked head before after,
        x.tree follow parent masked (.field head (before ++ .spread name short :: after))
          = x.tree follow parent masked (.field head (before ++ .spread name long :: after)) := by
  have hplacing : (x.config.internalDirectives.drop 4).Nodup :=
    hnames.sublist (List.drop_sublist 4 _)
  have hedit := (Placement.read_shorthand hplacing hshort).edit? hname
  have hedit' := (Placement.read_separate hplacing hlong).edit? hname
  refine ⟨hedit, hedit', fun follow parent masked head before after => ?_⟩
  have hoperations : listOperations x.config x.registry head.directives
        (before ++ .spread name short :: after)
      = listOperations x.config x.registry head.directives
        (before ++ .spread name long :: after) := by
    simp only [listOperations, List.mapM_append, List.mapM_cons, hedit, hedit']
  have hempty : (before ++ .spread name short :: after).isEmpty
      = (before ++ .spread name long :: after).isEmpty := by
    cases before <;> rfl
  simp only [tree, entryHead, hoperations, hempty, forest_spread name short long after before]

end Compilation

/-! ## 6. A member of a team -/

namespace Sample

/-- Users of a team, who may be asked for the admins among them. -/
def teams : Schema :=
  { types := [.scalar "String", .scalar "Boolean", .scalar "ID",
      .object "User" [] [⟨"id", some [], .named "ID"⟩],
      .object "Team" [] [⟨"id", some [], .named "ID"⟩,
        ⟨"users", some [("admins", .named "Boolean")], .list (.named "User")⟩],
      .object "Mutation" [] [⟨"addUser", some [], .named "User"⟩],
      .object "Query" [] [⟨"team", some [], .named "Team"⟩]]
    query := some "Query", mutation := some "Mutation", subscription := none }

/-- A list of the users of a team. -/
def teamUsers : Document :=
  operation .query "Team" [plainField "team" [listField "users" "Users" [plainField "id" []]]]

/-- What a mutation is compiled with. -/
def teamCompilation : Compilation where
  config := config teams
  registry := runRegistry (config teams) [teamUsers]
  fragments := []
  kind := .mutation

/-- To the front of a team, where admins are asked for.  The other guard has no value. -/
def newAdmin : Placement where
  position := .first
  parent := some (.variable "team")
  must := some { argument := some (.string "admins" false), value := some (.string "true" false) }
  mustNot := some { argument := some (.string "admins" false), value := none }

/-- The placement in one directive, behind a directive that is sent. -/
def inOneDirective : List Directive :=
  [plainDirective "include" [variableArgument "if"], plainDirective "prepend" newAdmin.arguments]

/-- The placement in four directives, with the end of the list last. -/
def inFourDirectives : List Directive :=
  [plainDirective "when_not" [⟨"argument", .string "admins" false⟩],
    plainDirective "when"
      [⟨"argument", .string "admins" false⟩, ⟨"value", .string "true" false⟩],
    plainDirective "parentID" [⟨"value", .variable "team"⟩], plainDirective "prepend" []]

end Sample

open Sample in
theorem newAdmin_placed :
    teamCompilation.config.internalDirectives.Nodup ∧
      teamCompilation.registry.operation? teamCompilation.config "Users_insert"
        = some ("Users", .insert) ∧
      teamCompilation.config.Places (newAdmin.shorthand teamCompilation.config) inOneDirective ∧
      teamCompilation.config.Places (newAdmin.separate teamCompilation.config) inFourDirectives ∧
      edit? teamCompilation.config teamCompilation.registry (.spread "Users_insert" inOneDirective)
        = some <$> newAdmin.operation teamCompilation.registry "Users" .insert ∧
      edit? teamCompilation.config teamCompilation.registry
          (.spread "Users_insert" inFourDirectives)
        = some <$> newAdmin.operation teamCompilation.registry "Users" .insert ∧
      ∀ follow parent masked head before after,
        teamCompilation.tree follow parent masked
            (.field head (before ++ .spread "Users_insert" inOneDirective :: after))
          = teamCompilation.tree follow parent masked
            (.field head (before ++ .spread "Users_insert" inFourDirectives :: after)) := by
  have hnames : teamCompilation.config.internalDirectives.Nodup := by decide
  have hname : teamCompilation.registry.operation? teamCompilation.config "Users_insert"
      = some ("Users", .insert) := by decide +kernel
  have hshort : teamCompilation.config.Places (newAdmin.shorthand teamCompilation.config)
      inOneDirective :=
    ⟨[("include", [variableArgument "if"])], by decide, List.Perm.refl _⟩
  have hlong : teamCompilation.config.Places (newAdmin.separate teamCompilation.config)
      inFourDirectives :=
    ⟨[], by decide, List.reverse_perm (newAdmin.separate teamCompilation.config)⟩
  exact ⟨hnames, hname, hshort, hlong,
    Compilation.tree_placement hnames hname newAdmin hshort hlong⟩

end QueryCompiler
