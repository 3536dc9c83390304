import QueryCompiler.Proofs.Lists.Names
import QueryCompiler.Proofs.Lists.Tagging
/-
# What the list pass meets

The list pass meets the directives of a document one after the other.  At each of them it looks into
the registry for one name, notes one fault at most, and registers one list at most.  So what a run
has found is told by the directives that it has met (`Visit`): its registry and its faults are those
after these visits, whatever they were before (`TagState.after`).  What it does to the document has
nothing to do with the registry.

The pass asks some fields for their arguments, and breaks off at a field that takes none at all,
which is a field of an input object (`Visit.ArgumentsKnown`).

* `directives_visits_document`: every directive of a document is met once;
* `exists_listAt`: of which fields a list is made.
-/
namespace QueryCompiler

open Tagging

/-! ## 1. Visits -/

/-- A directive where the pass meets it.  One that stands on a field sees the field with what this
has gained. -/
structure Visit where
  filename : String
  ancestors : List Ancestor
  target : Option Target
  directive : Directive

namespace Visit

/-- The visits of the directives of one thing. -/
def ofDirectives (filename : String) (ancestors : List Ancestor) (target : Option Target)
    (ds : List Directive) : List Visit :=
  ds.map fun directive => { filename, ancestors, target, directive }

/-- The visits of directives of something else than fields. -/
def elsewhere (filename : String) (lists : List (List Directive)) : List Visit :=
  lists.flatMap (ofDirectives filename [] none)

end Visit

mutual

/-- The visits of a selection, from the outside in and from the front to the back. -/
def Selection.visits (c : Config) (filename : String) (ancestors : List Ancestor) :
    Selection → List Visit
  | .field head selections =>
    Visit.ofDirectives filename ancestors
        (some (head, selections ++ gains c ancestors head selections)) head.directives
      ++ visitsOf c filename (ancestors ++ [.field head]) selections
  | .spread _ directives => Visit.elsewhere filename [directives]
  | .inline condition directives selections =>
    Visit.elsewhere filename [directives]
      ++ visitsOf c filename (ancestors ++ [.inline condition]) selections

def visitsOf (c : Config) (filename : String) (ancestors : List Ancestor) :
    List Selection → List Visit
  | [] => []
  | s :: selections => s.visits c filename ancestors ++ visitsOf c filename ancestors selections

end

/-- The visits of a definition. -/
def Definition.visits (c : Config) (filename : String) : Definition → List Visit
  | .operation o =>
    Visit.elsewhere filename (o.declarations.map (·.directives))
      ++ (Visit.elsewhere filename [o.directives]
        ++ visitsOf c filename [.operation o.kind] o.selections)
  | .fragment f =>
    Visit.elsewhere filename [f.directives]
      ++ visitsOf c filename [.fragment f.condition] f.selections
  | d => Visit.elsewhere filename d.directiveLists

/-- The visits of a document. -/
def Document.visits (c : Config) (d : Document) : List Visit :=
  d.definitions.flatMap (·.visits c d.filename)

section Directives

variable {c : Config} (filename : String)

theorem directives_ofDirectives (ancestors : List Ancestor) (target : Option Target)
    (ds : List Directive) :
    (Visit.ofDirectives filename ancestors target ds).map (·.directive) = ds := by
  rw [Visit.ofDirectives, List.map_map]
  exact List.map_id ds

theorem directives_elsewhere (lists : List (List Directive)) :
    (Visit.elsewhere filename lists).map (·.directive) = lists.flatten := by
  rw [Visit.elsewhere, List.map_flatMap, List.flatten_eq_flatMap]
  exact List.flatMap_congr fun ds _ => directives_ofDirectives filename [] none ds

mutual

theorem directives_visits : ∀ (s : Selection) (ancestors : List Ancestor),
    (s.visits c filename ancestors).map (·.directive) = s.directiveLists.flatten
  | .field head ss, ancestors => by
    rw [Selection.visits, Selection.directiveLists, List.map_append, directives_ofDirectives,
      directives_visitsOf ss, List.flatten_cons]
  | .spread _ ds, _ => directives_elsewhere filename [ds]
  | .inline condition ds ss, ancestors => by
    rw [Selection.visits, Selection.directiveLists, List.map_append, directives_elsewhere,
      directives_visitsOf ss, List.flatten_cons, List.flatten_cons, List.flatten_nil,
      List.append_nil]

theorem directives_visitsOf : ∀ (ss : List Selection) (ancestors : List Ancestor),
    (visitsOf c filename ancestors ss).map (·.directive) = (directiveListsOf ss).flatten
  | [], _ => rfl
  | s :: ss, ancestors => by
    rw [visitsOf, directiveListsOf, List.map_append, directives_visits s, directives_visitsOf ss,
      List.flatten_append]

end

theorem directives_visits_definition (d : Definition) :
    (d.visits c filename).map (·.directive) = d.directiveLists.flatten := by
  cases d with
  | operation o =>
    rw [Definition.visits, Definition.directiveLists, List.map_append, List.map_append,
      directives_elsewhere, directives_elsewhere, directives_visitsOf, List.flatten_append,
      List.flatten_cons, List.flatten_cons, List.flatten_nil, List.append_nil]
  | fragment f =>
    rw [Definition.visits, Definition.directiveLists, List.map_append, directives_elsewhere,
      directives_visitsOf, List.flatten_cons, List.flatten_cons, List.flatten_nil,
      List.append_nil]
  | schema _ | type _ | directive _ => exact directives_elsewhere filename _

/-- **Every directive of a document is met once**, in the order of the text. -/
theorem directives_visits_document (d : Document) :
    (d.visits c).map (·.directive) = (d.definitions.flatMap (·.directiveLists)).flatten := by
  rw [Document.visits, List.map_flatMap, List.flatten_eq_flatMap, List.flatMap_assoc]
  simp only [← List.flatten_eq_flatMap]
  exact List.flatMap_congr fun definition _ => directives_visits_definition d.filename definition

theorem filename_ofDirectives {ancestors : List Ancestor} {target : Option Target}
    {ds : List Directive} {v : Visit}
    (h : v ∈ Visit.ofDirectives filename ancestors target ds) : v.filename = filename := by
  obtain ⟨d, -, rfl⟩ := List.mem_map.mp h
  rfl

theorem filename_elsewhere {lists : List (List Directive)} {v : Visit}
    (h : v ∈ Visit.elsewhere filename lists) : v.filename = filename := by
  obtain ⟨ds, -, hv⟩ := List.mem_flatMap.mp h
  exact filename_ofDirectives filename hv

mutual

theorem filename_visits : ∀ (s : Selection) (ancestors : List Ancestor),
    ∀ v ∈ s.visits c filename ancestors, v.filename = filename
  | .field head ss, ancestors, v, h => by
    rw [Selection.visits, List.mem_append] at h
    exact h.elim (filename_ofDirectives filename) (filename_visitsOf ss _ v)
  | .spread name ds, ancestors, v, h => filename_elsewhere filename h
  | .inline condition ds ss, ancestors, v, h => by
    rw [Selection.visits, List.mem_append] at h
    exact h.elim (filename_elsewhere filename) (filename_visitsOf ss _ v)

theorem filename_visitsOf : ∀ (ss : List Selection) (ancestors : List Ancestor),
    ∀ v ∈ visitsOf c filename ancestors ss, v.filename = filename
  | [], _, _, h => absurd h List.not_mem_nil
  | s :: ss, ancestors, v, h => by
    rw [visitsOf, List.mem_append] at h
    exact h.elim (filename_visits s ancestors v) (filename_visitsOf ss ancestors v)

end

/-- The visits of a document are in its file. -/
theorem filename_visits_document {d : Document} {v : Visit} (h : v ∈ d.visits c) :
    v.filename = d.filename := by
  obtain ⟨definition, -, hv⟩ := List.mem_flatMap.mp h
  cases definition with
  | operation o =>
    rw [Definition.visits, List.mem_append, List.mem_append] at hv
    rcases hv with hv | hv | hv
    · exact filename_elsewhere _ hv
    · exact filename_elsewhere _ hv
    · exact filename_visitsOf _ _ _ v hv
  | fragment f =>
    rw [Definition.visits, List.mem_append] at hv
    exact hv.elim (filename_elsewhere _) (filename_visitsOf _ _ _ v)
  | schema _ | type _ | directive _ => exact filename_elsewhere _ hv

/-- The names that the directives of some visits give to lists. -/
def listNamesOf (c : Config) (visits : List Visit) : List String :=
  visits.filterMap fun v => c.listName? v.directive

theorem mem_listNamesOf {visits : List Visit} {v : Visit} {name : String} (hv : v ∈ visits)
    (hname : c.listName? v.directive = some name) : name ∈ listNamesOf c visits :=
  List.mem_filterMap.mpr ⟨v, hv, hname⟩

theorem listNamesOf_visits (d : Document) : listNamesOf c (d.visits c) = d.listNames c := by
  have hmap : listNamesOf c (d.visits c)
      = ((d.visits c).map (·.directive)).filterMap c.listName? := by
    rw [List.filterMap_map]
    rfl
  rw [hmap, directives_visits_document, List.filterMap_flatten]
  rfl

end Directives

/-! ## 2. Fields and their visits -/

section Fields

variable {c : Config} {filename : String} {V : Visit → Prop} {P : FieldProperty}

mutual

theorem every_of_visits (hP : ∀ ancestors head ss, (∀ v ∈ Visit.ofDirectives filename ancestors
      (some (head, ss ++ gains c ancestors head ss)) head.directives, V v) → P ancestors head ss) :
    ∀ (s : Selection) (ancestors : List Ancestor),
      (∀ v ∈ s.visits c filename ancestors, V v) → s.Every P ancestors
  | .field head ss, ancestors, h => by
    rw [Selection.visits, List.forall_mem_append] at h
    rw [Selection.Every]
    exact ⟨hP ancestors head ss h.1, everyIn_of_visits hP ss _ h.2⟩
  | .spread _ _, _, _ => by
    rw [Selection.Every]
    trivial
  | .inline condition _ ss, ancestors, h => by
    rw [Selection.visits, List.forall_mem_append] at h
    rw [Selection.Every]
    exact everyIn_of_visits hP ss _ h.2

/-- What holds at all visits of some selections holds of each field in them at its directives. -/
theorem everyIn_of_visits (hP : ∀ ancestors head ss, (∀ v ∈ Visit.ofDirectives filename ancestors
      (some (head, ss ++ gains c ancestors head ss)) head.directives, V v) → P ancestors head ss) :
    ∀ (ss : List Selection) (ancestors : List Ancestor),
      (∀ v ∈ visitsOf c filename ancestors ss, V v) → EveryIn P ancestors ss
  | [], ancestors, _ => everyIn_nil ancestors
  | s :: ss, ancestors, h => by
    rw [visitsOf, List.forall_mem_append] at h
    rw [EveryIn]
    exact ⟨every_of_visits hP s _ h.1, everyIn_of_visits hP ss _ h.2⟩

end

end Fields

/-- What holds at all visits of a document holds of the fields in its definitions. -/
theorem everyIn_of_visits_document {c : Config} {d : Document} {V : Visit → Prop}
    {P : FieldProperty}
    (hP : ∀ ancestors head ss, (∀ v ∈ Visit.ofDirectives d.filename ancestors
      (some (head, ss ++ gains c ancestors head ss)) head.directives, V v) → P ancestors head ss)
    (h : ∀ v ∈ d.visits c, V v) : ∀ e ∈ d.executables, EveryIn P [e.ancestor] e.selections := by
  intro e he
  obtain ⟨definition, hmem, hof⟩ := List.mem_filterMap.mp he
  have hvisits : ∀ v ∈ definition.visits c d.filename, V v :=
    fun v hv => h v (List.mem_flatMap.mpr ⟨definition, hmem, hv⟩)
  cases definition with
  | operation o =>
    cases hof
    rw [Definition.visits, List.forall_mem_append, List.forall_mem_append] at hvisits
    exact everyIn_of_visits hP _ _ hvisits.2.2
  | fragment f =>
    cases hof
    rw [Definition.visits, List.forall_mem_append] at hvisits
    exact everyIn_of_visits hP _ _ hvisits.2
  | schema _ | type _ | directive _ => cases hof

/-! ## 3. What a visit finds -/

/-- The list that is made under a name, if the field is known. -/
def Tagging.listAt (c : Config) (filename : String) (ancestors : List Ancestor)
    (target : Option Target) (name : String) : Except Error (Option ListDefinition) :=
  match target with
  | none => .ok none
  | some (head, selections) =>
    match membersAt c.schema ancestors head.name selections with
    | .error e => .error e
    | .ok none => .ok none
    | .ok (some (f, m)) => (listDefinition name filename f m).map some

namespace Visit

/-- The field that the directive stands on with the type of what it holds, if both are known. -/
def field? (c : Config) (v : Visit) : Option (SchemaField × NamedType) := do
  let (head, _) ← v.target
  let f ← c.schema.fieldAt v.ancestors head.name
  let type ← c.schema.fieldType? f
  return (f, type)

/-- The arguments of the field are known where the pass asks for them: at list directives, and at
other directives that make lists. -/
def ArgumentsKnown (c : Config) (v : Visit) : Prop :=
  v.directive.name = c.listDirective ∨ (c.listName? v.directive).isSome = true →
    ∀ f type, v.field? c = some (f, type) → f.arguments.isSome = true

instance (c : Config) (v : Visit) : Decidable (v.ArgumentsKnown c) :=
  decidable_of_iff (v.directive.name = c.listDirective ∨ (c.listName? v.directive).isSome = true →
      (v.field? c).all (·.1.arguments.isSome) = true) <| by
    rw [ArgumentsKnown, Option.all_eq_true]
    exact forall_congr' fun _ => ⟨fun h f type hf => h (f, type) hf, fun h row hrow => h _ _ hrow⟩

/-- What is wrong with the name that the directive gives, where lists have some names. -/
def fault? (c : Config) (names : List String) (v : Visit) : Option NamingFault :=
  if c.Tags v.directive then
    match argument? v.directive.arguments "name" with
    | none => if v.directive.name = c.listDirective then some .missing else none
    | some argument =>
      match argument.value with
      | .string name _ => if name ∈ names then some .repeated else none
      | _ => some .notText
  else none

/-- The report of a fault. -/
def report (v : Visit) (fault : NamingFault) : DocumentError :=
  { fault, directive := v.directive.name, filename := v.filename, origin := v.directive.origin }

/-- The fault as it is noted. -/
def error? (c : Config) (names : List String) (v : Visit) : Option DocumentError :=
  (v.fault? c names).map v.report

/-- The list that is registered. -/
def list? (c : Config) (v : Visit) : Option ListDefinition :=
  (c.listName? v.directive).bind fun name =>
    (listAt c v.filename v.ancestors v.target name).toOption.join

end Visit

/-- The registry after some visits. -/
def registryAfter (c : Config) (r : Registry) (visits : List Visit) : Registry :=
  (visits.filterMap (·.list? c)).foldl Registry.register r

/-- The faults that are noted at some visits. -/
def faultsAfter (c : Config) (r : Registry) : List Visit → List DocumentError
  | [] => []
  | v :: visits =>
    (v.error? c (Table.keys r)).toList ++ faultsAfter c (registryAfter c r [v]) visits

/-- The state after some visits. -/
def TagState.after (c : Config) (st : TagState) (visits : List Visit) (changed : Bool) :
    TagState where
  registry := registryAfter c st.registry visits
  errors := st.errors ++ faultsAfter c st.registry visits
  changed := st.changed || changed

section After

variable {c : Config}

/-- The name of a list is at fault when it has come before. -/
theorem fault?_of_name {v : Visit} {name : String} (h : c.listName? v.directive = some name)
    (names : List String) :
    v.fault? c names = if name ∈ names then some .repeated else none := by
  unfold Config.listName? at h
  rw [Visit.fault?]
  split at h
  · rename_i htag
    rw [if_pos htag]
    split at h
    · rename_i ha
      obtain rfl := Option.some.inj h
      rw [ha]
    · exact absurd h nofun
  · exact absurd h nofun

/-- Without a name of a list, other names do not matter. -/
theorem fault?_of_no_name {v : Visit} (h : c.listName? v.directive = none) (names : List String) :
    v.fault? c names = v.fault? c [] := by
  unfold Config.listName? at h
  rw [Visit.fault?, Visit.fault?]
  split at h
  · rename_i htag
    rw [if_pos htag, if_pos htag]
    split at h
    · exact absurd h nofun
    · rename_i hother
      cases ha : argument? v.directive.arguments "name" with
      | none => rfl
      | some argument =>
        obtain ⟨key, value⟩ := argument
        cases value with
        | string name block => exact absurd ha (hother _ _ _)
        | _ => rfl
  · rename_i htag
    rw [if_neg htag, if_neg htag]

theorem registryAfter_append (r : Registry) (visits others : List Visit) :
    registryAfter c r (visits ++ others) = registryAfter c (registryAfter c r visits) others := by
  rw [registryAfter, List.filterMap_append, List.foldl_append]
  rfl

/-- A visit adds one name at most. -/
theorem keys_registryAfter (r : Registry) (v : Visit) :
    Table.keys (registryAfter c r [v])
      = ((v.list? c).map (·.name)).elim (Table.keys r) fun name =>
        if name ∈ Table.keys r then Table.keys r else Table.keys r ++ [name] := by
  rw [registryAfter]
  cases hl : v.list? c with
  | none =>
    rw [List.filterMap_cons_none hl]
    rfl
  | some l =>
    rw [List.filterMap_cons_some hl]
    exact Table.keys_insert r l.name l

theorem faultsAfter_append : ∀ (r : Registry) (visits others : List Visit),
    faultsAfter c r (visits ++ others)
      = faultsAfter c r visits ++ faultsAfter c (registryAfter c r visits) others
  | _, [], _ => rfl
  | r, v :: visits, others => by
    rw [List.cons_append, faultsAfter, faultsAfter, faultsAfter_append _ visits others,
      ← registryAfter_append, List.append_assoc]
    rfl

theorem TagState.after_nil (st : TagState) : st.after c [] false = st := by
  rw [TagState.after, faultsAfter, List.append_nil, Bool.or_false]
  rfl

theorem TagState.after_after (st : TagState) (visits others : List Visit)
    (changed changed' : Bool) :
    (st.after c visits changed).after c others changed'
      = st.after c (visits ++ others) (changed || changed') := by
  simp only [TagState.after, registryAfter_append, faultsAfter_append, List.append_assoc,
    Bool.or_assoc]

end After

/-! ## 4. Lists -/

variable {c : Config}

namespace Tagging

theorem argumentTypes_eq {f : SchemaField} {arguments : Table String TypeRef}
    (h : f.arguments = some arguments) :
    argumentTypes f = .ok (arguments.map fun row => (row.1, row.2.base)) := by
  rw [argumentTypes, h]

/-- The members of a field with known arguments can be told. -/
theorem exists_members {s : Schema} {f : SchemaField} (h : f.arguments.isSome = true)
    (type : NamedType) (ss : List Selection) : ∃ m, members s f type ss = .ok m := by
  obtain ⟨arguments, harguments⟩ := Option.isSome_iff_exists.mp h
  simp only [members, argumentTypes_eq harguments, bind, Except.bind]
  split
  · exact ⟨_, rfl⟩
  · split <;> exact ⟨_, rfl⟩

/-- **A list is made of every field** that is known with its arguments, and of no other one. -/
theorem exists_listAt {v : Visit}
    (hknown : ∀ f type, v.field? c = some (f, type) → f.arguments.isSome = true) (name : String) :
    ∃ found, listAt c v.filename v.ancestors v.target name = .ok found ∧
      found.isSome = (v.field? c).isSome := by
  obtain ⟨filename, ancestors, target, d⟩ := v
  unfold listAt Visit.field? at *
  cases target with
  | none => exact ⟨none, rfl, rfl⟩
  | some target =>
    obtain ⟨head, ss⟩ := target
    dsimp only [membersAt, Option.bind_eq_bind, Option.bind_some] at hknown ⊢
    cases hf : c.schema.fieldAt ancestors head.name with
    | none => exact ⟨none, rfl, rfl⟩
    | some f =>
      rw [hf] at hknown
      dsimp only [Option.bind_some] at hknown ⊢
      cases ht : c.schema.fieldType? f with
      | none => exact ⟨none, rfl, rfl⟩
      | some type =>
        rw [ht] at hknown
        have hf' : f.arguments.isSome = true := hknown f type rfl
        obtain ⟨m, hm⟩ := exists_members (s := c.schema) hf' type ss
        obtain ⟨arguments, harguments⟩ := Option.isSome_iff_exists.mp hf'
        simp only [hm, listDefinition, argumentTypes_eq harguments, bind, Except.bind, pure,
          Except.pure, Except.map]
        exact ⟨_, rfl, rfl⟩

/-- **What a list is made of**: the members of the field that the directive stands on. -/
theorem listAt_eq_some {filename name : String} {ancestors : List Ancestor}
    {target : Option Target} {l : ListDefinition}
    (h : listAt c filename ancestors target name = .ok (some l)) :
    ∃ head ss f m, target = some (head, ss) ∧
      membersAt c.schema ancestors head.name ss = .ok (some (f, m)) ∧
        l.name = name ∧ l.selections = m.selections ∧ l.type = some m.type ∧
          l.connection = m.connection := by
  unfold listAt at h
  split at h
  · exact absurd (Except.ok.inj h) nofun
  · rename_i head ss
    split at h
    · exact absurd h nofun
    · exact absurd (Except.ok.inj h) nofun
    · rename_i f m hm
      obtain ⟨l', hl', hl⟩ := map_eq_ok.mp h
      obtain rfl := Option.some.inj hl
      simp only [listDefinition, bind_eq_ok, pure_eq_ok] at hl'
      obtain ⟨arguments, -, rfl⟩ := hl'
      exact ⟨head, ss, f, m, rfl, hm, rfl, rfl, rfl, rfl⟩

end Tagging

/-- A list that is registered is made under the name that the directive gives. -/
theorem listAt_of_list? {v : Visit} {l : ListDefinition} (h : v.list? c = some l) :
    ∃ name, c.listName? v.directive = some name ∧
      listAt c v.filename v.ancestors v.target name = .ok (some l) := by
  obtain ⟨name, hname, hlisted⟩ := Option.bind_eq_some_iff.mp h
  refine ⟨name, hname, ?_⟩
  cases hfound : listAt c v.filename v.ancestors v.target name with
  | error e =>
    rw [hfound] at hlisted
    exact absurd hlisted nofun
  | ok found =>
    rw [hfound] at hlisted
    exact congrArg Except.ok hlisted

/-- It has members of a type that is known. -/
theorem of_list? {v : Visit} {l : ListDefinition} (h : v.list? c = some l) :
    c.listName? v.directive = some l.name ∧ l.type.isSome = true := by
  obtain ⟨name, hname, hlist⟩ := listAt_of_list? h
  obtain ⟨-, -, -, m, -, -, rfl, -, htype, -⟩ := listAt_eq_some hlist
  exact ⟨hname, by rw [htype]; rfl⟩

end QueryCompiler
