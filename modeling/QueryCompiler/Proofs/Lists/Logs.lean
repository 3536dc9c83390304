import QueryCompiler.Proofs.Lists.Generated
import QueryCompiler.Proofs.Lists.Visits
/-
# Passes that log what they meet

From every state, a pass of the list transform comes to the state after the directives that it has
met (`Logs`).  It meets all of them, in the order of the text, unless it fails; and it only fails
where it asks for arguments that are not known.

* `logs_definition`: a pass over a definition;
* `tagDocument_logs`: what is found in a document;
* `addListFragments_of_known`: what the list pass comes to where all arguments are known.
-/
namespace QueryCompiler

open Tagging

/-! ## 1. Passes that log their visits -/

namespace Tagging

variable {α β : Type} {c : Config} {m : Tagging α} {visits others : List Visit}

/-- The pass meets some directives, and from every state it comes to the state after them.  It meets
all of them unless it fails, which it does not where arguments are known. -/
def Logs (c : Config) (m : Tagging α) (visits : List Visit) : Prop :=
  ∃ (result : Except Error α) (met : List Visit) (changed : Bool),
    met <+: visits ∧ (result.isOk = true → met = visits) ∧
      ((∀ v ∈ visits, v.ArgumentsKnown c) → result.isOk = true) ∧
        ∀ st : TagState, m.run.run st = (result, st.after c met changed)

namespace Logs

theorem pure (a : α) : Logs c (pure a) [] :=
  ⟨.ok a, [], false, List.prefix_rfl, fun _ => rfl, fun _ => rfl, fun st => by
    rw [TagState.after_nil]
    rfl⟩

/-- Of two passes one after the other, the second one only comes to its visits if the first one has
come through. -/
theorem bind {f : α → Tagging β} (hm : Logs c m visits) (hf : ∀ a, Logs c (f a) others) :
    Logs c (m >>= f) (visits ++ others) := by
  obtain ⟨result, met, changed, hmet, hall, hknown, hrun⟩ := hm
  cases result with
  | error e =>
    -- the second pass is not begun
    refine ⟨.error e, met, changed, hmet.trans (List.prefix_append _ _), nofun, fun h => ?_,
      fun st => ?_⟩
    · exact absurd (hknown fun v hv => h v (List.mem_append_left _ hv)) Bool.false_ne_true
    · rw [run_bind, hrun]
  | ok a =>
    obtain rfl := hall rfl
    obtain ⟨result, met', changed', hmet', hall', hknown', hrun'⟩ := hf a
    refine ⟨result, met ++ met', changed || changed', (List.prefix_append_right_inj _).mpr hmet',
      fun hok => congrArg _ (hall' hok), fun h => ?_, fun st => ?_⟩
    · exact hknown' fun v hv => h v (List.mem_append_right _ hv)
    · rw [run_bind, hrun]
      dsimp only
      rw [hrun', TagState.after_after]

theorem map (hm : Logs c m visits) (f : α → β) :
    Logs c (m >>= fun a => Pure.pure (f a)) visits := by
  rw [← List.append_nil visits]
  exact hm.bind fun a => .pure (f a)

theorem fmap (hm : Logs c m visits) (f : α → β) : Logs c (f <$> m) visits := by
  rw [map_eq_pure_bind]
  exact hm.map f

theorem mapM {f : α → Tagging β} {visits : α → List Visit} (hf : ∀ a, Logs c (f a) (visits a)) :
    ∀ as : List α, Logs c (as.mapM f) (as.flatMap visits)
  | [] => by
    rw [List.mapM_nil]
    exact .pure []
  | a :: as => by
    rw [List.mapM_cons, List.flatMap_cons]
    exact (hf a).bind fun b => (mapM hf as).map (b :: ·)

/-- A pass that meets one directive. -/
theorem one {v : Visit} (result : Except Error α) (changed : Bool)
    (hknown : v.ArgumentsKnown c → result.isOk = true)
    (hm : ∀ st : TagState, m.run.run st = (result,
      { registry := (v.list? c).toList.foldl Registry.register st.registry
        errors := st.errors ++ (v.error? c (Table.keys st.registry)).toList
        changed := st.changed || changed })) : Logs c m [v] := by
  refine ⟨result, [v], changed, List.prefix_rfl, fun _ => rfl,
    fun h => hknown (h v (List.mem_singleton_self v)), fun st => ?_⟩
  have hregistry : registryAfter c st.registry [v]
      = (v.list? c).toList.foldl Registry.register st.registry := by
    rw [registryAfter, List.filterMap_eq_flatMap_toList, List.flatMap_singleton]
  rw [hm, TagState.after, hregistry, faultsAfter, faultsAfter, List.append_nil]

/-- A pass that finds nothing comes first. -/
theorem after_change {a : α} {changed : Bool} {f : α → Tagging β}
    (hm : ∀ st : TagState, m.run.run st = (.ok a, { st with changed := st.changed || changed }))
    (hf : Logs c (f a) visits) : Logs c (m >>= f) visits := by
  obtain ⟨result, met, changed', hmet, hall, hknown, hrun⟩ := hf
  refine ⟨result, met, changed || changed', hmet, hall, hknown, fun st => ?_⟩
  rw [run_bind, hm]
  dsimp only
  rw [hrun, TagState.after, TagState.after, Bool.or_assoc]

/-- A pass that fails at once. -/
theorem of_error {e : Error} (hm : ∀ st : TagState, m.run.run st = (.error e, st))
    (hvisits : ¬ ∀ v ∈ visits, v.ArgumentsKnown c) : Logs c m visits :=
  ⟨.error e, [], false, List.nil_prefix, nofun, fun h => absurd h hvisits, fun st => by
    rw [hm, TagState.after_nil]⟩

end Logs

/-! ## 2. Directives -/

/-- **What registering does** is told by the list that is made. -/
theorem run_register (filename : String) (ancestors : List Ancestor) (target : Option Target)
    (name : String) (d : Directive) (st : TagState) :
    (register c filename ancestors target name d).run.run st
      = let listed := listAt c filename ancestors target name
        (listed.map fun l => d.mark (l.any (·.connection)),
          { st with
            registry := listed.toOption.join.toList.foldl Registry.register st.registry
            changed := st.changed || listed.toOption.join.any (·.connection) }) := by
  have hnothing (result : Except Error Directive) :
      (result, st) = (result, { st with changed := st.changed || false }) := by
    rw [Bool.or_false]
  unfold register listAt
  cases target with
  | none => exact hnothing _
  | some target =>
    dsimp only
    rw [run_bind]
    cases membersAt c.schema ancestors target.1.name target.2 with
    | error e => exact hnothing _
    | ok found =>
      cases found with
      | none => exact hnothing _
      | some row =>
        obtain ⟨f, m⟩ := row
        change (liftM (listDefinition name filename f m) >>= _ : Tagging Directive).run.run st = _
        rw [run_bind]
        simp only [listDefinition]
        cases argumentTypes f with
        | error e => exact hnothing _
        | ok arguments => rfl

/-- What enlisting does: a repeated name is noted before its field is looked at. -/
theorem run_enlist (filename : String) (ancestors : List Ancestor) (target : Option Target)
    (name : String) (d : Directive) (st : TagState) :
    (enlist c filename ancestors target name d).run.run st
      = (register c filename ancestors target name d).run.run
          { st with errors := st.errors ++ if name ∈ Table.keys st.registry then
              [⟨.repeated, d.name, filename, d.origin⟩] else [] } := by
  unfold enlist
  rw [run_bind]
  change (if Table.contains st.registry name = true then _ else _ : Tagging Directive).run.run st
    = _
  by_cases hin : name ∈ Table.keys st.registry
  · rw [if_pos ((Table.contains_iff _ _).mpr hin), if_pos hin]
    rfl
  · rw [if_neg (mt (Table.contains_iff _ _).mp hin), if_neg hin, List.append_nil]

/-- A directive that names a list. -/
theorem logs_enlist {v : Visit} {name : String} (hname : c.listName? v.directive = some name) :
    Logs c (enlist c v.filename v.ancestors v.target name v.directive) [v] := by
  have hlist : v.list? c = (listAt c v.filename v.ancestors v.target name).toOption.join := by
    rw [Visit.list?, hname, Option.bind_some]
  refine .one ((listAt c v.filename v.ancestors v.target name).map fun l =>
    v.directive.mark (l.any (·.connection))) ((v.list? c).any (·.connection)) (fun h => ?_)
    fun st => ?_
  · obtain ⟨found, hfound, -⟩ := exists_listAt (h (.inr (by rw [hname]; rfl))) name
    rw [hfound]
    rfl
  · have herror : (v.error? c (Table.keys st.registry)).toList
        = if name ∈ Table.keys st.registry then [v.report .repeated] else [] := by
      rw [Visit.error?, fault?_of_name hname]
      split <;> rfl
    rw [run_enlist, run_register, hlist, herror]
    rfl

/-- What the pass says of a directive that names no list is said at once. -/
theorem logs_complain {v : Visit} {fault : NamingFault} (hname : c.listName? v.directive = none)
    (hfault : ∀ names, v.fault? c names = some fault) :
    Logs c (complain v.filename v.directive fault >>= fun _ => Pure.pure v.directive) [v] := by
  refine .one (.ok v.directive) false (fun _ => rfl) fun st => ?_
  rw [Visit.list?, hname, Visit.error?, hfault, Bool.or_false]
  rfl

theorem logs_quiet {v : Visit} (hname : c.listName? v.directive = none)
    (hfault : ∀ names, v.fault? c names = none) :
    Logs c (Pure.pure v.directive) [v] := by
  refine .one (.ok v.directive) false (fun _ => rfl) fun st => ?_
  rw [Visit.list?, hname, Visit.error?, hfault, Bool.or_false, Option.map_none, Option.toList_none,
    List.append_nil]
  rfl

/-- **A directive** is visited. -/
theorem logs_directive (v : Visit) :
    Logs c (directive c v.filename v.ancestors v.target v.directive) [v] := by
  unfold directive
  by_cases htag : c.Tags v.directive
  · rw [if_pos htag]
    cases ha : argument? v.directive.arguments "name" with
    | none =>
      have hname := listName?_of_no_name (c := c) ha
      have hfault (names : List String) : v.fault? c names
          = if v.directive.name = c.listDirective then some .missing else none := by
        rw [Visit.fault?, if_pos htag, ha]
      dsimp only
      by_cases hlist : v.directive.name = c.listDirective
      · rw [if_pos hlist]
        exact logs_complain hname fun names => (hfault names).trans (if_pos hlist)
      · rw [if_neg hlist]
        exact logs_quiet hname fun names => (hfault names).trans (if_neg hlist)
    | some argument =>
      obtain ⟨key, value⟩ := argument
      cases value with
      | string name block =>
        refine logs_enlist ?_
        rw [Config.listName?, if_pos htag, ha]
      | _ =>
        refine logs_complain ?_ fun names => ?_
        · rw [Config.listName?, if_pos htag, ha]
        · rw [Visit.fault?, if_pos htag, ha]
  · rw [if_neg htag]
    refine logs_quiet ?_ fun names => ?_
    · rw [Config.listName?, if_neg htag]
    · rw [Visit.fault?, if_neg htag]

theorem logs_mapM_directive (filename : String) (ancestors : List Ancestor)
    (target : Option Target) (ds : List Directive) :
    Logs c (ds.mapM (directive c filename ancestors target))
      (Visit.ofDirectives filename ancestors target ds) := by
  rw [Visit.ofDirectives, List.map_eq_flatMap]
  exact .mapM (fun d => logs_directive ⟨filename, ancestors, target, d⟩) ds

theorem logs_directives (filename : String) (ds : List Directive) :
    Logs c (directives c filename ds) (Visit.elsewhere filename [ds]) := by
  rw [Visit.elsewhere, List.flatMap_singleton]
  exact logs_mapM_directive filename [] none ds

/-! ## 3. Selections -/

/-- A field gains what it gains from everywhere, or nothing can be said of its members. -/
theorem run_gained (ancestors : List Ancestor) (head : FieldHead) (ss : List Selection) :
    (∃ changed, ∀ st : TagState, (gained c ancestors head ss).run.run st
        = (.ok (gains c ancestors head ss), { st with changed := st.changed || changed })) ∨
      hasDirective head.directives c.listDirective = true ∧
        ∃ e, membersAt c.schema ancestors head.name ss = .error e ∧
          ∀ st : TagState, (gained c ancestors head ss).run.run st = (.error e, st) := by
  have hnothing (result : Except Error (List Selection)) (st : TagState) :
      (result, st) = (result, { st with changed := st.changed || false }) := by
    rw [Bool.or_false]
  unfold gained gains connected
  by_cases hlist : hasDirective head.directives c.listDirective = true
  · rw [if_pos hlist, hlist, Bool.true_and]
    cases hm : membersAt c.schema ancestors head.name ss with
    | error e => exact .inr ⟨rfl, e, rfl, fun st => rfl⟩
    | ok found =>
      refine .inl ?_
      cases found with
      | none => exact ⟨false, hnothing _⟩
      | some row =>
        obtain ⟨f, m⟩ := row
        refine ⟨m.connection, fun st => ?_⟩
        rw [run_bind]
        change (if m.connection = true then _ else _ : Tagging (List Selection)).run.run st = _
        dsimp only
        by_cases hc : m.connection = true
        · rw [if_pos hc, if_pos hc, hc, Bool.or_true]
          rfl
        · rw [if_neg hc, if_neg hc, Bool.eq_false_iff.mpr hc]
          exact hnothing _ st
  · rw [if_neg hlist, Bool.eq_false_iff.mpr hlist]
    exact .inl ⟨false, hnothing _⟩

theorem exists_hasDirective {ds : List Directive} {name : String}
    (h : hasDirective ds name = true) : ∃ d ∈ ds, d.name = name := by
  obtain ⟨d, hd⟩ := Option.isSome_iff_exists.mp h
  exact ⟨d, List.mem_of_find?_eq_some hd, by simpa using List.find?_some hd⟩

/-- The members of a field with a list directive are known, if its arguments are. -/
theorem membersAt_ne_error {filename : String} {ancestors : List Ancestor} {head : FieldHead}
    {ss : List Selection} (hlist : hasDirective head.directives c.listDirective = true)
    (hknown : ∀ v ∈ Visit.ofDirectives filename ancestors
      (some (head, ss ++ gains c ancestors head ss)) head.directives, v.ArgumentsKnown c)
    (e : Error) : membersAt c.schema ancestors head.name ss ≠ .error e := by
  obtain ⟨d, hd, hname⟩ := exists_hasDirective hlist
  intro he
  have hfield := hknown _ (List.mem_map_of_mem hd) (.inl hname)
  obtain ⟨found, hfound, -⟩ := exists_listAt (v := ⟨filename, ancestors, some (head, ss), d⟩)
    hfield ""
  rw [listAt, he] at hfound
  exact absurd hfound nofun

mutual

theorem logs_selection (filename : String) : ∀ (s : Selection) (ancestors : List Ancestor),
    Logs c (selection c filename ancestors s) (s.visits c filename ancestors)
  | .field head ss, ancestors => by
    rw [selection, Selection.visits]
    rcases @run_gained c ancestors head ss with ⟨changed, hrun⟩ | ⟨hlist, e, he, hrun⟩
    · refine .after_change hrun ?_
      exact (logs_mapM_directive filename ancestors _ _).bind fun ds =>
        (logs_selections filename ss _).map _
    · -- the field is looked at before its directives, so none of them is met
      refine .of_error (fun st => by rw [run_bind, hrun]) fun hknown => ?_
      exact membersAt_ne_error hlist (fun v hv => hknown v (List.mem_append_left _ hv)) e he
  | .spread name ds, ancestors => by
    rw [selection, Selection.visits]
    exact (logs_directives filename ds).map _
  | .inline condition ds ss, ancestors => by
    rw [selection, Selection.visits]
    exact (logs_directives filename ds).bind fun ds => (logs_selections filename ss _).map _

theorem logs_selections (filename : String) : ∀ (ss : List Selection) (ancestors : List Ancestor),
    Logs c (selections c filename ancestors ss) (visitsOf c filename ancestors ss)
  | [], ancestors => by
    rw [selections]
    exact .pure []
  | s :: ss, ancestors => by
    rw [selections, visitsOf]
    exact (logs_selection filename s ancestors).bind fun s =>
      (logs_selections filename ss ancestors).map _

end

/-! ## 4. Definitions -/

section Definitions

variable (filename : String)

theorem elsewhere_append (lists others : List (List Directive)) :
    Visit.elsewhere filename (lists ++ others)
      = Visit.elsewhere filename lists ++ Visit.elsewhere filename others := List.flatMap_append

theorem elsewhere_flatMap {α : Type} (as : List α) (lists : α → List (List Directive)) :
    Visit.elsewhere filename (as.flatMap lists)
      = as.flatMap fun a => Visit.elsewhere filename (lists a) := List.flatMap_assoc

/-- Things with one list of directives each. -/
theorem logs_mapM_directives {f : α → Tagging β} {directives : α → List Directive}
    (hf : ∀ a, Logs c (f a) (Visit.elsewhere filename [directives a])) (as : List α) :
    Logs c (as.mapM f) (Visit.elsewhere filename (as.map directives)) := by
  rw [List.map_eq_flatMap, elsewhere_flatMap]
  exact .mapM hf as

theorem logs_inputValues (vs : List InputValueDefinition) :
    Logs c (vs.mapM (·.traverseDirectives (directives c filename)))
      (Visit.elsewhere filename (vs.map (·.directives))) := by
  refine logs_mapM_directives filename (fun v => ?_) vs
  exact (logs_directives filename v.directives).map _

theorem logs_fieldDefinitions (ds : List FieldDefinition) :
    Logs c (ds.mapM (·.traverseDirectives (directives c filename)))
      (Visit.elsewhere filename (ds.flatMap (·.directiveLists))) := by
  rw [elsewhere_flatMap]
  refine .mapM (fun d => ?_) ds
  rw [FieldDefinition.directiveLists, elsewhere_append]
  exact (logs_inputValues filename d.arguments).bind fun _ =>
    (logs_directives filename d.directives).map _

theorem logs_typeBody : ∀ b : TypeBody, Logs c (b.traverseDirectives (directives c filename))
    (Visit.elsewhere filename b.directiveLists)
  | .scalar => .pure _
  | .union _ => .pure _
  | .object _ fields => (logs_fieldDefinitions filename fields).map _
  | .interface _ fields => (logs_fieldDefinitions filename fields).map _
  | .inputObject fields => (logs_inputValues filename fields).map _
  | .enumeration values => by
    refine Logs.map (logs_mapM_directives filename (fun v => ?_) values) _
    exact (logs_directives filename v.directives).map _

/-- **A definition** is gone through directive by directive. -/
theorem logs_definition (d : Definition) :
    Logs c (definition c filename d) (d.visits c filename) := by
  cases d with
  | operation o =>
    refine (logs_mapM_directives filename (fun v => ?_) o.declarations).bind fun _ => ?_
    · exact (logs_directives filename v.directives).map _
    · exact (logs_directives filename o.directives).bind fun _ =>
        (logs_selections filename o.selections _).map _
  | fragment f =>
    exact (logs_directives filename f.directives).bind fun _ =>
      (logs_selections filename f.selections _).map _
  | schema s => exact ((logs_directives filename s.directives).map _).fmap _
  | type t =>
    have hlists : (Definition.type t).visits c filename
        = Visit.elsewhere filename [t.directives]
          ++ Visit.elsewhere filename t.body.directiveLists :=
      elsewhere_append filename [t.directives] _
    rw [hlists]
    exact ((logs_directives filename t.directives).bind fun _ =>
      (logs_typeBody filename t.body).map _).fmap _
  | directive d => exact ((logs_inputValues filename d.arguments).map _).fmap _

end Definitions

end Tagging

/-! ## 5. Documents -/

variable {c : Config}

/-- The state of a pass that has found nothing. -/
def TagState.start : TagState := { registry := [], errors := [], changed := false }

namespace Document

/-- What the pass makes of a document on its own. -/
def tagged (c : Config) (d : Document) : Except Error Document := (tagDocument c .start d).1

/-- The arguments of fields are known wherever the pass asks for them in a document. -/
def ArgumentsKnown (c : Config) (d : Document) : Prop := ∀ v ∈ d.visits c, v.ArgumentsKnown c

end Document

/-- **What is found in a document**: what the visits find that the pass comes to.  The document
itself becomes what it becomes on its own. -/
theorem tagDocument_logs (d : Document) :
    ∃ (met : List Visit) (changed : Bool), met <+: d.visits c ∧
      ((d.tagged c).isOk = true → met = d.visits c) ∧
        (d.ArgumentsKnown c → (d.tagged c).isOk = true) ∧
          ∀ st : TagState, tagDocument c st d = (d.tagged c,
            { registry := registryAfter c st.registry met
              errors := st.errors ++ faultsAfter c st.registry met
              changed }) := by
  have hlogs : Logs c (d.definitions.mapM (definition c d.filename)) (d.visits c) :=
    .mapM (fun definition => logs_definition d.filename definition) _
  obtain ⟨result, met, changed, hmet, hall, hknown, hrun⟩ := hlogs
  have htag (st : TagState) : tagDocument c st d
      = (result.map fun ds => if changed then d.withDefinitions ds else d,
        { registry := registryAfter c st.registry met
          errors := st.errors ++ faultsAfter c st.registry met
          changed }) := by
    rw [tagDocument, hrun { st with changed := false }]
    cases result <;> rfl
  have htagged : d.tagged c = result.map fun ds => if changed then d.withDefinitions ds else d := by
    rw [Document.tagged, htag]
  have hok : (d.tagged c).isOk = result.isOk := by
    rw [htagged]
    cases result <;> rfl
  rw [hok]
  refine ⟨met, changed, hmet, hall, hknown, fun st => ?_⟩
  rw [htag, htagged]

/-- **What is found in documents** with known arguments is what all their visits find. -/
theorem tagDocuments_logs : ∀ {documents : List Document}, (∀ d ∈ documents, d.ArgumentsKnown c) →
    ∃ visited, documents.mapM (·.tagged c) = .ok visited ∧ ∀ st : TagState,
      ∃ changed, tagDocuments c st documents = (visited,
        { registry := registryAfter c st.registry (documents.flatMap (·.visits c))
          errors := st.errors ++ faultsAfter c st.registry (documents.flatMap (·.visits c))
          changed }, .ok ())
  | [], _ => ⟨[], rfl, fun st => ⟨st.changed, by
      rw [List.flatMap_nil, faultsAfter, List.append_nil]
      rfl⟩⟩
  | d :: documents, h => by
    obtain ⟨hd, hds⟩ := List.forall_mem_cons.mp h
    obtain ⟨met, changed, -, hall, hknown, htag⟩ := tagDocument_logs (c := c) d
    obtain ⟨visited, hvisited, hrest⟩ := tagDocuments_logs hds
    cases hresult : d.tagged c with
    | error e => exact absurd (hknown hd) (by rw [hresult]; exact Bool.false_ne_true)
    | ok d' =>
      rw [hresult] at htag
      obtain rfl := hall (by rw [hresult]; rfl)
      refine ⟨d' :: visited, ?_, fun st => ?_⟩
      · rw [List.mapM_cons, hresult, hvisited]
        rfl
      · have hfirst := htag st
        obtain ⟨changed', hst⟩ := hrest (tagDocument c st d).2
        rw [hfirst] at hst
        refine ⟨changed', ?_⟩
        rw [tagDocuments, hfirst]
        dsimp only
        rw [hst, List.flatMap_cons, registryAfter_append, faultsAfter_append, List.append_assoc]

/-- **A run over documents** that comes to its end has made of each document what it is made of on
its own, and registered and noted what all visits find. -/
theorem tagDocuments_run : ∀ {documents tagged : List Document} {st st' : TagState},
    tagDocuments c st documents = (tagged, st', .ok ()) →
      documents.mapM (·.tagged c) = .ok tagged ∧
        st'.registry = registryAfter c st.registry (documents.flatMap (·.visits c)) ∧
        st'.errors = st.errors ++ faultsAfter c st.registry (documents.flatMap (·.visits c))
  | [], tagged, st, st', h => by
    obtain ⟨rfl, hst⟩ := Prod.mk.inj h
    obtain ⟨rfl, -⟩ := Prod.mk.inj hst
    exact ⟨rfl, rfl, (List.append_nil _).symm⟩
  | d :: documents, tagged, st, st', h => by
    obtain ⟨met, changed, -, hall, -, htag⟩ := tagDocument_logs (c := c) d
    rw [tagDocuments, htag] at h
    cases hfirst : d.tagged c with
    | error e =>
      rw [hfirst] at h
      exact absurd (Prod.mk.inj (Prod.mk.inj h).2).2 error_ne_ok
    | ok d' =>
      obtain rfl := hall (by rw [hfirst]; rfl)
      rw [hfirst] at h
      dsimp only at h
      rcases hrest : tagDocuments c _ documents with ⟨rest, st₁, result⟩
      rw [hrest] at h
      obtain ⟨rfl, hst⟩ := Prod.mk.inj h
      obtain ⟨rfl, rfl⟩ := Prod.mk.inj hst
      obtain ⟨hvisited, hregistry, herrors⟩ := tagDocuments_run hrest
      refine ⟨?_, ?_, ?_⟩
      · rw [List.mapM_cons, hfirst, hvisited]
        rfl
      · rw [hregistry, List.flatMap_cons, registryAfter_append]
      · rw [herrors, List.flatMap_cons, faultsAfter_append, List.append_assoc]

/-- The faults that are found in documents. -/
def faultsOf (c : Config) (documents : List Document) : List DocumentError :=
  faultsAfter c [] (documents.flatMap (·.visits c))

/-- **What the list pass comes to** where arguments are known: it visits all documents, and only
then looks at its faults and at the registry. -/
theorem addListFragments_of_known {documents : List Document}
    (h : ∀ d ∈ documents, d.ArgumentsKnown c) :
    ∃ visited, documents.mapM (·.tagged c) = .ok visited ∧
      (addListFragments c [] documents).documents
        = visited ++ (addListFragments c [] documents).result.toOption.getD [] ∧
      (addListFragments c [] documents).registry
        = registryAfter c [] (documents.flatMap (·.visits c)) ∧
      (addListFragments c [] documents).result
        = if faultsOf c documents = [] then
            generatedDocuments c (registryAfter c [] (documents.flatMap (·.visits c)))
          else .error (.naming (faultsOf c documents)) := by
  obtain ⟨visited, hvisited, htag⟩ := tagDocuments_logs h
  obtain ⟨changed, htag⟩ := htag .start
  obtain ⟨hresult, hregistry, hdocuments⟩ := addListFragments_eq htag
  exact ⟨visited, hvisited, hdocuments, hregistry, hresult⟩

end QueryCompiler
