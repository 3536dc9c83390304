import Mathlib.Data.List.Flatten
import Mathlib.Data.List.Perm.Basic
import Mathlib.Data.List.Perm.Subperm
import QueryCompiler.Proofs.Lists.Marks
import QueryCompiler.Proofs.Trace
/-
# The names that directives give to lists

A directive names its list wherever it stands, also where it makes none.  The names of a document
are read off all lists of directives in it (`Definition.directiveLists`).

Pagination gives no new names: the page information has no directives, what is declared about
pages is never called `name`, and of two declarations of one variable one goes away.

* `listNames_pagedDocuments`: the names before and after pagination.
-/
namespace QueryCompiler

/-! ## 1. Lists of directives -/

mutual

/-- All lists of directives in a selection, from the outside in and from the front to the back. -/
def Selection.directiveLists : Selection → List (List Directive)
  | .field head selections => head.directives :: directiveListsOf selections
  | .spread _ directives => [directives]
  | .inline _ directives selections => directives :: directiveListsOf selections

def directiveListsOf : List Selection → List (List Directive)
  | [] => []
  | s :: selections => s.directiveLists ++ directiveListsOf selections

end

def FieldDefinition.directiveLists (f : FieldDefinition) : List (List Directive) :=
  f.arguments.map (·.directives) ++ [f.directives]

def TypeBody.directiveLists : TypeBody → List (List Directive)
  | .scalar => []
  | .object _ fields => fields.flatMap (·.directiveLists)
  | .interface _ fields => fields.flatMap (·.directiveLists)
  | .union _ => []
  | .enumeration values => values.map (·.directives)
  | .inputObject fields => fields.map (·.directives)

/-- All lists of directives in a definition. -/
def Definition.directiveLists : Definition → List (List Directive)
  | .operation o => o.declarations.map (·.directives) ++ o.directives :: directiveListsOf o.selections
  | .fragment f => f.directives :: directiveListsOf f.selections
  | .schema s => [s.directives]
  | .type t => t.directives :: t.body.directiveLists
  | .directive d => d.arguments.map (·.directives)

section MapDirectives

variable (f : List Directive → List Directive)

mutual

theorem directiveLists_mapDirectives : ∀ s : Selection,
    (s.mapDirectives f).directiveLists = s.directiveLists.map f
  | .field head selections => by
    rw [Selection.mapDirectives, Selection.directiveLists, Selection.directiveLists,
      directiveListsOf_mapAllDirectives selections, List.map_cons]
  | .spread _ _ => rfl
  | .inline _ _ selections => by
    rw [Selection.mapDirectives, Selection.directiveLists, Selection.directiveLists,
      directiveListsOf_mapAllDirectives selections, List.map_cons]

theorem directiveListsOf_mapAllDirectives : ∀ ss : List Selection,
    directiveListsOf (Selection.mapAllDirectives f ss) = (directiveListsOf ss).map f
  | [] => rfl
  | s :: ss => by
    rw [Selection.mapAllDirectives, directiveListsOf, directiveListsOf,
      directiveLists_mapDirectives s, directiveListsOf_mapAllDirectives ss, List.map_append]

end

theorem directives_inputValue (v : InputValueDefinition) :
    (Id.run (v.traverseDirectives fun ds => pure (f ds))).directives = f v.directives := rfl

theorem directiveLists_fieldDefinition (d : FieldDefinition) :
    (Id.run (d.traverseDirectives fun ds => pure (f ds))).directiveLists
      = d.directiveLists.map f := by
  simp [FieldDefinition.traverseDirectives, FieldDefinition.directiveLists, directives_inputValue]

theorem directiveLists_typeBody (b : TypeBody) :
    (Id.run (b.traverseDirectives fun ds => pure (f ds))).directiveLists
      = b.directiveLists.map f := by
  cases b <;> simp [TypeBody.traverseDirectives, TypeBody.directiveLists, List.flatMap_map,
    List.map_flatMap, directiveLists_fieldDefinition, directives_inputValue]

theorem directiveLists_definition (d : Definition) :
    (d.mapDirectives f).directiveLists = d.directiveLists.map f := by
  cases d with
  | operation o =>
    simp [Definition.mapDirectives, Definition.directiveLists, Operation.mapDirectives,
      VariableDefinition.mapDirectives, directiveListsOf_mapAllDirectives]
  | fragment fr =>
    simp [Definition.mapDirectives, Definition.directiveLists, Fragment.mapDirectives,
      directiveListsOf_mapAllDirectives]
  | schema s => rfl
  | type t =>
    simp [Definition.mapDirectives, Definition.directiveLists, TypeDefinition.traverseDirectives,
      directiveLists_typeBody]
  | directive d =>
    simp [Definition.mapDirectives, Definition.directiveLists,
      DirectiveDefinition.traverseDirectives, directives_inputValue]

end MapDirectives

/-! What leaves all lists of directives alone leaves the whole definition alone. -/

section Traversal

variable {m : Type → Type} [Monad m] [LawfulMonad m] {f : List Directive → m (List Directive)}

theorem mapM_eq_pure {α : Type} {f : α → m α} : ∀ {as : List α}, (∀ a ∈ as, f a = pure a) →
    as.mapM f = pure as
  | [], _ => rfl
  | a :: as, h => by
    rw [List.mapM_cons, h a List.mem_cons_self,
      mapM_eq_pure fun a ha => h a (List.mem_cons_of_mem _ ha), pure_bind, pure_bind]

theorem InputValueDefinition.traverseDirectives_eq_pure {v : InputValueDefinition}
    (h : f v.directives = pure v.directives) : v.traverseDirectives f = pure v := by
  rw [traverseDirectives, h, pure_bind]

theorem mapM_inputValues_eq_pure {vs : List InputValueDefinition}
    (h : ∀ ds ∈ vs.map (·.directives), f ds = pure ds) :
    vs.mapM (·.traverseDirectives f) = pure vs :=
  mapM_eq_pure fun _ hv => InputValueDefinition.traverseDirectives_eq_pure
    (h _ (List.mem_map_of_mem hv))

theorem FieldDefinition.traverseDirectives_eq_pure {d : FieldDefinition}
    (h : ∀ ds ∈ d.directiveLists, f ds = pure ds) : d.traverseDirectives f = pure d := by
  rw [FieldDefinition.directiveLists, List.forall_mem_append, List.forall_mem_singleton] at h
  rw [traverseDirectives, mapM_inputValues_eq_pure h.1, h.2, pure_bind, pure_bind]

theorem TypeBody.traverseDirectives_eq_pure {b : TypeBody}
    (h : ∀ ds ∈ b.directiveLists, f ds = pure ds) : b.traverseDirectives f = pure b := by
  cases b with
  | scalar | union _ => rfl
  | object _ fields | interface _ fields =>
    rw [traverseDirectives, mapM_eq_pure fun d hd => FieldDefinition.traverseDirectives_eq_pure
      fun ds hds => h ds (List.mem_flatMap.mpr ⟨d, hd, hds⟩), pure_bind]
  | enumeration values =>
    rw [traverseDirectives, mapM_eq_pure, pure_bind]
    intro v hv
    rw [h _ (List.mem_map_of_mem hv), pure_bind]
  | inputObject fields => rw [traverseDirectives, mapM_inputValues_eq_pure h, pure_bind]

end Traversal

/-! ## 2. Names -/

/-- The names that some lists of directives give. -/
def Config.listNames (c : Config) (lists : List (List Directive)) : List String :=
  lists.flatMap (·.filterMap c.listName?)

/-- The names that a document gives to lists. -/
def Document.listNames (c : Config) (d : Document) : List String :=
  c.listNames (d.definitions.flatMap (·.directiveLists))

variable {c : Config}

theorem listNames_append (lists others : List (List Directive)) :
    c.listNames (lists ++ others) = c.listNames lists ++ c.listNames others := List.flatMap_append

theorem listNames_cons (ds : List Directive) (lists : List (List Directive)) :
    c.listNames (ds :: lists) = ds.filterMap c.listName? ++ c.listNames lists := List.flatMap_cons

theorem listNames_map {f : List Directive → List Directive}
    (hf : ∀ ds, (f ds).filterMap c.listName? = ds.filterMap c.listName?)
    (lists : List (List Directive)) : c.listNames (lists.map f) = c.listNames lists := by
  rw [Config.listNames, List.flatMap_map]
  exact List.flatMap_congr fun ds _ => hf ds

theorem listName?_of_no_name {d : Directive} (h : argument? d.arguments "name" = none) :
    c.listName? d = none := by
  rw [Config.listName?, h]
  split <;> rfl

/-- No argument of those for pages is called `name`. -/
theorem argument?_pageArguments {f : PageArgument → Argument} (hf : ∀ a, (f a).name = a.name)
    (used : List PageArgument) : argument? (used.map f) "name" = none := by
  have hname : ∀ a : PageArgument, a.name ≠ "name" := fun a => by
    cases a <;> decide
  exact List.find?_eq_none.mpr (List.forall_mem_map.mpr fun a _ hsame =>
    hname a ((hf a).symm.trans (of_decide_eq_true hsame)))

/-- What is declared about pages is no name of a list. -/
theorem filterMap_listName?_hoistArguments (flags : Flags) (ds : List Directive) :
    (hoistArguments c flags ds).filterMap c.listName? = ds.filterMap c.listName? := by
  rw [hoistArguments, List.filterMap_map]
  refine List.filterMap_congr fun d _ => ?_
  rw [Function.comp_apply]
  split
  · have hentries : ∀ used : List PageArgument, argument? (d.arguments ++ used.map fun a =>
        argumentDeclaration a.name a.typeName (flags a).defaultValue) "name"
          = argument? d.arguments "name" := fun used => by
      have hnone := argument?_pageArguments (f := fun a =>
        argumentDeclaration a.name a.typeName (flags a).defaultValue) (fun _ => rfl) used
      rw [argument?] at hnone
      rw [argument?, List.find?_append, hnone, Option.or_none, argument?]
    rw [Config.listName?, Config.listName?, hentries]
  · rfl

theorem filterMap_listName?_withArgumentsDirective (ds : List Directive) :
    (withArgumentsDirective c ds).filterMap c.listName? = ds.filterMap c.listName? := by
  rw [withArgumentsDirective]
  split
  · rfl
  · have hnone : c.listName? (plainDirective c.argumentsDirective []) = none :=
      listName?_of_no_name rfl
    rw [List.filterMap_append, List.filterMap_cons_none hnone, List.filterMap_nil, List.append_nil]

/-! ## 3. Pagination -/

theorem directiveListsOf_append (ss rest : List Selection) :
    directiveListsOf (ss ++ rest) = directiveListsOf ss ++ directiveListsOf rest := by
  induction ss with
  | nil => rfl
  | cons s ss ih =>
    rw [List.cons_append, directiveListsOf, directiveListsOf, ih, List.append_assoc]

theorem listNames_gainedSelections (strategy : Option Strategy) :
    c.listNames (directiveListsOf (gainedSelections strategy)) = [] := by
  rcases strategy with _ | _ | _ | _ <;> rfl

/-- A visit of paginated fields gives no names. -/
theorem listNames_paginateSelections : ∀ {ancestors : List Ancestor} {ss ss' : List Selection}
    {state state' : PageState}, paginateSelections c ancestors ss state = .ok (ss', state') →
      c.listNames (directiveListsOf ss') = c.listNames (directiveListsOf ss)
  | _, [], ss', _, _, h => by
    rw [paginateSelections, pure_eq_ok] at h
    rw [← (Prod.mk.inj h).1]
  | ancestors, .field head below :: ss, ss', state, state', h => by
    rw [paginateSelections, paginateSelection] at h
    split at h
    · simp only [bind_eq_ok, pure_eq_ok, Prod.mk.injEq, Prod.exists] at h
      obtain ⟨_, _, ⟨head', gained, flags, hpaged, below', _, hbelow, rfl, rfl⟩, rest, _, hrest,
        rfl, rfl⟩ := h
      obtain ⟨_, arguments, -, -, rfl, rfl⟩ := paginateHead_eq_ok hpaged
      simp only [directiveListsOf, Selection.directiveLists, directiveListsOf_append, listNames_cons,
        listNames_append, listNames_gainedSelections, listNames_paginateSelections hbelow,
        listNames_paginateSelections hrest, List.append_nil]
    · simp only [bind_eq_ok, pure_eq_ok, Prod.mk.injEq, Prod.exists] at h
      obtain ⟨_, _, ⟨below', _, hbelow, rfl, rfl⟩, rest, _, hrest, rfl, rfl⟩ := h
      simp only [directiveListsOf, Selection.directiveLists, listNames_cons, listNames_append,
        listNames_paginateSelections hbelow, listNames_paginateSelections hrest]
  | ancestors, .spread name directives :: ss, ss', state, state', h => by
    rw [paginateSelections, paginateSelection] at h
    simp only [bind_eq_ok, pure_eq_ok, Prod.mk.injEq, Prod.exists] at h
    obtain ⟨_, _, ⟨rfl, rfl⟩, rest, _, hrest, rfl, rfl⟩ := h
    simp only [directiveListsOf, listNames_append, listNames_paginateSelections hrest]
  | ancestors, .inline condition directives below :: ss, ss', state, state', h => by
    rw [paginateSelections, paginateSelection] at h
    simp only [bind_eq_ok, pure_eq_ok, Prod.mk.injEq, Prod.exists] at h
    obtain ⟨_, _, ⟨below', _, hbelow, rfl, rfl⟩, rest, _, hrest, rfl, rfl⟩ := h
    simp only [directiveListsOf, Selection.directiveLists, listNames_cons, listNames_append,
      listNames_paginateSelections hbelow, listNames_paginateSelections hrest]

theorem listNames_paginateDefinition {definition definition' : Definition}
    {state state' : PageState}
    (h : paginateDefinition c state definition = .ok (definition', state')) :
    c.listNames definition'.directiveLists = c.listNames definition.directiveLists := by
  cases definition with
  | operation o =>
    simp only [paginateDefinition, bind_eq_ok, pure_eq_ok, Prod.mk.injEq, Prod.exists] at h
    obtain ⟨ss, _, hss, rfl, rfl⟩ := h
    simp only [Definition.directiveLists, listNames_append, listNames_cons,
      listNames_paginateSelections hss]
  | fragment f =>
    simp only [paginateDefinition, bind_eq_ok, pure_eq_ok, Prod.mk.injEq, Prod.exists] at h
    obtain ⟨ss, _, hss, rfl, rfl⟩ := h
    simp only [Definition.directiveLists, listNames_cons, listNames_paginateSelections hss]
  | schema _ | type _ | directive _ =>
    obtain ⟨rfl, -⟩ := Prod.mk.inj (Except.ok.inj h)
    rfl

theorem subperm_flatMap {α β : Type} {as bs : List α} (h : as.Subperm bs) (f : α → List β) :
    (as.flatMap f).Subperm (bs.flatMap f) := by
  obtain ⟨cs, hperm, hsub⟩ := h
  exact ⟨cs.flatMap f, hperm.flatMap_right f, hsub.flatMap f⟩

theorem Table.insert_subperm {κ α : Type} [DecidableEq κ] (k : κ) (v : α) : ∀ t : Table κ α,
    (Table.insert t k v).Subperm (t ++ [(k, v)])
  | [] => List.Subperm.refl _
  | (k', v') :: t => by
    by_cases h : k' = k
    · subst h
      rw [Table.insert, if_pos (beq_self_eq_true k')]
      exact (List.perm_append_singleton (k', v) t).symm.subperm.cons_right (k', v')
    · rw [Table.insert, if_neg (by simpa using h), List.cons_append, List.subperm_cons]
      exact Table.insert_subperm k v t

/-- A table has no rows but those that it is made of, and none of them twice. -/
theorem Table.ofRows_subperm {κ α : Type} [DecidableEq κ] (rows : List (κ × α)) :
    (Table.ofRows rows).Subperm rows := by
  have hfold : ∀ (rows : List (κ × α)) (t : Table κ α),
      (rows.foldl (fun t row => Table.insert t row.1 row.2) t).Subperm (t ++ rows) := by
    intro rows
    induction rows with
    | nil => exact fun t => (List.append_nil t).symm ▸ List.Subperm.refl t
    | cons row rows ih =>
      intro t
      have hinsert := (List.subperm_append_right rows).mpr (Table.insert_subperm row.1 row.2 t)
      rw [List.append_assoc, List.singleton_append] at hinsert
      exact (ih _).trans hinsert
  exact hfold rows []

theorem listNames_of_no_directives {declarations : List VariableDefinition}
    (h : ∀ v ∈ declarations, v.directives = []) :
    c.listNames (declarations.map (·.directives)) = [] := by
  rw [Config.listNames, List.flatMap_map, List.flatMap_eq_nil_iff]
  exact fun v hv => by rw [h v hv, List.filterMap_nil]

/-- Of two declarations of one variable the last one counts, so none gives its names twice. -/
theorem subperm_hoistVariables (flags : Flags) (declarations : List VariableDefinition) :
    (c.listNames ((hoistVariables flags declarations).map (·.directives))).Subperm
      (c.listNames (declarations.map (·.directives))) := by
  have hnew : ∀ used : List PageArgument,
      c.listNames ((used.map flags.variable).map (·.directives)) = [] := fun used =>
    listNames_of_no_directives (List.forall_mem_map.mpr fun _ _ => rfl)
  rw [hoistVariables, List.map_append, listNames_append, hnew, List.append_nil, Config.listNames,
    Config.listNames, List.map_map, List.flatMap_map, List.flatMap_map]
  have hrows := subperm_flatMap (Table.ofRows_subperm (declarations.map fun v => (v.name, v)))
    fun row => row.2.directives.filterMap c.listName?
  rwa [List.flatMap_map] at hrows

theorem listNames_hoistDefinition {flags : Flags} {definition hoisted : Definition}
    (h : hoistDefinition c flags definition = .ok hoisted) :
    (c.listNames hoisted.directiveLists).Subperm (c.listNames definition.directiveLists) := by
  have hkept (d : Definition) : c.listNames (d.mapDirectives (hoistArguments c flags)).directiveLists
      = c.listNames d.directiveLists := by
    rw [directiveLists_definition, listNames_map (filterMap_listName?_hoistArguments flags)]
  cases definition with
  | operation o =>
    rw [hoistDefinition] at h
    split at h
    · obtain rfl := Except.ok.inj h
      refine (List.Perm.of_eq (hkept (.operation _))).subperm.trans ?_
      rw [Definition.directiveLists, Definition.directiveLists, listNames_append, listNames_append]
      exact (subperm_hoistVariables flags o.declarations).append (List.Subperm.refl _)
    · exact absurd h error_ne_ok
  | fragment f =>
    obtain rfl := Except.ok.inj h
    refine (List.Perm.of_eq (hkept (.fragment _))).subperm.trans ?_
    rw [Definition.directiveLists, Definition.directiveLists, listNames_cons, listNames_cons,
      filterMap_listName?_withArgumentsDirective]
  | schema _ | type _ | directive _ =>
    obtain rfl := Except.ok.inj h
    exact (List.Perm.of_eq (hkept _)).subperm

theorem listNames_paginateDefinitions : ∀ {definitions paged : List Definition}
    {state state' : PageState}, paginateDefinitions c state definitions = .ok (paged, state') →
      c.listNames (paged.flatMap (·.directiveLists))
        = c.listNames (definitions.flatMap (·.directiveLists))
  | [], paged, state, state', h => by
    rw [paginateDefinitions, pure_eq_ok] at h
    rw [← (Prod.mk.inj h).1]
  | definition :: definitions, paged, state, state', h => by
    rw [paginateDefinitions] at h
    simp only [bind_eq_ok, pure_eq_ok, Prod.mk.injEq, Prod.exists] at h
    obtain ⟨first, _, hfirst, rest, _, hrest, rfl, rfl⟩ := h
    rw [List.flatMap_cons, List.flatMap_cons, listNames_append, listNames_append,
      listNames_paginateDefinition hfirst, listNames_paginateDefinitions hrest]

theorem listNames_mapM_hoistDefinition {flags : Flags} {definitions hoisted : List Definition}
    (h : List.Forall₂ (fun d d' => hoistDefinition c flags d = .ok d') definitions hoisted) :
    (c.listNames (hoisted.flatMap (·.directiveLists))).Subperm
      (c.listNames (definitions.flatMap (·.directiveLists))) := by
  induction h with
  | nil => exact List.Subperm.refl _
  | cons hfirst _ ih =>
    rw [List.flatMap_cons, List.flatMap_cons, listNames_append, listNames_append]
    exact (listNames_hoistDefinition hfirst).append ih

theorem directives_keyVariable {s : Schema} {type key : String} {v : VariableDefinition}
    (h : keyVariable s type key = .ok v) : v.directives = [] := by
  rw [keyVariable] at h
  split at h
  · exact absurd h error_ne_ok
  · split at h
    · exact absurd h error_ne_ok
    · rw [← Except.ok.inj h]

/-- The query that refetches a fragment names no lists. -/
theorem listNames_refetchQuery {flags : Flags} {target : RefetchTarget}
    {definitions : List Definition} (h : refetchQuery c flags target = .ok definitions) :
    c.listNames (definitions.flatMap (·.directiveLists)) = [] := by
  obtain ⟨keyVariables, hkeys, rfl⟩ := refetchQuery_eq_ok.mp h
  have hpages : c.listNames ((flags.enabled.map flags.variable).map (·.directives)) = [] :=
    listNames_of_no_directives (List.forall_mem_map.mpr fun _ _ => rfl)
  have hkeyVariables : c.listNames (keyVariables.map (·.directives)) = [] := by
    refine listNames_of_no_directives fun v hv => ?_
    obtain ⟨key, -, hkey⟩ := exists_of_forall₂ hkeys hv
    exact directives_keyVariable hkey
  have hwith : c.listName? (plainDirective c.withDirective
      (flags.enabled.map fun a => variableArgument a.name)) = none :=
    listName?_of_no_name (argument?_pageArguments (fun _ => rfl) _)
  have hselections : c.listNames (directiveListsOf (target.selections c flags.enabled)) = [] := by
    rw [RefetchTarget.selections]
    split <;> simp [directiveListsOf, Selection.directiveLists, Config.listNames, hwith]
  rw [List.flatMap_singleton, Definition.directiveLists, List.map_append, listNames_append,
    listNames_append, hpages, hkeyVariables, listNames_cons, hselections]
  rfl

/-- **Pagination gives no names**: those of a document are names that it had, each no more often,
and the query that refetches it has none. -/
theorem listNames_paginateDocument {d d' : Document} {own : List Document}
    (h : paginateDocument c d = (d', .ok own)) :
    (d'.listNames c).Subperm (d.listNames c) ∧ ∀ q ∈ own, q.listNames c = [] := by
  rw [paginateDocument] at h
  split at h
  · exact absurd (Prod.mk.inj h).2 error_ne_ok
  · rename_i definitions state hpaged
    split at h
    · obtain ⟨rfl, hown⟩ := Prod.mk.inj h
      obtain rfl := Except.ok.inj hown
      exact ⟨List.Subperm.refl _, fun _ hq => absurd hq List.not_mem_nil⟩
    · dsimp only at h
      split at h
      · exact absurd (Prod.mk.inj h).2 error_ne_ok
      · rename_i hoisted hhoist
        have hnames := listNames_mapM_hoistDefinition (mapM_eq_ok.mp hhoist)
        rw [listNames_paginateDefinitions hpaged] at hnames
        split at h
        · obtain ⟨rfl, hown⟩ := Prod.mk.inj h
          obtain rfl := Except.ok.inj hown
          exact ⟨hnames, fun _ hq => absurd hq List.not_mem_nil⟩
        · split at h
          · exact absurd (Prod.mk.inj h).2 error_ne_ok
          · rename_i query hquery
            obtain ⟨rfl, hown⟩ := Prod.mk.inj h
            obtain rfl := Except.ok.inj hown
            exact ⟨hnames, List.forall_mem_singleton.mpr (listNames_refetchQuery hquery)⟩

theorem subperm_flatMap_congr {α β : Type} {f g : α → List β} : ∀ {as : List α},
    (∀ a ∈ as, (f a).Subperm (g a)) → (as.flatMap f).Subperm (as.flatMap g)
  | [], _ => List.Subperm.refl _
  | a :: as, h => by
    obtain ⟨ha, has⟩ := List.forall_mem_cons.mp h
    exact ha.append (subperm_flatMap_congr has)

theorem nodup_of_subperm {α : Type} {as bs : List α} (h : as.Subperm bs) (hbs : bs.Nodup) :
    as.Nodup := by
  obtain ⟨cs, hperm, hsub⟩ := h
  exact hperm.nodup_iff.mp (hbs.sublist hsub)

/-- The names that documents have after the pagination pass. -/
theorem listNames_pagedDocuments {documents : List Document}
    (h : ∀ d ∈ documents, (paginateDocument c d).2.isOk = true) :
    ((pagedDocuments c documents).flatMap (·.listNames c)).Subperm
      (documents.flatMap (·.listNames c)) := by
  have hone : ∀ d ∈ documents, ((d.paged c).listNames c).Subperm (d.listNames c) ∧
      (d.refetchers c).flatMap (·.listNames c) = [] := fun d hd => by
    obtain ⟨hnames, hown⟩ :=
      listNames_paginateDocument (paginateDocument_eq_ok.mpr ⟨h d hd, rfl, rfl⟩)
    exact ⟨hnames, List.flatMap_eq_nil_iff.mpr hown⟩
  rw [pagedDocuments, List.flatMap_append, List.flatMap_map, List.flatMap_assoc,
    List.flatMap_eq_nil_iff.mpr fun d hd => (hone d hd).2, List.append_nil]
  exact subperm_flatMap_congr fun d hd => (hone d hd).1

end QueryCompiler
