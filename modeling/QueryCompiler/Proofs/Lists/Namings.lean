import QueryCompiler.Proofs.Connection
import QueryCompiler.Proofs.Lists.Logs
import QueryCompiler.Proofs.Lists.Rearranged
/-
# Faults in the names of lists

The list pass notes its faults while it fills the registry that the next name is looked for in.
What it reports can be said without the registry: a directive is at fault for what it says itself,
or since a directive before it has registered the same name (`Visit.Offends`), and there is one
report for each directive at fault, in their order (`Reports`).

A pass that fails generates nothing.  One thing stops it before it has seen all directives, a field
of an input object that it asks for its arguments (`filtered_stops`).

* `reports_faultsAfter`: the faults that are noted are these reports;
* `addListFragments_reports`: when the pass fails, with which reports, and what it leaves.
-/
namespace QueryCompiler

open Tagging

variable {c : Config}

/-! ## 1. Offences -/

/-- The name that a visit registers: the one that the directive gives, if the field it stands on is
known. -/
def Visit.registered? (c : Config) (v : Visit) : Option String :=
  if (v.field? c).isSome then c.listName? v.directive else none

/-- A fault of a directive that is met after others: a list directive has no name, the name of a
list or of pagination is no text, or it has been registered before. -/
inductive Visit.Offends (c : Config) (earlier : List Visit) (v : Visit) : NamingFault → Prop where
  | missing : v.directive.name = c.listDirective →
      argument? v.directive.arguments "name" = none → Offends c earlier v .missing
  | notText {argument : Argument} : c.Tags v.directive →
      argument? v.directive.arguments "name" = some argument →
      (∀ name block, argument.value ≠ .string name block) → Offends c earlier v .notText
  | repeated {name : String} {other : Visit} : c.listName? v.directive = some name →
      other ∈ earlier → other.registered? c = some name → Offends c earlier v .repeated

/-- Some directive is at fault. -/
def SomeOffends (c : Config) (visits : List Visit) : Prop :=
  ∃ before v after fault, visits = before ++ v :: after ∧ v.Offends c before fault

/-- One report for each directive at fault, in the order of the visits. -/
inductive Reports (c : Config) : List Visit → List Visit → List DocumentError → Prop where
  | nil {earlier : List Visit} : Reports c earlier [] []
  | fault {earlier visits : List Visit} {v : Visit} {fault : NamingFault}
      {errors : List DocumentError} : v.Offends c earlier fault →
      Reports c (earlier ++ [v]) visits errors →
      Reports c earlier (v :: visits) (v.report fault :: errors)
  | fine {earlier visits : List Visit} {v : Visit} {errors : List DocumentError} :
      (∀ fault, ¬ v.Offends c earlier fault) → Reports c (earlier ++ [v]) visits errors →
      Reports c earlier (v :: visits) errors

/-- There is a report if and only if some directive is at fault. -/
theorem Reports.ne_nil_iff {earlier visits : List Visit} {errors : List DocumentError}
    (h : Reports c earlier visits errors) :
    errors ≠ [] ↔ ∃ before v after fault, visits = before ++ v :: after ∧
      v.Offends c (earlier ++ before) fault := by
  induction h with
  | nil => exact iff_of_false (fun h => h rfl) fun ⟨_, _, _, _, h, _⟩ => by simp at h
  | @fault earlier visits v fault errors hoffends _ ih =>
    refine iff_of_true (List.cons_ne_nil _ _) ⟨[], v, visits, fault, rfl, ?_⟩
    rw [List.append_nil]
    exact hoffends
  | @fine earlier visits v errors hfine _ ih =>
    rw [ih]
    constructor
    · rintro ⟨before, w, after, fault, rfl, hoffends⟩
      refine ⟨v :: before, w, after, fault, rfl, ?_⟩
      rw [List.append_cons]
      exact hoffends
    · rintro ⟨before, w, after, fault, heq, hoffends⟩
      cases before with
      | nil =>
        obtain ⟨rfl, -⟩ := List.cons.inj heq
        rw [List.append_nil] at hoffends
        exact absurd hoffends (hfine fault)
      | cons u before =>
        obtain ⟨rfl, rfl⟩ := List.cons.inj heq
        refine ⟨before, w, after, fault, rfl, ?_⟩
        rw [← List.append_cons]
        exact hoffends

/-! ## 2. Faults that are noted -/

/-- The registry has the names that have been registered before. -/
def HasNames (c : Config) (r : Registry) (earlier : List Visit) : Prop :=
  ∀ name, name ∈ Table.keys r ↔ ∃ other ∈ earlier, other.registered? c = some name

theorem fault?_eq_some_iff {r : Registry} {earlier : List Visit} (hr : HasNames c r earlier)
    {v : Visit} {fault : NamingFault} :
    v.fault? c (Table.keys r) = some fault ↔ v.Offends c earlier fault := by
  constructor
  · intro h
    cases hname : c.listName? v.directive with
    | some name =>
      rw [fault?_of_name hname, Option.ite_none_right_eq_some] at h
      obtain ⟨hin, hfault⟩ := h
      obtain rfl := Option.some.inj hfault
      obtain ⟨other, hother, hregistered⟩ := (hr name).mp hin
      exact .repeated hname hother hregistered
    | none =>
      rw [Visit.fault?, Option.ite_none_right_eq_some] at h
      obtain ⟨htag, h⟩ := h
      rw [Config.listName?, if_pos htag] at hname
      cases ha : argument? v.directive.arguments "name" with
      | none =>
        rw [ha] at h
        obtain ⟨hlist, hfault⟩ := Option.ite_none_right_eq_some.mp h
        obtain rfl := Option.some.inj hfault
        exact .missing hlist ha
      | some argument =>
        obtain ⟨key, value⟩ := argument
        rw [ha] at h hname
        cases value with
        | string name block => cases hname
        | _ =>
          obtain rfl := Option.some.inj h
          exact .notText htag ha fun _ _ h => by cases h
  · rintro (⟨hlist, ha⟩ | ⟨htag, ha, hother⟩ | ⟨hname, hother, hregistered⟩)
    · rw [Visit.fault?, if_pos (.inl hlist), ha]
      exact if_pos hlist
    · rw [Visit.fault?, if_pos htag, ha]
      dsimp only
      split
      · exact absurd ‹_› (hother _ _)
      · rfl
    · rw [fault?_of_name hname, if_pos ((hr _).mpr ⟨_, hother, hregistered⟩)]

/-- Where arguments are known, a list is registered under each name that ought to be. -/
theorem name_list? {v : Visit} (hknown : v.ArgumentsKnown c) :
    (v.list? c).map (·.name) = v.registered? c := by
  rw [Visit.list?, Visit.registered?]
  cases hname : c.listName? v.directive with
  | none => rw [Option.bind_none, Option.map_none, ite_self]
  | some name =>
    obtain ⟨found, hfound, hfield⟩ := exists_listAt (hknown (.inr (by rw [hname]; rfl))) name
    rw [Option.bind_some, hfound, ← hfield]
    cases found with
    | none => rfl
    | some l =>
      obtain ⟨-, -, -, -, -, -, hlname, -, -⟩ := listAt_eq_some hfound
      exact congrArg some hlname

theorem hasNames_after {r : Registry} {earlier : List Visit} (hr : HasNames c r earlier) {v : Visit}
    (hknown : v.ArgumentsKnown c) : HasNames c (registryAfter c r [v]) (earlier ++ [v]) := by
  intro name
  have hold : (∃ other ∈ earlier ++ [v], other.registered? c = some name)
      ↔ name ∈ Table.keys r ∨ v.registered? c = some name := by
    rw [hr]
    simp only [List.mem_append, List.mem_singleton, or_and_right, exists_or, exists_eq_left]
  rw [hold, keys_registryAfter, name_list? hknown]
  cases v.registered? c with
  | none => exact (or_iff_left (Option.some_ne_none name).symm).symm
  | some other =>
    rw [Option.elim_some, Option.some.injEq]
    split
    · rename_i hin
      exact (or_iff_left_of_imp fun h => h ▸ hin).symm
    · rw [List.mem_append, List.mem_singleton, eq_comm (a := name)]

/-- **The faults that are noted** are one for each directive at fault. -/
theorem reports_faultsAfter : ∀ {visits earlier : List Visit} {r : Registry},
    HasNames c r earlier → (∀ v ∈ visits, v.ArgumentsKnown c) →
      Reports c earlier visits (faultsAfter c r visits)
  | [], _, _, _, _ => .nil
  | v :: visits, earlier, r, hr, h => by
    obtain ⟨hv, hvisits⟩ := List.forall_mem_cons.mp h
    have hrest := reports_faultsAfter (hasNames_after hr hv) hvisits
    rw [faultsAfter, Visit.error?]
    cases hfault : v.fault? c (Table.keys r) with
    | none =>
      refine .fine (fun fault hoffends => ?_) hrest
      cases hfault.symm.trans ((fault?_eq_some_iff hr).mpr hoffends)
    | some fault => exact .fault ((fault?_eq_some_iff hr).mp hfault) hrest

/-! ## 3. What is left after a failure -/

theorem length_tagDocuments : ∀ (documents : List Document) (st : TagState),
    (tagDocuments c st documents).1.length = documents.length
  | [], _ => rfl
  | d :: documents, st => by
    rw [tagDocuments]
    split
    · rfl
    · exact congrArg (· + 1) (length_tagDocuments documents _)

/-- **A pass that fails generates nothing**: it adds no document, and leaves no text. -/
theorem addListFragments_eq_error {r : Registry} {documents : List Document} {e : Error}
    (h : (addListFragments c r documents).result = .error e) :
    (addListFragments c r documents).documents.length = documents.length ∧
      (addListFragments c r documents).newSchema = "" := by
  have hlength := length_tagDocuments (c := c) documents
    { registry := r, errors := [], changed := false }
  rw [addListFragments] at h ⊢
  rcases htag : tagDocuments c { registry := r, errors := [], changed := false } documents
    with ⟨tagged, st, _ | _⟩
  all_goals rw [htag] at h hlength
  · exact ⟨hlength, rfl⟩
  · dsimp only at h ⊢
    by_cases herrors : (!st.errors.isEmpty) = true
    · rw [if_pos herrors]
      exact ⟨hlength, rfl⟩
    · rw [if_neg herrors] at h ⊢
      by_cases hempty : List.isEmpty st.registry = true
      · rw [if_pos hempty] at h
        cases h
      · rw [if_neg hempty] at h ⊢
        cases hdefinitions : listDefinitions c st.registry with
        | error e => exact ⟨hlength, rfl⟩
        | ok definitions =>
          rw [hdefinitions] at h
          cases h

/-! ## 4. Lists without a selection -/

theorem typed_registryAfter {r : Registry} (hr : r.Typed) (visits : List Visit) :
    (registryAfter c r visits).Typed := by
  have hfold : ∀ (ls : List ListDefinition) (r : Registry), r.Typed →
      (∀ l ∈ ls, l.type.isSome = true) → (ls.foldl Registry.register r).Typed := by
    intro ls
    induction ls with
    | nil => exact fun r hr _ => hr
    | cons l ls ih =>
      intro r hr hls
      obtain ⟨hl, hls⟩ := List.forall_mem_cons.mp hls
      refine ih _ (fun row hrow => ?_) hls
      rcases Table.mem_insert hrow with hrow | rfl
      · exact hr row hrow
      · exact hl
  refine hfold _ r hr fun l hl => ?_
  obtain ⟨v, -, hv⟩ := List.mem_filterMap.mp hl
  exact (of_list? hv).2

/-- The fragments of a list with members of a known type are only missed for want of a selection. -/
theorem listFragments_eq_error_iff {name : String} {l : ListDefinition} {e : Error}
    (h : l.type.isSome = true) : listFragments c name l = .error e ↔
      l.selections = [] ∧ e = .listWithoutSelection name := by
  obtain ⟨type, htype⟩ := Option.isSome_iff_exists.mp h
  rw [listFragments, htype]
  by_cases hselections : l.selections = []
  · rw [if_pos (List.isEmpty_iff.mpr hselections), and_iff_right hselections, Except.error.injEq,
      eq_comm]
  · rw [if_neg (mt List.isEmpty_iff.mp hselections)]
    exact iff_of_false error_ne_ok.symm fun h => hselections h.1

/-- When nothing can be generated, some list has no selection. -/
theorem exists_of_generatedDocuments_eq_error {r : Registry} (hr : r.Typed) {e : Error}
    (h : generatedDocuments c r = .error e) :
    ∃ row ∈ r, row.2.selections = [] ∧ e = .listWithoutSelection row.1 := by
  rw [generatedDocuments, listDefinitions] at h
  split at h
  · cases h
  · cases hfragments : r.mapM fun row => listFragments c row.1 row.2 with
    | error e' =>
      rw [hfragments] at h
      obtain rfl := Except.error.inj h
      obtain ⟨row, hrow, hlist⟩ := exists_of_mapM_eq_error hfragments
      exact ⟨row, hrow, (listFragments_eq_error_iff (hr row hrow)).mp hlist⟩
    | ok fragments =>
      rw [hfragments] at h
      cases h

/-- **What is generated** for lists with members of known types is only missed for want of a
selection. -/
theorem generatedDocuments_eq_error {r : Registry} (hr : r.Typed) :
    (∀ e, generatedDocuments c r = .error e → ∃ name, e = .listWithoutSelection name) ∧
      ((∃ e, generatedDocuments c r = .error e) ↔ ∃ row ∈ r, row.2.selections = []) := by
  refine ⟨fun e h => ?_, ?_, ?_⟩
  · obtain ⟨row, -, -, he⟩ := exists_of_generatedDocuments_eq_error hr h
    exact ⟨row.1, he⟩
  · rintro ⟨e, h⟩
    obtain ⟨row, hrow, hselections, -⟩ := exists_of_generatedDocuments_eq_error hr h
    exact ⟨row, hrow, hselections⟩
  · rintro ⟨row, hrow, hselections⟩
    cases h : generatedDocuments c r with
    | error e => exact ⟨e, rfl⟩
    | ok new =>
      obtain ⟨fragments, hfragments, -⟩ :=
        fragmentsOf_listDefinitions (generates_of_eq_ok h).definitions
      obtain ⟨definitions, hlist⟩ := exists_mapM_eq_ok.mp ⟨fragments, hfragments⟩ row hrow
      have hnone : listFragments c row.1 row.2 = .error (.listWithoutSelection row.1) :=
        (listFragments_eq_error_iff (hr row hrow)).mpr ⟨hselections, rfl⟩
      exact absurd (hnone.symm.trans hlist) error_ne_ok

/-! ## 5. The list pass -/

section Known

variable {documents : List Document} (hknown : ∀ d ∈ documents, d.ArgumentsKnown c)

include hknown

/-- What a pass fails with, other than its faults. -/
theorem result_of_known :
    (faultsOf c documents ≠ [] ∧
      (addListFragments c [] documents).result = .error (.naming (faultsOf c documents))) ∨
    (faultsOf c documents = [] ∧
      (∀ e, (addListFragments c [] documents).result = .error e →
        ∃ name, e = .listWithoutSelection name) ∧
      ((∃ e, (addListFragments c [] documents).result = .error e) ↔
        ∃ row ∈ (addListFragments c [] documents).registry, row.2.selections = [])) := by
  obtain ⟨visited, -, -, hregistry, hresult⟩ := addListFragments_of_known hknown
  rw [hresult, hregistry]
  by_cases hfaults : faultsOf c documents = []
  · rw [if_pos hfaults]
    exact .inr ⟨hfaults, generatedDocuments_eq_error
      (typed_registryAfter (fun _ h => absurd h List.not_mem_nil) _)⟩
  · rw [if_neg hfaults]
    exact .inl ⟨hfaults, rfl⟩

/-- A pass fails with its faults, if there are any. -/
theorem result_eq_naming_iff {errors : List DocumentError} :
    (addListFragments c [] documents).result = .error (.naming errors) ↔
      faultsOf c documents ≠ [] ∧ errors = faultsOf c documents := by
  rcases result_of_known hknown with ⟨hfaults, hresult⟩ | ⟨hnone, hselection, -⟩
  · rw [hresult, and_iff_right hfaults, Except.error.injEq, Error.naming.injEq, eq_comm]
  · refine iff_of_false (fun h => ?_) fun h => h.1 hnone
    obtain ⟨name, hname⟩ := hselection _ h
    cases hname

theorem exists_naming_iff :
    (∃ errors, (addListFragments c [] documents).result = .error (.naming errors)) ↔
      faultsOf c documents ≠ [] := by
  simp only [result_eq_naming_iff hknown, exists_and_left, exists_eq, and_true]

end Known

/-- **Faults in the names of lists** are reported exactly.  All directives of a document are met, in
its file.  A pass that fails adds no document and leaves no text.  Where arguments are known, it
visits all documents; it fails for its reports if and only if some directive is at fault, with one
report for each of these; and without a fault it fails if and only if some list has no selection. -/
theorem addListFragments_reports (c : Config) (documents : List Document) :
    (∀ d ∈ documents, (d.visits c).map (·.directive)
        = (d.definitions.flatMap (·.directiveLists)).flatten ∧
      ∀ v ∈ d.visits c, v.filename = d.filename) ∧
    (∀ e, (addListFragments c [] documents).result = .error e →
      (addListFragments c [] documents).documents.length = documents.length ∧
        (addListFragments c [] documents).newSchema = "") ∧
    ((∀ d ∈ documents, d.ArgumentsKnown c) →
      (∃ visited, documents.mapM (·.tagged c) = .ok visited ∧
        (addListFragments c [] documents).documents
          = visited ++ (addListFragments c [] documents).result.toOption.getD []) ∧
      ((∃ errors, (addListFragments c [] documents).result = .error (.naming errors)) ↔
        SomeOffends c (documents.flatMap (·.visits c))) ∧
      (∀ errors, (addListFragments c [] documents).result = .error (.naming errors) →
        Reports c [] (documents.flatMap (·.visits c)) errors) ∧
      ((∃ name, (addListFragments c [] documents).result = .error (.listWithoutSelection name)) ↔
        ¬ SomeOffends c (documents.flatMap (·.visits c)) ∧
          ∃ row ∈ (addListFragments c [] documents).registry, row.2.selections = []) ∧
      ∀ e, (addListFragments c [] documents).result = .error e →
        (∃ errors, e = .naming errors) ∨ ∃ name, e = .listWithoutSelection name) := by
  refine ⟨fun d _ => ⟨directives_visits_document d, fun v => filename_visits_document⟩,
    fun e => addListFragments_eq_error, fun hknown => ?_⟩
  obtain ⟨visited, hvisited, hdocuments, -⟩ := addListFragments_of_known hknown
  have hreports : Reports c [] (documents.flatMap (·.visits c)) (faultsOf c documents) := by
    refine reports_faultsAfter (fun name => by simp [Table.keys]) fun v hv => ?_
    obtain ⟨d, hd, hv⟩ := List.mem_flatMap.mp hv
    exact hknown d hd v hv
  have hoffends : faultsOf c documents ≠ []
      ↔ SomeOffends c (documents.flatMap (·.visits c)) := by
    rw [hreports.ne_nil_iff]
    rfl
  refine ⟨⟨visited, hvisited, hdocuments⟩, (exists_naming_iff hknown).trans hoffends,
    fun errors h => ?_, ?_⟩
  · obtain ⟨-, rfl⟩ := (result_eq_naming_iff hknown).mp h
    exact hreports
  · rw [← hoffends]
    rcases result_of_known hknown with ⟨hfaults, hresult⟩ | ⟨hnone, hselection, hwithout⟩
    · rw [hresult]
      refine ⟨iff_of_false ?_ fun h => h.1 hfaults, fun e h => .inl ⟨_, (Except.error.inj h).symm⟩⟩
      rintro ⟨name, h⟩
      cases Except.error.inj h
    · refine ⟨?_, fun e h => .inr (hselection e h)⟩
      rw [and_iff_right (fun h => h hnone), ← hwithout]
      constructor
      · rintro ⟨name, h⟩
        exact ⟨_, h⟩
      · rintro ⟨e, h⟩
        obtain ⟨name, rfl⟩ := hselection e h
        exact ⟨name, h⟩

namespace Sample

/-- Pages of users, and an object to filter them by. -/
def filterable : Schema :=
  { types := [.scalar "String", .scalar "Int", .scalar "ID",
      .inputObject "Filter" [⟨"name", none, .named "String"⟩],
      .object "User" [] [⟨"id", some [], .named "ID"⟩],
      .object "UserEdge" [] [⟨"node", some [], .named "User"⟩],
      .object "UserConnection" [] [⟨"edges", some [], .list (.named "UserEdge")⟩],
      .object "Query" [] [⟨"users", some [("first", .named "Int"), ("after", .named "String")],
        .named "UserConnection"⟩]]
    query := some "Query", mutation := none, subscription := none }

/-- What is selected of the users of a page. -/
def userPage : List Selection := [plainField "edges" [plainField "node" [plainField "id" []]]]

/-- A document with the users in a list. -/
def usersAs (name : String) : Document :=
  operation .query name [listField "users" "Users" userPage]

def nameless : Document :=
  operation .query "Nameless" [.field
    { label := none, name := "users", arguments := [], directives := [plainDirective "list" []] }
    userPage]

/-- A list in an object that is only an input. -/
def filtered : Document := fragment "Filtered" "Filter" [listField "name" "Names" []]

/-- A name that comes twice, and one that is missing. -/
def faulty : List Document := [usersAs "First", usersAs "Second", nameless]

def faultyReports : List DocumentError :=
  [{ fault := .repeated, directive := "list", filename := "Second", origin := none },
    { fault := .missing, directive := "list", filename := "Nameless", origin := none }]

end Sample

open Sample in
/-- Both faults are reported, and the three documents are left. -/
theorem faulty_reports :
    (∀ d ∈ faulty, d.ArgumentsKnown (config filterable)) ∧
      (addListFragments (config filterable) [] faulty).result = .error (.naming faultyReports) ∧
      SomeOffends (config filterable) (faulty.flatMap (·.visits (config filterable))) ∧
      Reports (config filterable) [] (faulty.flatMap (·.visits (config filterable)))
        faultyReports ∧
      (addListFragments (config filterable) [] faulty).documents.length = 3 ∧
      (addListFragments (config filterable) [] faulty).newSchema = "" := by
  have hknown : ∀ d ∈ faulty, d.ArgumentsKnown (config filterable) := by
    unfold Document.ArgumentsKnown
    decide +kernel
  have hresult : (addListFragments (config filterable) [] faulty).result
      = .error (.naming faultyReports) := by rfl
  obtain ⟨-, hleft, hexact⟩ := addListFragments_reports (config filterable) faulty
  obtain ⟨-, hfails, hreports, -⟩ := hexact hknown
  exact ⟨hknown, hresult, hfails.mp ⟨_, hresult⟩, hreports _ hresult, hleft _ hresult⟩

open Sample in
/-- A list on a field of an input object stops the pass before it comes to the fault behind. -/
theorem filtered_stops :
    SomeOffends (config filterable)
        ([filtered, nameless].flatMap (·.visits (config filterable))) ∧
      ∀ errors, (addListFragments (config filterable) [] [filtered, nameless]).result
        ≠ .error (.naming errors) := by
  refine ⟨⟨[_], _, [], .missing, rfl, .missing rfl rfl⟩, fun errors h => ?_⟩
  have hresult : (addListFragments (config filterable) [] [filtered, nameless]).result
      = .error (.argumentsOnInput "name") := by rfl
  cases hresult.symm.trans h

end QueryCompiler
