import QueryCompiler.Proofs.Connection
import QueryCompiler.Proofs.Selection.Levels
/-
# Which list operations an entry has

A mutation edits lists by spreading the fragments that are generated for them.  Two walks read such
a spread: the selection takes in what the fragment selects, wherever on the level of a field the
spread stands; the operations of a field are read off the selections that it has itself.  So a
spread within an inline fragment or within another fragment adds its fields and asks for nothing.

* `ArtifactContext.compile_operations`: the operations of an entry are those that its places ask for
  themselves, one place after the other; a generated fragment on the level of a place is lost
  exactly if no place of the path spreads it itself.
-/
namespace QueryCompiler

/-! ## 1. What selections ask for -/

section Edits

variable {c : Config} {r : Registry}

theorem list_of_deletion? {directives : List Directive} {d : Directive} {o : ListOperation}
    (h : deletion? c r directives d = .ok (some o)) : o.list = none := by
  unfold deletion? at h
  split at h
  · exact absurd h nofun
  · simp only [bind_eq_ok, pure_eq_ok, Option.some.injEq] at h
    obtain ⟨guards, -, rfl⟩ := h
    rfl

/-- A spread of a generated fragment asks for the operation that its name stands for. -/
theorem edit?_spread {name list : String} {action : ListAction} {directives : List Directive}
    (hname : r.operation? c name = some (list, action)) {asked : Option ListOperation}
    (h : edit? c r (.spread name directives) = .ok asked) :
    ∃ o, asked = some o ∧ o.list = some list ∧ o.action = action := by
  rw [edit?, hname] at h
  simp only [bind_eq_ok, pure_eq_ok] at h
  obtain ⟨parent, -, guards, -, rfl⟩ := h
  exact ⟨_, rfl, rfl, rfl⟩

/-- No other selection asks for anything. -/
theorem exists_of_edit? {s : Selection} {o : ListOperation} (h : edit? c r s = .ok (some o)) :
    ∃ name directives list, s = .spread name directives ∧ o.list = some list ∧
      r.operation? c name = some (list, o.action) := by
  cases s with
  | field head selections => exact absurd h nofun
  | inline condition directives selections => exact absurd h nofun
  | spread name directives =>
    cases hname : r.operation? c name with
    | none =>
      rw [edit?, hname] at h
      exact absurd h nofun
    | some found =>
      obtain ⟨list, action⟩ := found
      obtain ⟨o', ho', hlist, rfl⟩ := edit?_spread hname h
      obtain rfl := Option.some.inj ho'
      exact ⟨name, directives, list, rfl, hlist, hname⟩

/-- **A field asks for an operation on a list exactly if it spreads the fragment for it.** -/
theorem exists_mem_listOperations {directives : List Directive} {ss : List Selection}
    {operations : List ListOperation} (h : listOperations c r directives ss = .ok operations)
    {list : String} {action : ListAction} :
    (∃ o ∈ operations, o.list = some list ∧ o.action = action) ↔
      ∃ name, Spreads ss name ∧ r.operation? c name = some (list, action) := by
  simp only [listOperations, bind_eq_ok, pure_eq_ok] at h
  obtain ⟨deletions, hdeletions, edits, hedits, rfl⟩ := h
  rw [mapM_eq_ok] at hdeletions hedits
  constructor
  · rintro ⟨o, ho, hlist, rfl⟩
    rcases List.mem_append.mp ho with ho | ho <;> rw [List.mem_filterMap] at ho
    · obtain ⟨asked, hasked, rfl⟩ := ho
      obtain ⟨d, -, hd⟩ := exists_of_forall₂ hdeletions hasked
      rw [list_of_deletion? hd] at hlist
      cases hlist
    · obtain ⟨asked, hasked, rfl⟩ := ho
      obtain ⟨s, hs, hedit⟩ := exists_of_forall₂ hedits hasked
      obtain ⟨name, directives, list', rfl, hlist', hname⟩ := exists_of_edit? hedit
      obtain rfl := Option.some.inj (hlist'.symm.trans hlist)
      exact ⟨name, ⟨directives, hs⟩, hname⟩
  · rintro ⟨name, ⟨directives, hs⟩, hname⟩
    obtain ⟨asked, hasked, hedit⟩ := exists_of_forall₂ hedits.flip hs
    obtain ⟨o, rfl, hlist, haction⟩ := edit?_spread hname hedit
    exact ⟨o, List.mem_append_right _ (List.mem_filterMap.mpr ⟨some o, hasked, rfl⟩),
      hlist, haction⟩

end Edits

/-! ## 2. What places ask for -/

/-- The operations that a place asks for itself: those of its directives and of its own
selections.  The name of a type asks for none. -/
def Occurrence.Asks (c : Config) (r : Registry) (o : Occurrence)
    (operations : List ListOperation) : Prop :=
  if o.field.name = typenameField then operations = []
  else listOperations c r o.field.directives o.selections = .ok operations

/-- In a mutation a place gives its entry what it asks for. -/
theorem Compilation.HeadOf.asks {x : Compilation} (hx : x.kind = .mutation) {o : Occurrence}
    {h : EntryHead} (hh : x.HeadOf o h) : o.Asks x.config x.registry h.operations := by
  rw [Occurrence.Asks]
  rw [HeadOf] at hh
  split at hh
  · rename_i hname
    rw [if_pos hname, hh]
    rfl
  · rename_i hname
    obtain ⟨f, key, -, -, hh⟩ := hh
    simp only [entryHead, if_pos hx, bind_eq_ok, pure_eq_ok] at hh
    obtain ⟨listed, -, operations, hoperations, rfl⟩ := hh
    rw [if_neg hname]
    exact hoperations

/-- The operations at a path are those of all places with the path, in their order. -/
theorem operations_headOf {rows : List Row} {p : List String} {h : EntryHead}
    (hh : headOf rows p = some h) :
    h.operations = ((rows.filter fun row => row.1.path = p).map (·.2.operations)).flatten := by
  have hall : ∀ rows : List Row, ((headOf rows p).map EntryHead.operations).getD []
      = ((rows.filter fun row => row.1.path = p).map (·.2.operations)).flatten := by
    intro rows
    induction rows with
    | nil => rfl
    | cons row rows ih =>
      obtain ⟨o, head⟩ := row
      rw [headOf]
      by_cases hp : o.path = p
      · rw [if_pos hp, List.filter_cons_of_pos (by simpa using hp), List.map_cons,
          List.flatten_cons, ← ih]
        cases headOf rows p with
        | none => exact (List.append_nil _).symm
        | some rest => rfl
      · rw [if_neg hp, Option.merge_none_left, List.filter_cons_of_neg (by simpa using hp), ih]
  rw [← hall, hh]
  rfl

/-! ## 3. Artifacts -/

/-- **Which operations an entry has.**  They are those that the places of its path ask for
themselves, one place after the other.  Of the generated fragments on the level of such a place,
just those count that some place of the path spreads itself. -/
theorem ArtifactContext.compile_operations {x : ArtifactContext} {d : Document} {a : Artifact}
    (hkind : d.kind = .mutation) (h : x.compile d = .ok a) :
    ∃ main others os, x.compiledDefinitions d = .ok (main, others) ∧
      Expands (Table.get? (x.compilation d main others).trimmed.fragments)
        { fragment := none, ancestors := [main.ancestor] } (trimAll main.selections) os ∧
      ∀ p e, Entry.at? a.selection p = some e →
        (∃ asked, List.Forall₂ (Occurrence.Asks x.config x.registry)
            (os.filter fun o => o.path = p) asked ∧ e.head.operations = asked.flatten) ∧
        ∀ o ∈ os, o.path = p → ∀ name list action,
          SpreadsOnLevel (Table.get? (x.compilation d main others).trimmed.fragments)
            o.selections name →
          x.registry.operation? x.config name = some (list, action) →
            ((∃ operation ∈ e.head.operations,
                operation.list = some list ∧ operation.action = action) ↔
              ∃ o' ∈ os, o'.path = p ∧ Spreads o'.selections name) := by
  obtain ⟨main, others, rows, hdefs, hrows, hshows⟩ := compile_shows_trimmed h
  have hleaf : ∀ o ∈ places rows, o.field.name = typenameField → o.selections = [] :=
    hrows.expands.selections_of_typename (typenamesAreLeavesIn_trimAll _) fun name f hf => by
      rw [Compilation.get?_trimmed] at hf
      obtain ⟨g, -, rfl⟩ := Option.map_eq_some_iff.mp hf
      exact typenamesAreLeavesIn_trimAll g.selections
  have hasks : ∀ row ∈ rows, row.1.Asks x.config x.registry row.2.operations :=
    fun row hrow => (hrows.heads row hrow).asks hkind
  refine ⟨main, others, places rows, hdefs, hrows.expands, fun p e he => ?_⟩
  refine ⟨⟨_, ?_, operations_headOf (hshows.headOf_at he)⟩,
    fun o ho hpath name list action _ hname => ?_⟩
  · rw [places, List.filter_map, List.forall₂_map_left_iff, List.forall₂_map_right_iff]
    exact List.forall₂_same.mpr fun row hrow => hasks row (List.mem_of_mem_filter hrow)
  · have hmerge : ∀ a b : EntryHead,
        (∃ o ∈ (a.merge b).operations, o.list = some list ∧ o.action = action) ↔
          (∃ o ∈ a.operations, o.list = some list ∧ o.action = action) ∨
            ∃ o ∈ b.operations, o.list = some list ∧ o.action = action := fun a b => by
      simp only [EntryHead.merge, List.mem_append, or_and_right, exists_or]
    refine hshows.head_iff
      (fun h => ∃ operation ∈ h.operations, operation.list = some list ∧ operation.action = action)
      (fun o => Spreads o.selections name) hmerge (fun row hrow => ?_) he
    have hrow' := hasks row hrow
    rw [Occurrence.Asks] at hrow'
    split at hrow'
    · rename_i ht
      rw [hrow', hleaf row.1 (List.mem_map.mpr ⟨row, hrow, rfl⟩) ht]
      simp [Spreads]
    · rw [exists_mem_listOperations hrow']
      constructor
      · rintro ⟨name', hspreads, hname'⟩
        rw [eq_of_operation? hname, ← eq_of_operation? hname']
        exact hspreads
      · exact fun hspreads => ⟨name, hspreads, hname⟩

/-! ## 4. A member of one type -/

namespace Sample

/-- Users and bots can be members. -/
def club : Schema :=
  { types := [.scalar "String", .scalar "ID",
      .object "User" [] [⟨"id", some [], .named "ID"⟩],
      .object "Bot" [] [⟨"id", some [], .named "ID"⟩],
      .union "Member" ["User", "Bot"],
      .object "Mutation" [] [⟨"addMember", some [], .named "Member"⟩],
      .object "Query" [] [⟨"users", some [], .list (.named "User")⟩]]
    query := some "Query", mutation := some "Mutation", subscription := none }

/-- What is asked of a new member: if it is a user, to be put into the list. -/
def newMember : List Selection := [.inline (some "User") [] [.spread "Users_insert" []]]

def addMember : Document := operation .mutation "AddMember" [plainField "addMember" newMember]

/-- A list of users, and a mutation that adds a member. -/
def membership : List Document :=
  [operation .query "Users" [listField "users" "Users" [plainField "id" []]], addMember]

/-- What the artifacts of these documents are compiled with. -/
def membershipContext : ArtifactContext := runContext (config club) membership

end Sample

open Sample in
theorem addMember_operations :
    ∃ a, membershipContext.compile addMember = .ok a ∧
      ∃ main others os, membershipContext.compiledDefinitions addMember = .ok (main, others) ∧
        Expands
          (Table.get? (membershipContext.compilation addMember main others).trimmed.fragments)
          { fragment := none, ancestors := [main.ancestor] } (trimAll main.selections) os ∧
        ∀ p e, Entry.at? a.selection p = some e →
          (∃ asked, List.Forall₂
              (Occurrence.Asks membershipContext.config membershipContext.registry)
              (os.filter fun o => o.path = p) asked ∧ e.head.operations = asked.flatten) ∧
          ∀ o ∈ os, o.path = p → ∀ name list action,
            SpreadsOnLevel
              (Table.get? (membershipContext.compilation addMember main others).trimmed.fragments)
              o.selections name →
            membershipContext.registry.operation? membershipContext.config name
                = some (list, action) →
              ((∃ operation ∈ e.head.operations,
                  operation.list = some list ∧ operation.action = action) ↔
                ∃ o' ∈ os, o'.path = p ∧ Spreads o'.selections name) := by
  have hok : (membershipContext.compile addMember).isOk = true := by decide +kernel
  cases h : membershipContext.compile addMember with
  | error e => rw [h] at hok; exact absurd hok nofun
  | ok a => exact ⟨a, rfl, ArtifactContext.compile_operations rfl h⟩

open Sample in
/-- A user who is added as a member is not put into the list, although its fields are selected. -/
theorem addMember_not_inserted :
    addMember.kind = .mutation ∧ (∀ fragment?, SpreadsOnLevel fragment? newMember "Users_insert") ∧
      (runRegistry (config club) membership).operation? (config club) "Users_insert"
        = some ("Users", .insert) ∧
      ∃ artifacts, (runPipeline (config club) membership).result = .ok artifacts ∧
        ∃ a ∈ artifacts, a.name = "AddMember" ∧ ∃ e, Entry.at? a.selection ["addMember"] = some e ∧
          e.head.operations = [] := by
  have hentry : ((runPipeline (config club) membership).result.toOption.map fun artifacts =>
      artifacts.any fun a => a.name = "AddMember" &&
        (Entry.at? a.selection ["addMember"]).any fun e => e.head.operations.isEmpty)
      = some true := by decide +kernel
  refine ⟨rfl, fun _ => .inline .spread, by decide +kernel, ?_⟩
  cases h : (runPipeline (config club) membership).result with
  | error e => rw [h] at hentry; exact absurd hentry nofun
  | ok artifacts =>
    rw [h] at hentry
    obtain ⟨a, ha, he⟩ := List.any_eq_true.mp (Option.some.inj hentry)
    rw [Bool.and_eq_true, decide_eq_true_iff, Option.any_eq_true] at he
    obtain ⟨hname, e, hat, hempty⟩ := he
    exact ⟨artifacts, rfl, a, ha, hname, e, hat, List.isEmpty_iff.mp hempty⟩

end QueryCompiler
