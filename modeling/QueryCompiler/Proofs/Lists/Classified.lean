import QueryCompiler.Proofs.Lists.Compiles
import QueryCompiler.Proofs.Lists.PageInfo
/-
# Lists and their fields agree

The list pass looks at a list field twice: to see what the field gains, and from inside its
directive, to register it.  By then the field has gained the page information, with `edges` of its
own, and fields that enclose it have been changed.  Both looks come to the same verdict, that of the
field as it stands in the document.

* `get?_registryAfter`: without faults every list that is registered stays;
* `ChangedBy`: what the pass makes of selections, field by field;
* `addListFragments_classifies`: what the field gains, the mark of its directive and the list that
  is registered all follow from the members of the field before the pass.
-/
namespace QueryCompiler

open Tagging

variable {c : Config} {r : Registry}

/-! ## 1. Lists that stay -/

/-- A visit without a fault registers its list under a name that is new. -/
theorem get?_registryAfter_one {v : Visit} (h : v.error? c (Table.keys r) = none) :
    (∀ name l, Table.get? r name = some l →
        Table.get? (registryAfter c r [v]) name = some l) ∧
      ∀ l, v.list? c = some l → Table.get? (registryAfter c r [v]) l.name = some l := by
  rw [registryAfter]
  cases hlist : v.list? c with
  | none =>
    rw [List.filterMap_cons_none hlist]
    refine ⟨fun _ _ hl => hl, fun l hl => ?_⟩
    cases hl
  | some l =>
    rw [List.filterMap_cons_some hlist]
    have hnew : l.name ∉ Table.keys r := fun hin => by
      rw [Visit.error?, fault?_of_name (of_list? hlist).1, if_pos hin] at h
      cases h
    refine ⟨fun name l' hl' => ?_, fun l' hl' => ?_⟩
    · have hne : l.name ≠ name := fun hname => hnew (hname ▸ Table.mem_keys_of_get? hl')
      exact (Table.get?_insert_of_ne r l hne).trans hl'
    · obtain rfl := Option.some.inj hl'
      exact Table.get?_insert_self r l.name l

/-- **Without faults every list stays** under its name, those that were registered before and those
of all visits. -/
theorem get?_registryAfter : ∀ {visits : List Visit} {r : Registry}, faultsAfter c r visits = [] →
    (∀ name l, Table.get? r name = some l → Table.get? (registryAfter c r visits) name = some l) ∧
      ∀ v ∈ visits, ∀ l, v.list? c = some l →
        Table.get? (registryAfter c r visits) l.name = some l
  | [], _, _ => ⟨fun _ _ hl => hl, fun _ hv => absurd hv List.not_mem_nil⟩
  | v :: visits, r, h => by
    rw [faultsAfter, List.append_eq_nil_iff, Option.toList_eq_nil_iff] at h
    obtain ⟨hkept, hfirst⟩ := get?_registryAfter_one h.1
    obtain ⟨hkept', hrest⟩ := get?_registryAfter h.2
    rw [← List.singleton_append, registryAfter_append]
    refine ⟨fun name l hl => hkept' name l (hkept name l hl), ?_⟩
    rw [List.singleton_append, List.forall_mem_cons]
    exact ⟨fun l hl => hkept' l.name l (hfirst l hl), hrest⟩

/-! ## 2. Fields before and after the pass -/

/-- What becomes of a field below some ancestors: its head and selections before, its head after,
and what has been put behind its selections. -/
abbrev FieldChange :=
  List Ancestor → FieldHead → List Selection → FieldHead → List Selection → Prop

/-- Selections before and after a pass that changes fields, and nothing else. -/
inductive ChangedBy (R : FieldChange) : List Ancestor → List Selection → List Selection → Prop
  | nil {ancestors} : ChangedBy R ancestors [] []
  | field {ancestors head head' ss ss' extra rest rest'} (h : R ancestors head ss head' extra)
      (hbelow : ChangedBy R (ancestors ++ [.field head]) ss ss')
      (hrest : ChangedBy R ancestors rest rest') :
      ChangedBy R ancestors (.field head ss :: rest) (.field head' (ss' ++ extra) :: rest')
  | spread {ancestors name ds rest rest'} (hrest : ChangedBy R ancestors rest rest') :
      ChangedBy R ancestors (.spread name ds :: rest) (.spread name ds :: rest')
  | inline {ancestors condition ds ss ss' rest rest'}
      (hbelow : ChangedBy R (ancestors ++ [.inline condition]) ss ss')
      (hrest : ChangedBy R ancestors rest rest') :
      ChangedBy R ancestors (.inline condition ds ss :: rest) (.inline condition ds ss' :: rest')

/-- What is left of selections is said field by field. -/
theorem changedBy_settledAll {R : FieldChange} : ∀ {ss : List Selection}
    {ancestors : List Ancestor},
    EveryIn (fun ancestors head ss => R ancestors head ss
        (settledHead c ancestors head (ss ++ gains c ancestors head ss))
        (gains c ancestors head ss)) ancestors ss →
      ChangedBy R ancestors ss (settledAll c ancestors ss)
  | [], _, _ => .nil
  | .field head ss :: rest, ancestors, h => by
    rw [EveryIn, Selection.Every] at h
    rw [settledAll, settled]
    exact .field h.1.1 (changedBy_settledAll h.1.2) (changedBy_settledAll h.2)
  | .spread name ds :: rest, ancestors, h => by
    rw [EveryIn] at h
    rw [settledAll, settled]
    exact .spread (changedBy_settledAll h.2)
  | .inline condition ds ss :: rest, ancestors, h => by
    rw [EveryIn, Selection.Every] at h
    rw [settledAll, settled]
    exact .inline (changedBy_settledAll h.1) (changedBy_settledAll h.2)

/-! ## 3. One verdict -/

/-- A list directive `d` of a field with the members `m`, which is `d'` after the pass, the list `l`
of its name, and what the field has gained. -/
structure ClassifiedAs (m : Members) (l : ListDefinition) (d d' : Directive)
    (extra : List Selection) : Prop where
  selections : l.selections = m.selections
  type : l.type = some m.type
  connection : l.connection = m.connection
  /-- The field gains the page information exactly if the list is a connection. -/
  gained : extra = if l.connection then pageInfo else []
  /-- The directive gains its mark exactly if the list is a connection. -/
  marked : d' =
    if l.connection then { d with arguments := d.arguments ++ [connectionMark] } else d

/-- Each list directive of a field that is known follows the members that the field had. -/
def Classifies (c : Config) (r : Registry) : FieldChange := fun ancestors head ss head' extra =>
  head' = { head with directives := head'.directives } ∧
    List.Forall₂ (fun d d' => ∀ name f type, d.name = c.listDirective → c.listName? d = some name →
        c.schema.fieldAt ancestors head.name = some f → c.schema.fieldType? f = some type →
          ∃ m l, members c.schema f type ss = .ok m ∧ Table.get? r name = some l ∧
            ClassifiedAs m l d d' extra)
      head.directives head'.directives

/-- The list that is made of a field with known members. -/
theorem listAt_of_membersAt (filename name : String) {ancestors : List Ancestor} {head : FieldHead}
    {ss : List Selection} {f : SchemaField} {m : Members}
    (h : membersAt c.schema ancestors head.name ss = .ok (some (f, m))) :
    ∃ l, listAt c filename ancestors (some (head, ss)) name = .ok (some l) := by
  obtain ⟨type, -, -, hm⟩ := membersAt_eq_some h
  rw [members] at hm
  obtain ⟨arguments, harguments, -⟩ := bind_eq_ok.mp hm
  simp only [listAt, h, listDefinition, harguments]
  exact ⟨_, rfl⟩

section Field

variable {ancestors : List Ancestor} {head : FieldHead} {ss : List Selection}

/-- The members of a field whose list is registered, which what it gains does not change. -/
theorem exists_members_of_registers {d : Directive} {name : String} {f : SchemaField}
    {type : NamedType}
    (h : Registers c r ancestors (head, ss ++ gains c ancestors head ss) d)
    (hname : c.listName? d = some name) (hf : c.schema.fieldAt ancestors head.name = some f)
    (htype : c.schema.fieldType? f = some type) :
    ∃ m, members c.schema f type ss = .ok m ∧
      membersAt c.schema ancestors head.name ss = .ok (some (f, m)) := by
  obtain ⟨found, hfound, -⟩ := h name hname
  rw [membersAt_gains] at hfound
  have hknown : found.isSome = true := by
    rw [isSome_membersAt hfound, Schema.knows, hf, Option.bind_some, htype]
    rfl
  obtain ⟨⟨f', m⟩, rfl⟩ := Option.isSome_iff_exists.mp hknown
  obtain ⟨type', hf', htype', hm⟩ := membersAt_eq_some hfound
  obtain rfl := Option.some.inj (hf.symm.trans hf')
  obtain rfl := Option.some.inj (htype.symm.trans htype')
  exact ⟨m, hm, hfound⟩

/-- **Both looks at a field come to one verdict**, where its lists stay registered. -/
theorem classifies_settled {filename : String} (hr : Registered c r ancestors head ss)
    (hvisits : ∀ v ∈ Visit.ofDirectives filename ancestors
      (some (head, ss ++ gains c ancestors head ss)) head.directives,
        ∀ l, v.list? c = some l → Table.get? r l.name = some l) :
    Classifies c r ancestors head ss
      (settledHead c ancestors head (ss ++ gains c ancestors head ss))
      (gains c ancestors head ss) := by
  refine ⟨rfl, ?_⟩
  rw [settledHead, List.forall₂_map_right_iff, List.forall₂_same]
  intro d hd name f type htag hname hf htype
  obtain ⟨m, hm, hmembers⟩ := exists_members_of_registers (hr d hd) hname hf htype
  -- from inside the directive the field is seen with what it has gained
  have hinside : membersAt c.schema ancestors head.name (ss ++ gains c ancestors head ss)
      = .ok (some (f, m)) := (membersAt_gains ancestors head ss).trans hmembers
  obtain ⟨l, hlist⟩ := listAt_of_membersAt filename name hinside
  obtain ⟨_, _, f', m', htarget, hm', rfl, hselections, hltype, hconnection⟩ := listAt_eq_some hlist
  obtain ⟨rfl, rfl⟩ := Prod.mk.inj (Option.some.inj htarget)
  obtain ⟨rfl, rfl⟩ := Prod.mk.inj (Option.some.inj (Except.ok.inj (hinside.symm.trans hm')))
  have hregistered : Table.get? r l.name = some l := by
    refine hvisits _ (List.mem_map_of_mem hd) l ?_
    rw [Visit.list?, hname, Option.bind_some, hlist]
    rfl
  refine ⟨m, l, hm, hregistered, hselections, hltype, hconnection, ?_, ?_⟩
  · rw [gains, connected, hmembers, ← htag, hasDirective_of_mem hd, Bool.true_and, hconnection]
  · rw [settledDirective, connected, hinside, hname, hconnection]
    rfl

end Field

/-! ## 4. The list pass -/

/-- **The two looks at a list field agree.**  In a pass that succeeds with no lists registered
before, a field with a list directive and a known type gains the page information if and only if its
directive gains the mark of a connection, and if and only if its list is one.  The list selects what
the members of the field select in the document, and has their type. -/
theorem addListFragments_classifies {documents new : List Document}
    (h : (addListFragments c [] documents).result = .ok new) :
    ∃ tagged, (addListFragments c [] documents).documents = tagged ++ new ∧
      List.Forall₂ (fun d d' => List.Forall₂ (fun e e' => e'.ancestor = e.ancestor ∧
          ChangedBy (Classifies c (addListFragments c [] documents).registry) [e.ancestor]
            e.selections e'.selections) d.executables d'.executables) documents tagged := by
  obtain ⟨tagged, st, htag, herrors, hregistry, hdocuments, -⟩ := addListFragments_eq_ok h
  refine ⟨tagged, hdocuments, ?_⟩
  rw [hregistry]
  have hend : LeadsTo st st.registry true := ⟨herrors, fun _ _ hl => hl, fun _ => rfl⟩
  have hsettles := ((tagDocuments_settles (fun d _ => d.marksIn_true) htag).2 st.registry hend).2
  obtain ⟨-, hafter, hfaults⟩ := tagDocuments_run htag
  rw [herrors, List.nil_append] at hfaults
  have hstays := (get?_registryAfter hfaults.symm).2
  rw [← hafter] at hstays
  have hpairs := (List.forall₂_and_left _ _).mpr ⟨fun d hd => hd, hsettles⟩
  refine hpairs.imp fun d d' ⟨hd, hsettled⟩ => ?_
  have hvisits := everyIn_of_visits_document (d := d) (fun _ _ _ hv => hv) fun v hv =>
    hstays v (List.mem_flatMap.mpr ⟨d, hd, hv⟩)
  rw [hsettled.executables, List.forall₂_map_right_iff, List.forall₂_same]
  intro e he
  have hfields := ((hsettled.registered e he).and (hvisits e he)).mono
    fun _ _ _ ⟨hr, hv⟩ => classifies_settled hr hv
  cases e <;> exact ⟨rfl, changedBy_settledAll hfields⟩

namespace Sample

/-- A list of users with their friends, and the friends of these: connections in one another. -/
def friendsOfFriends : List Document :=
  [operation .query "Users" [listField "users" "Users" [listField "friends" "Friends"
    [plainField "edges" [plainField "node" [listField "friends" "FriendsOfFriends"
      [plainField "edges" [plainField "node" [plainField "id" []]]]]]]]]]

end Sample

open Sample in
theorem friendsOfFriends_classified :
    ∃ new, (addListFragments (config entities) [] friendsOfFriends).result = .ok new ∧
      ∃ tagged, (addListFragments (config entities) [] friendsOfFriends).documents
          = tagged ++ new ∧
        List.Forall₂ (fun d d' => List.Forall₂ (fun e e' => e'.ancestor = e.ancestor ∧
            ChangedBy (Classifies (config entities)
                (addListFragments (config entities) [] friendsOfFriends).registry) [e.ancestor]
              e.selections e'.selections) d.executables d'.executables)
          friendsOfFriends tagged := by
  obtain ⟨new, hnew⟩ : ∃ new,
      (addListFragments (config entities) [] friendsOfFriends).result = .ok new := ⟨_, rfl⟩
  exact ⟨new, hnew, addListFragments_classifies hnew⟩

open Sample in
/-- Two of the three lists are connections. -/
example : (addListFragments (config entities) [] friendsOfFriends).registry.map
    (fun row => (row.1, row.2.connection))
      = [("Users", false), ("Friends", true), ("FriendsOfFriends", true)] := by
  decide +kernel

end QueryCompiler
