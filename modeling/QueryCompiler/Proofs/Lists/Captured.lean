import QueryCompiler.Proofs.Lists.Members
import QueryCompiler.Proofs.Lists.Visits
import QueryCompiler.Proofs.Selection.Missing
/-
# What lists capture of valid documents

A list keeps what its field selects of the members, as it stands in the document: the page
information that the field gains on the way is never part of it (`membersAt_gains`).  So in documents
that select only fields that exist, a list selects only fields that the type of its members has
(`declared_list?`), whichever of the two kinds of members it has.

The pass itself may select fields that do not exist: a connection gains the page information without
a look at its type.  It gains it at a list directive (`Visit.Connects`), so what may be amiss in the
documents that the pass leaves is amiss at such a visit (`everyIn_missing_settledAll`).
-/
namespace QueryCompiler

open Tagging

/-! ## 1. Declared selections -/

/-- The definitions of a document select only fields that exist. -/
def Document.Declared (s : Schema) (d : Document) : Prop :=
  ∀ e ∈ d.executables, s.fieldErrors [e.ancestor] e.selections = []

instance (s : Schema) (d : Document) : Decidable (d.Declared s) :=
  decidable_of_iff
    (∀ e ∈ d.executables, (s.fieldErrors [e.ancestor] e.selections).isEmpty = true) <| by
    simp only [List.isEmpty_iff]
    rfl

/-- The list has members of a type of the schema, and selects only fields that exist. -/
def ListDefinition.Declared (s : Schema) (l : ListDefinition) : Prop :=
  ∃ type, l.type = some type ∧ s.type? type.name = some type ∧
    s.fieldErrors [.fragment type.name] l.selections = []

/-- All lists of a registry select only fields that exist. -/
def Registry.Declared (s : Schema) (r : Registry) : Prop := ∀ row ∈ r, row.2.Declared s

section Members

variable {s : Schema} {E : Error → Prop} {ancestors others : List Ancestor} {ss : List Selection}

/-- Selections lack the same fields wherever they are made against the same type. -/
theorem EveryIn.missing_of_leads {type : Option NamedType} (h : EveryIn (Missing s E) ancestors ss)
    (hleads : s.Leads ancestors type) (hothers : s.Leads others type) :
    EveryIn (Missing s E) others ss := by
  rw [everyIn_missing_iff] at h ⊢
  rwa [fieldErrors_of_leads hothers hleads]

/-- A type of the schema is found under its own name. -/
theorem Schema.type?_name {name : String} {type : NamedType} (h : s.type? name = some type) :
    s.type? type.name = some type := by
  have hname : type.name = name := by simpa using List.find?_some h
  rw [hname, h]

theorem Schema.leads_name {name : String} {type : NamedType} (h : s.type? name = some type) :
    s.Leads [.fragment type.name] (some type) :=
  Schema.type?_name h ▸ s.leads_fragment type.name

/-- **The members of a field** lack no fields but those that its selections lack. -/
theorem missing_members {f : SchemaField} {name : String} {type : NamedType} {m : Members}
    (hleads : s.Leads ancestors (some type)) (htype : s.type? name = some type)
    (hss : EveryIn (Missing s E) ancestors ss) (h : members s f type ss = .ok m) :
    s.type? m.type.name = some m.type ∧
      EveryIn (Missing s E) [.fragment m.type.name] m.selections := by
  obtain rfl | ⟨-, nodes, t, -, -, hnodes, ht, rfl⟩ := members_cases h
  · exact ⟨Schema.type?_name htype, hss.missing_of_leads hleads (Schema.leads_name htype)⟩
  · obtain ⟨edges, edge, node, hedges, hedge, hnode, hnodeType⟩ := of_nodeType? ht
    obtain ⟨below, hbelow, hnodes⟩ := of_selectedNodes? hnodes
    obtain ⟨edgesHead, hedgesName, hedgesMem⟩ := of_selectionsOf? hbelow
    obtain ⟨nodeHead, hnodeName, hnodeMem⟩ := of_selectionsOf? hnodes
    -- from the connection to its edges, and from there to the nodes
    have hinEdges := everyIn_iff.mp hss _ hedgesMem
    rw [Selection.Every] at hinEdges
    have hinNode := everyIn_iff.mp hinEdges.2 _ hnodeMem
    rw [Selection.Every] at hinNode
    have hleadsEdge : s.Leads (ancestors ++ [.field edgesHead]) (some edge) :=
      hedge ▸ hleads.field (hedgesName ▸ hedges)
    have hleadsNode : s.Leads (ancestors ++ [.field edgesHead] ++ [.field nodeHead]) (some t) :=
      hnodeType ▸ hleadsEdge.field (hnodeName ▸ hnode)
    exact ⟨Schema.type?_name hnodeType,
      hinNode.2.missing_of_leads hleadsNode (Schema.leads_name hnodeType)⟩

end Members

/-! ## 2. Fields that lists are made of -/

variable {c : Config} {P : FieldProperty}

theorem gains_cases (ancestors : List Ancestor) (head : FieldHead) (ss : List Selection) :
    gains c ancestors head ss = [] ∨ gains c ancestors head ss = pageInfo ∧
      hasDirective head.directives c.listDirective = true ∧
        connected c ancestors head.name ss = true := by
  rw [gains]
  split
  · rename_i h
    exact .inr ⟨rfl, Bool.and_eq_true_iff.mp h⟩
  · exact .inl rfl

/-- **What a field gains** is no part of the members of its list. -/
theorem membersAt_gains (ancestors : List Ancestor) (head : FieldHead) (ss : List Selection) :
    membersAt c.schema ancestors head.name (ss ++ gains c ancestors head ss)
      = membersAt c.schema ancestors head.name ss := by
  rcases gains_cases (c := c) ancestors head ss with hnone | ⟨-, -, hconnected⟩
  · rw [hnone, List.append_nil]
  · rw [connected] at hconnected
    split at hconnected
    · rename_i f m hm
      rw [hm]
      exact membersAt_append hm hconnected _
    · cases hconnected

/-- A visit on a field with its own selections, throughout which `P` holds, and what it gains. -/
def Visit.Within (c : Config) (P : FieldProperty) (v : Visit) : Prop :=
  ∀ head ss, v.target = some (head, ss) → ∃ own, ss = own ++ gains c v.ancestors head own ∧
    EveryIn P (v.ancestors ++ [.field head]) own

theorem within_elsewhere {filename : String} {lists : List (List Directive)} {v : Visit}
    (h : v ∈ Visit.elsewhere filename lists) : v.Within c P := by
  obtain ⟨ds, -, hds⟩ := List.mem_flatMap.mp h
  obtain ⟨d, -, rfl⟩ := List.mem_map.mp hds
  exact nofun

mutual

theorem within_visits (filename : String) : ∀ (s : Selection) (ancestors : List Ancestor),
    s.Every P ancestors → ∀ v ∈ s.visits c filename ancestors, v.Within c P
  | .field head ss, ancestors, h, v, hv => by
    rw [Selection.Every] at h
    rw [Selection.visits, List.mem_append] at hv
    rcases hv with hv | hv
    · obtain ⟨d, -, rfl⟩ := List.mem_map.mp hv
      intro head' ss' htarget
      obtain ⟨rfl, rfl⟩ := Prod.mk.inj (Option.some.inj htarget)
      exact ⟨ss, rfl, h.2⟩
    · exact within_visitsOf filename ss _ h.2 v hv
  | .spread _ _, _, _, _, hv => within_elsewhere hv
  | .inline condition _ ss, ancestors, h, v, hv => by
    rw [Selection.Every] at h
    rw [Selection.visits, List.mem_append] at hv
    exact hv.elim within_elsewhere (within_visitsOf filename ss _ h v)

theorem within_visitsOf (filename : String) : ∀ (ss : List Selection) (ancestors : List Ancestor),
    EveryIn P ancestors ss → ∀ v ∈ visitsOf c filename ancestors ss, v.Within c P
  | [], _, _, _, hv => absurd hv List.not_mem_nil
  | s :: ss, ancestors, h, v, hv => by
    rw [EveryIn] at h
    rw [visitsOf, List.mem_append] at hv
    exact hv.elim (within_visits filename s _ h.1 v) (within_visitsOf filename ss _ h.2 v)

end

/-- The visits of a document are on fields of its definitions. -/
theorem within_visits_document {d : Document}
    (h : ∀ e ∈ d.executables, EveryIn P [e.ancestor] e.selections) :
    ∀ v ∈ d.visits c, v.Within c P := by
  intro v hv
  obtain ⟨definition, hmem, hv⟩ := List.mem_flatMap.mp hv
  have hof {e : Executable} (he : Executable.ofDefinition? definition = some e) :
      EveryIn P [e.ancestor] e.selections := h e (List.mem_filterMap.mpr ⟨definition, hmem, he⟩)
  cases definition with
  | operation o =>
    rw [Definition.visits, List.mem_append, List.mem_append] at hv
    rcases hv with hv | hv | hv
    · exact within_elsewhere hv
    · exact within_elsewhere hv
    · exact within_visitsOf _ _ _ (hof rfl) v hv
  | fragment f =>
    rw [Definition.visits, List.mem_append] at hv
    exact hv.elim within_elsewhere (within_visitsOf _ _ _ (hof rfl) v)
  | schema _ | type _ | directive _ => exact within_elsewhere hv

/-! ## 3. Registered lists -/

/-- **A list that is registered** selects only fields that exist, if its field does. -/
theorem declared_list? {v : Visit} {l : ListDefinition}
    (hv : v.Within c (Missing c.schema fun _ => False)) (h : v.list? c = some l) :
    l.Declared c.schema := by
  obtain ⟨name, -, hlist⟩ := listAt_of_list? h
  obtain ⟨head, ss, f, m, htarget, hm, -, hselections, hltype, -⟩ := listAt_eq_some hlist
  obtain ⟨own, rfl, hown⟩ := hv head ss htarget
  rw [membersAt_gains] at hm
  obtain ⟨type, hf, htype, hmembers⟩ := membersAt_eq_some hm
  obtain ⟨above, habove, hfield⟩ := Option.bind_eq_some_iff.mp hf
  have hleads : c.schema.Leads (v.ancestors ++ [.field head]) (some type) :=
    htype ▸ (Schema.leads_typeAt habove).field hfield
  obtain ⟨hnamed, hmissing⟩ := missing_members hleads htype hown hmembers
  exact ⟨m.type, hltype, hnamed, hselections ▸ everyIn_missing_false.mp hmissing⟩

theorem mem_foldl_register {ls : List ListDefinition} :
    ∀ {r : Registry} {row : String × ListDefinition},
      row ∈ ls.foldl Registry.register r → row ∈ r ∨ row.2 ∈ ls := by
  induction ls with
  | nil => exact .inl
  | cons l ls ih =>
    intro r row h
    rcases ih h with h | h
    · rcases Table.mem_insert h with h | rfl
      · exact .inl h
      · exact .inr List.mem_cons_self
    · exact .inr (List.mem_cons_of_mem _ h)

/-- **Visits of valid documents** keep the lists of a registry valid. -/
theorem declared_registryAfter {r : Registry} {visits : List Visit} (hr : r.Declared c.schema)
    (hvisits : ∀ v ∈ visits, v.Within c (Missing c.schema fun _ => False)) :
    (registryAfter c r visits).Declared c.schema := by
  intro row hrow
  rcases mem_foldl_register hrow with hrow | hl
  · exact hr row hrow
  · obtain ⟨v, hv, hlist⟩ := List.mem_filterMap.mp hl
    exact declared_list? (hvisits v hv) hlist

/-! ## 4. Gained fields -/

/-- A list directive makes a connection of the field that it stands on. -/
def Visit.Connects (c : Config) (v : Visit) (head : FieldHead) : Prop :=
  v.directive.name = c.listDirective ∧
    ∃ ss, v.target = some (head, ss) ∧ connected c v.ancestors head.name ss = true

/-- What is wrong with the page information that fields gain at some visits satisfies `E`. -/
def GainedErrors (c : Config) (E : Error → Prop) (visits : List Visit) : Prop :=
  ∀ v ∈ visits, ∀ head, v.Connects c head →
    ∀ e ∈ c.schema.fieldErrors (v.ancestors ++ [.field head]) pageInfo, E e

/-- What is wrong with what the field gains satisfies `E`. -/
def MissingGains (c : Config) (E : Error → Prop) : FieldProperty := fun ancestors head ss =>
  ∀ e ∈ c.schema.fieldErrors (ancestors ++ [.field head]) (gains c ancestors head ss), E e

variable {E : Error → Prop}

theorem missingGains_of_visits {filename : String} {ancestors : List Ancestor} {head : FieldHead}
    {ss : List Selection} (h : GainedErrors c E (Visit.ofDirectives filename ancestors
      (some (head, ss ++ gains c ancestors head ss)) head.directives)) :
    MissingGains c E ancestors head ss := by
  rcases gains_cases (c := c) ancestors head ss with hnone | ⟨hgains, hlist, hconnected⟩
  · rw [MissingGains, hnone]
    exact fun e he => absurd he List.not_mem_nil
  · rw [MissingGains, hgains]
    obtain ⟨d, hd, hname⟩ := List.find?_isSome.mp hlist
    have hboth : connected c ancestors head.name (ss ++ gains c ancestors head ss) = true := by
      rw [connected, membersAt_gains]
      exact hconnected
    exact h _ (List.mem_map.mpr ⟨d, hd, rfl⟩) head ⟨of_decide_eq_true hname, _, rfl, hboth⟩

theorem everyIn_missingGains_document {d : Document} (h : GainedErrors c E (d.visits c))
    {e : Executable} (he : e ∈ d.executables) :
    EveryIn (MissingGains c E) [e.ancestor] e.selections := by
  rw [GainedErrors] at h
  refine everyIn_of_visits_document (fun ancestors head ss hv => ?_) h e he
  exact missingGains_of_visits hv

theorem SameAncestors.missing {s : Schema} {ancestors others : List Ancestor}
    (hsame : SameAncestors ancestors others) {ss : List Selection}
    (h : EveryIn (Missing s E) ancestors ss) : EveryIn (Missing s E) others ss := by
  rw [everyIn_missing_iff] at h ⊢
  have htypes : s.typedFieldsOf others ss = s.typedFieldsOf ancestors ss :=
    typedFieldsOf_congr ss fun rest => (SameAncestors.typeAt (by
      rw [SameAncestors, List.map_append, List.map_append, hsame]) s).symm
  rwa [Schema.fieldErrors, htypes]

/-- **What the pass leaves of valid selections** lacks no fields but those of the page information
that it has put in. -/
theorem everyIn_missing_settledAll {ancestors : List Ancestor} {ss : List Selection}
    (hgains : EveryIn (MissingGains c E) ancestors ss)
    (h : EveryIn (Missing c.schema E) ancestors ss) :
    EveryIn (Missing c.schema E) ancestors (settledAll c ancestors ss) := by
  refine everyIn_settledAll ?_ ?_ rfl hgains h
  · intro a o head ss' hsame hmissing
    exact hsame.missing ((everyIn_missing_iff _ _).mpr hmissing)
  · intro a o head ss' hsame _ hmissing
    rw [Missing, ← hsame.typeAt]
    exact hmissing

end QueryCompiler
