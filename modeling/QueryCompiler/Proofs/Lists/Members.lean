import QueryCompiler.Lists.Connection
import QueryCompiler.Proofs.Outcome
import QueryCompiler.Proofs.Selection.Fields
/-
# What the members of a list are

A list has what its field selects for members, or else the nodes that its field selects
(`members_cases`).  Nodes are looked up twice: by what is selected (`of_selectedNodes?`) and by the
types of the fields `edges` and `node` (`of_nodeType?`).  Both lookups answer the first field of the
name, so selections that come behind do not change the members of a connection
(`membersAt_append`).
-/
namespace QueryCompiler

variable {s : Schema} {ss below nodes : List Selection} {f : SchemaField} {type : NamedType}
  {m : Members}

/-! ## 1. Lookups -/

/-- A lookup answers what is selected below a field of the name. -/
theorem of_selectionsOf? {name : String} (h : selectionsOf? ss name = some below) :
    ∃ head, head.name = name ∧ .field head below ∈ ss := by
  obtain ⟨selection, hmem, hfound⟩ := List.exists_of_findSome?_eq_some h
  cases selection with
  | field head selections =>
    dsimp only at hfound
    split at hfound
    · rename_i hname
      exact ⟨head, hname, Option.some.inj hfound ▸ hmem⟩
    · cases hfound
  | spread _ _ | inline _ _ _ => cases hfound

theorem selectionsOf?_append {name : String} (h : selectionsOf? ss name = some below)
    (rest : List Selection) : selectionsOf? (ss ++ rest) name = some below := by
  rw [selectionsOf?] at h ⊢
  rw [List.findSome?_append, h, Option.some_or]

/-- Nodes are selected below a field `node` that stands below a field `edges`. -/
theorem of_selectedNodes? (h : selectedNodes? ss = some nodes) :
    ∃ below, selectionsOf? ss "edges" = some below ∧ selectionsOf? below "node" = some nodes := by
  rw [selectedNodes?] at h
  split at h
  · rename_i first rest hfound
    obtain rfl := Option.some.inj h
    exact Option.bind_eq_some_iff.mp hfound
  · cases h

theorem selectedNodes?_append (h : selectedNodes? ss = some nodes) (rest : List Selection) :
    selectedNodes? (ss ++ rest) = some nodes := by
  obtain ⟨below, hedges, -⟩ := of_selectedNodes? h
  rw [selectedNodes?, hedges] at h
  rw [selectedNodes?, selectionsOf?_append hedges]
  exact h

/-- The type of the nodes is that of a field `node` of what a field `edges` holds. -/
theorem of_nodeType? {t : NamedType} (h : nodeType? s type = some t) :
    ∃ edges edge node, type.field? "edges" = some edges ∧ s.fieldType? edges = some edge ∧
      edge.field? "node" = some node ∧ s.fieldType? node = some t := by
  simp only [nodeType?, Option.bind_eq_bind, Option.bind_eq_some_iff] at h
  obtain ⟨edges, hedges, h⟩ := h
  split at h
  · cases h
  · simp only [Option.bind_eq_some_iff] at h
    obtain ⟨edge, hedge, node, hnode, ht⟩ := h
    exact ⟨edges, edge, node, hedges, hedge, hnode, ht⟩

/-! ## 2. Members -/

/-- **The members of a field** are what it holds itself, or the nodes of a field that pages by
cursor. -/
theorem members_cases (h : members s f type ss = .ok m) :
    m = { selections := ss, type, connection := false } ∨
      ∃ arguments nodes node, argumentTypes f = .ok arguments ∧ pagesByCursor arguments = true ∧
        selectedNodes? ss = some nodes ∧ nodeType? s type = some node ∧
          m = { selections := nodes, type := node, connection := true } := by
  rw [members] at h
  simp only [bind_eq_ok] at h
  obtain ⟨arguments, harguments, h⟩ := h
  split at h
  · exact .inl (pure_eq_ok.mp h).symm
  · rename_i hpages
    split at h
    · rename_i nodes node hnodes hnode
      exact .inr ⟨arguments, nodes, node, harguments, by simpa using hpages, hnodes, hnode,
        (pure_eq_ok.mp h).symm⟩
    · exact .inl (pure_eq_ok.mp h).symm

/-- Members are told of a field with a type. -/
theorem membersAt_eq_some {ancestors : List Ancestor} {name : String}
    (h : membersAt s ancestors name ss = .ok (some (f, m))) :
    ∃ type, s.fieldAt ancestors name = some f ∧ s.fieldType? f = some type ∧
      members s f type ss = .ok m := by
  rw [membersAt] at h
  split at h
  · exact absurd (Except.ok.inj h) nofun
  · rename_i f' hf
    split at h
    · exact absurd (Except.ok.inj h) nofun
    · rename_i type htype
      simp only [bind_eq_ok, pure_eq_ok, Option.some.injEq, Prod.mk.injEq] at h
      obtain ⟨m, hm, rfl, rfl⟩ := h
      exact ⟨type, hf, htype, hm⟩

theorem members_append (h : members s f type ss = .ok m) (hconnection : m.connection = true)
    (rest : List Selection) : members s f type (ss ++ rest) = .ok m := by
  obtain rfl | ⟨arguments, nodes, node, harguments, hpages, hnodes, hnode, rfl⟩ := members_cases h
  · cases hconnection
  · simp only [members, harguments, bind, Except.bind, hpages, selectedNodes?_append hnodes, hnode]
    rfl

/-- **What comes behind the selections of a connection** does not change its members. -/
theorem membersAt_append {ancestors : List Ancestor} {name : String}
    (h : membersAt s ancestors name ss = .ok (some (f, m))) (hconnection : m.connection = true)
    (rest : List Selection) : membersAt s ancestors name (ss ++ rest) = .ok (some (f, m)) := by
  obtain ⟨type, hf, htype, hm⟩ := membersAt_eq_some h
  simp only [membersAt, hf, htype, members_append hm hconnection rest]
  rfl

end QueryCompiler
