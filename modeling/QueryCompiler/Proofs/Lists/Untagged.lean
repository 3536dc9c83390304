import QueryCompiler.Proofs.Lists.Logs
/-
# Documents without tags

A document in which no directive makes a list or pages a field is of no interest to the passes.  The
pagination pass finds no field in it, and the list pass goes through all of its directives, replaces
none of them, and hands back the document that it was given.

* `definition_untagged`: a definition is gone through and stays as it is;
* `tagged_untagged`, `paginatedFields_untagged`: what the two passes make of the document.
-/
namespace QueryCompiler

/-- No directive of these lists makes a list or pages a field. -/
def Config.Untagged (c : Config) (lists : List (List Directive)) : Prop :=
  ∀ ds ∈ lists, ∀ d ∈ ds, ¬ c.Tags d

instance (c : Config) (lists : List (List Directive)) : Decidable (c.Untagged lists) :=
  inferInstanceAs (Decidable (∀ ds ∈ lists, ∀ d ∈ ds, ¬ c.Tags d))

/-- No directive of a document makes a list or pages a field. -/
def Document.Untagged (c : Config) (d : Document) : Prop :=
  c.Untagged (d.definitions.flatMap (·.directiveLists))

instance (c : Config) (d : Document) : Decidable (d.Untagged c) :=
  inferInstanceAs (Decidable (c.Untagged _))

variable {c : Config}

theorem untagged_cons {ds : List Directive} {lists : List (List Directive)} :
    c.Untagged (ds :: lists) ↔ (∀ d ∈ ds, ¬ c.Tags d) ∧ c.Untagged lists :=
  List.forall_mem_cons

theorem untagged_append {lists others : List (List Directive)} :
    c.Untagged (lists ++ others) ↔ c.Untagged lists ∧ c.Untagged others :=
  List.forall_mem_append

theorem hasDirective_untagged {ds : List Directive} (h : ∀ d ∈ ds, ¬ c.Tags d) {name : String}
    (hname : name = c.listDirective ∨ name = c.paginateDirective) :
    hasDirective ds name = false := by
  rw [Bool.eq_false_iff]
  intro hhas
  obtain ⟨d, hd, rfl⟩ := Tagging.exists_hasDirective hhas
  exact h d hd hname

/-! ## 1. The list pass -/

namespace Tagging

variable (filename : String)

theorem mapM_directive_untagged {ds : List Directive} (h : ∀ d ∈ ds, ¬ c.Tags d)
    (ancestors : List Ancestor) (target : Option Target) :
    ds.mapM (directive c filename ancestors target) = pure ds := by
  refine mapM_eq_pure fun d hd => ?_
  rw [directive, if_neg (h d hd)]

theorem directives_untagged {ds : List Directive} (h : ∀ d ∈ ds, ¬ c.Tags d) :
    directives c filename ds = pure ds :=
  mapM_directive_untagged filename h [] none

mutual

theorem selection_untagged : ∀ (s : Selection) (ancestors : List Ancestor),
    c.Untagged s.directiveLists → selection c filename ancestors s = pure s
  | .field head ss, ancestors, h => by
    obtain ⟨hhead, hbelow⟩ := untagged_cons.mp h
    have hgained : gained c ancestors head ss = pure [] := by
      rw [gained, hasDirective_untagged hhead (.inl rfl)]
      rfl
    rw [selection, hgained, pure_bind, mapM_directive_untagged filename hhead, pure_bind,
      selections_untagged ss _ hbelow, pure_bind, List.append_nil]
  | .spread name ds, ancestors, h => by
    rw [selection, directives_untagged filename (h ds List.mem_cons_self), pure_bind]
  | .inline condition ds ss, ancestors, h => by
    obtain ⟨hds, hbelow⟩ := untagged_cons.mp h
    rw [selection, directives_untagged filename hds, pure_bind, selections_untagged ss _ hbelow,
      pure_bind]

theorem selections_untagged : ∀ (ss : List Selection) (ancestors : List Ancestor),
    c.Untagged (directiveListsOf ss) → selections c filename ancestors ss = pure ss
  | [], _, _ => by rw [selections]
  | s :: ss, ancestors, h => by
    obtain ⟨hs, hss⟩ := untagged_append.mp h
    rw [selections, selection_untagged s ancestors hs, pure_bind, selections_untagged ss _ hss,
      pure_bind]

end

/-- **A definition without tags** stays as it is. -/
theorem definition_untagged {d : Definition} (h : c.Untagged d.directiveLists) :
    definition c filename d = pure d := by
  have hdirectives : ∀ ds ∈ d.directiveLists, directives c filename ds = pure ds :=
    fun ds hds => directives_untagged filename (h ds hds)
  cases d with
  | operation o =>
    obtain ⟨hdeclarations, hrest⟩ := untagged_append.mp h
    obtain ⟨ho, hss⟩ := untagged_cons.mp hrest
    have hvariables : o.declarations.mapM (fun v => do
        return { v with directives := ← directives c filename v.directives })
          = (pure o.declarations : Tagging _) := by
      refine mapM_eq_pure fun v hv => ?_
      rw [directives_untagged filename (hdeclarations _ (List.mem_map_of_mem hv)), pure_bind]
    rw [definition, hvariables, pure_bind, directives_untagged filename ho, pure_bind,
      selections_untagged filename _ _ hss, pure_bind]
  | fragment f =>
    obtain ⟨hf, hss⟩ := untagged_cons.mp h
    rw [definition, directives_untagged filename hf, pure_bind,
      selections_untagged filename _ _ hss, pure_bind]
  | schema s =>
    rw [definition, SchemaDefinition.traverseDirectives, hdirectives _ List.mem_cons_self,
      pure_bind, map_pure]
  | type t =>
    obtain ⟨ht, hbody⟩ := List.forall_mem_cons.mp hdirectives
    rw [definition, TypeDefinition.traverseDirectives, ht, pure_bind,
      TypeBody.traverseDirectives_eq_pure hbody, pure_bind, map_pure]
  | directive d =>
    rw [definition, DirectiveDefinition.traverseDirectives, mapM_inputValues_eq_pure hdirectives,
      pure_bind, map_pure]

end Tagging

/-- **The list pass** hands back a document without tags. -/
theorem tagged_untagged {d : Document} (h : d.Untagged c) : d.tagged c = .ok d := by
  have hpass : d.definitions.mapM (Tagging.definition c d.filename) = pure d.definitions :=
    mapM_eq_pure fun definition hdefinition => Tagging.definition_untagged _ fun ds hds =>
      h ds (List.mem_flatMap.mpr ⟨definition, hdefinition, hds⟩)
  rw [Document.tagged, tagDocument, hpass]
  rfl

/-! ## 2. The pagination pass -/

mutual

theorem selection_paginatedFields_untagged : ∀ (s : Selection) (ancestors : List Ancestor),
    c.Untagged s.directiveLists → s.paginatedFields c ancestors = []
  | .field head ss, ancestors, h => by
    obtain ⟨hhead, hbelow⟩ := untagged_cons.mp h
    have hpaginated : isPaginated c head ss = false := by
      rw [isPaginated, hasDirective_untagged hhead (.inr rfl), Bool.false_and]
    rw [Selection.paginatedFields, hpaginated, paginatedFieldsOf_untagged ss _ hbelow]
    rfl
  | .spread _ _, _, _ => rfl
  | .inline condition ds ss, ancestors, h =>
    paginatedFieldsOf_untagged ss _ (untagged_cons.mp h).2

theorem paginatedFieldsOf_untagged : ∀ (ss : List Selection) (ancestors : List Ancestor),
    c.Untagged (directiveListsOf ss) → paginatedFieldsOf c ancestors ss = []
  | [], _, _ => rfl
  | s :: ss, ancestors, h => by
    obtain ⟨hs, hss⟩ := untagged_append.mp h
    rw [paginatedFieldsOf, selection_paginatedFields_untagged s ancestors hs,
      paginatedFieldsOf_untagged ss ancestors hss, List.append_nil]

end

/-- **The pagination pass** finds no field in a definition without tags. -/
theorem paginatedFields_untagged {d : Definition} (h : c.Untagged d.directiveLists) :
    d.paginatedFields c = [] := by
  cases d with
  | operation o =>
    exact paginatedFieldsOf_untagged _ _ (untagged_cons.mp (untagged_append.mp h).2).2
  | fragment f => exact paginatedFieldsOf_untagged _ _ (untagged_cons.mp h).2
  | schema _ | type _ | directive _ => rfl

end QueryCompiler
