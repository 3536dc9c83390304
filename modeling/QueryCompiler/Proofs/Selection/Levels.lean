import QueryCompiler.Proofs.Selection.Trimming
/-
# Levels of a selection

Inline fragments and spreads add their fields to the level where they stand, so a level is more
than one list of selections: it goes on in the inline fragments and fragments that stand on it, and
ends at its fields.

* `Spreads`: some selections spread a fragment, as it stands there;
* `SpreadsOnLevel`: some selections spread a fragment anywhere on their level.
-/
namespace QueryCompiler

/-- One of the selections is a spread of the fragment. -/
def Spreads (ss : List Selection) (name : String) : Prop :=
  ∃ directives, Selection.spread name directives ∈ ss

/-- The selections spread the fragment on their level: as it stands there, within an inline
fragment, or within another fragment on the level; never below a field. -/
inductive SpreadsOnLevel (fragment? : String → Option Fragment) : List Selection → String → Prop
  | spread {name : String} {directives : List Directive} {rest : List Selection} :
      SpreadsOnLevel fragment? (.spread name directives :: rest) name
  | within {other name : String} {directives : List Directive} {f : Fragment}
      {rest : List Selection} : fragment? other = some f →
      SpreadsOnLevel fragment? f.selections name →
      SpreadsOnLevel fragment? (.spread other directives :: rest) name
  | inline {condition : Option String} {directives : List Directive}
      {selections rest : List Selection} {name : String} :
      SpreadsOnLevel fragment? selections name →
      SpreadsOnLevel fragment? (.inline condition directives selections :: rest) name
  | later {s : Selection} {rest : List Selection} {name : String} :
      SpreadsOnLevel fragment? rest name → SpreadsOnLevel fragment? (s :: rest) name

theorem SpreadsOnLevel.append {fragment? : String → Option Fragment} {ss : List Selection}
    {name : String} (h : SpreadsOnLevel fragment? ss name) (rest : List Selection) :
    SpreadsOnLevel fragment? (ss ++ rest) name := by
  induction h with
  | spread => exact .spread
  | within hf h _ => exact .within hf h
  | inline h _ => exact .inline h
  | later _ ih => exact .later ih

/-- A place that asks for the name of a type has no selections, where no such field has any. -/
theorem Expands.selections_of_typename {fragment? : String → Option Fragment} {site : Site}
    {ss : List Selection} {os : List Occurrence} (h : Expands fragment? site ss os)
    (hss : typenamesAreLeavesIn ss = true)
    (hfragments : ∀ name f, fragment? name = some f → typenamesAreLeavesIn f.selections = true) :
    ∀ o ∈ os, o.field.name = typenameField → o.selections = [] := by
  induction h with
  | nil => exact fun _ ho => absurd ho List.not_mem_nil
  | field _ _ ihb ih =>
    rw [typenamesAreLeavesIn, Selection.typenamesAreLeaves, Bool.and_eq_true, Bool.and_eq_true,
      Bool.or_eq_true, decide_eq_true_iff] at hss
    rw [List.forall_mem_append, List.forall_mem_cons, List.forall_mem_map]
    refine ⟨⟨fun hname => ?_, ihb hss.1.2⟩, ih hss.2⟩
    exact List.isEmpty_iff.mp (hss.1.1.resolve_left fun hne => hne hname)
  | inline _ _ ihb ih =>
    rw [typenamesAreLeavesIn, Selection.typenamesAreLeaves, Bool.and_eq_true] at hss
    exact List.forall_mem_append.mpr ⟨ihb hss.1, ih hss.2⟩
  | spread hf _ _ ihb ih =>
    rw [typenamesAreLeavesIn, Bool.and_eq_true] at hss
    exact List.forall_mem_append.mpr ⟨ihb (hfragments _ _ hf), ih hss.2⟩

end QueryCompiler
