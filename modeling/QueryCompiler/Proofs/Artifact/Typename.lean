import QueryCompiler.Artifact.Typename
import QueryCompiler.Proofs.Artifact.Reference
import QueryCompiler.Proofs.Selection.Compiled
/-
# What the names of types leave as it is

The names of types are put into a definition before it is compiled and sent.  They are leaves, so
they spread nothing and have nothing below them: a definition refers to the same fragments as
before, and the names of types in it are still leaves.
-/
namespace QueryCompiler

/-! ## 1. Selections -/

theorem spreadNamesOf_append (ss rest : List Selection) :
    spreadNamesOf (ss ++ rest) = spreadNamesOf ss ++ spreadNamesOf rest := by
  induction ss with
  | nil => rfl
  | cons s ss ih => rw [List.cons_append, spreadNamesOf, spreadNamesOf, ih, List.append_assoc]

theorem typenamesAreLeavesIn_append (ss rest : List Selection) :
    typenamesAreLeavesIn (ss ++ rest) = (typenamesAreLeavesIn ss && typenamesAreLeavesIn rest) := by
  induction ss with
  | nil => rfl
  | cons s ss ih =>
    rw [List.cons_append, typenamesAreLeavesIn, typenamesAreLeavesIn, ih, Bool.and_assoc]

theorem spreadNamesOf_gainedTypename (s : Schema) (below : List Ancestor) (ss : List Selection) :
    spreadNamesOf (gainedTypename s below ss) = [] := by
  rw [gainedTypename]
  split <;> rfl

theorem typenamesAreLeavesIn_gainedTypename (s : Schema) (below : List Ancestor)
    (ss : List Selection) : typenamesAreLeavesIn (gainedTypename s below ss) = true := by
  rw [gainedTypename]
  split <;> rfl

/-- A leaf stays a leaf. -/
theorem isEmpty_injected (s : Schema) (ancestors below : List Ancestor) (ss : List Selection) :
    (injectTypenames s ancestors ss ++ gainedTypename s below ss).isEmpty = ss.isEmpty := by
  cases ss with
  | nil => rfl
  | cons first ss => rfl

mutual

theorem spreadNames_injectTypename (s : Schema) : ∀ (ancestors : List Ancestor) (sel : Selection),
    spreadNames (injectTypename s ancestors sel) = spreadNames sel
  | ancestors, .field head selections => by
    rw [injectTypename, spreadNames, spreadNames, spreadNamesOf_append,
      spreadNamesOf_gainedTypename, List.append_nil, spreadNamesOf_injectTypenames s _ selections]
  | ancestors, .spread name directives => rfl
  | ancestors, .inline condition directives selections => by
    rw [injectTypename, spreadNames, spreadNames, spreadNamesOf_injectTypenames s _ selections]

/-- **Names of types spread nothing.** -/
theorem spreadNamesOf_injectTypenames (s : Schema) :
    ∀ (ancestors : List Ancestor) (ss : List Selection),
      spreadNamesOf (injectTypenames s ancestors ss) = spreadNamesOf ss
  | _, [] => rfl
  | ancestors, sel :: ss => by
    rw [injectTypenames, spreadNamesOf, spreadNamesOf, spreadNames_injectTypename s ancestors sel,
      spreadNamesOf_injectTypenames s ancestors ss]

end

mutual

theorem typenamesAreLeaves_injectTypename (s : Schema) :
    ∀ (ancestors : List Ancestor) (sel : Selection), sel.typenamesAreLeaves = true →
      (injectTypename s ancestors sel).typenamesAreLeaves = true
  | ancestors, .field head selections, h => by
    rw [Selection.typenamesAreLeaves, Bool.and_eq_true] at h
    rw [injectTypename, Selection.typenamesAreLeaves, Bool.and_eq_true, isEmpty_injected,
      typenamesAreLeavesIn_append, typenamesAreLeavesIn_gainedTypename, Bool.and_true]
    exact ⟨h.1, typenamesAreLeavesIn_injectTypenames s _ selections h.2⟩
  | ancestors, .spread name directives, h => h
  | ancestors, .inline condition directives selections, h => by
    rw [Selection.typenamesAreLeaves] at h
    rw [injectTypename, Selection.typenamesAreLeaves]
    exact typenamesAreLeavesIn_injectTypenames s _ selections h

/-- **Names of types are leaves.** -/
theorem typenamesAreLeavesIn_injectTypenames (s : Schema) :
    ∀ (ancestors : List Ancestor) (ss : List Selection), typenamesAreLeavesIn ss = true →
      typenamesAreLeavesIn (injectTypenames s ancestors ss) = true
  | _, [], _ => rfl
  | ancestors, sel :: ss, h => by
    rw [typenamesAreLeavesIn, Bool.and_eq_true] at h
    rw [injectTypenames, typenamesAreLeavesIn, Bool.and_eq_true]
    exact ⟨typenamesAreLeaves_injectTypename s ancestors sel h.1,
      typenamesAreLeavesIn_injectTypenames s ancestors ss h.2⟩

end

/-! ## 2. Definitions -/

namespace Executable

variable (s : Schema)

theorem selections_withTypenames (e : Executable) :
    (e.withTypenames s).selections = injectTypenames s [e.ancestor] e.selections := by
  cases e <;> rfl

theorem spreadNamesOf_withTypenames (e : Executable) :
    spreadNamesOf (e.withTypenames s).selections = spreadNamesOf e.selections := by
  rw [selections_withTypenames, spreadNamesOf_injectTypenames]

theorem ancestor_withTypenames (e : Executable) : (e.withTypenames s).ancestor = e.ancestor := by
  cases e <;> rfl

theorem fragmentName?_withTypenames (e : Executable) :
    (e.withTypenames s).fragmentName? = e.fragmentName? := by
  cases e <;> rfl

end Executable

theorem Fragment.spreadNamesOf_withTypenames (s : Schema) (f : Fragment) :
    spreadNamesOf (f.withTypenames s).selections = spreadNamesOf f.selections :=
  spreadNamesOf_injectTypenames s _ f.selections

end QueryCompiler
