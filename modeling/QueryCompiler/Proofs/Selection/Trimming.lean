import QueryCompiler.Proofs.Selection.Compiled
import QueryCompiler.Proofs.Selection.Fields
/-
# What stands below the name of a type

A field that asks for the name of a type is compiled to a leaf, whatever is selected below it.
Selections without all that (`trimAll`) compile to the same tree, and in them names of types are
leaves; so what is known of such selections is known of all (`Compilation.compile_shows_trimmed`).
-/
namespace QueryCompiler

/-! ## 1. Trimmed selections -/

mutual

/-- The selection without what stands below the names of types. -/
def Selection.trimmed : Selection → Selection
  | .field head selections =>
    .field head (if head.name = typenameField then [] else trimAll selections)
  | .spread name directives => .spread name directives
  | .inline condition directives selections => .inline condition directives (trimAll selections)

def trimAll : List Selection → List Selection
  | [] => []
  | s :: selections => s.trimmed :: trimAll selections

end

def Fragment.trimmed (f : Fragment) : Fragment := { f with selections := trimAll f.selections }

/-- The compilation with trimmed fragments. -/
def Compilation.trimmed (x : Compilation) : Compilation :=
  { x with fragments := x.fragments.map fun row => (row.1, row.2.trimmed) }

theorem isEmpty_trimAll (ss : List Selection) : (trimAll ss).isEmpty = ss.isEmpty := by
  cases ss <;> rfl

mutual

theorem typenamesAreLeaves_trimmed : ∀ s : Selection, s.trimmed.typenamesAreLeaves = true
  | .field head selections => by
    rw [Selection.trimmed, Selection.typenamesAreLeaves]
    by_cases h : head.name = typenameField
    · rw [if_pos h, List.isEmpty_nil, Bool.or_true, Bool.true_and, typenamesAreLeavesIn]
    · rw [if_neg h, typenamesAreLeavesIn_trimAll selections, Bool.and_true, Bool.or_eq_true]
      exact .inl (decide_eq_true h)
  | .spread _ _ => rfl
  | .inline condition directives selections => by
    rw [Selection.trimmed, Selection.typenamesAreLeaves, typenamesAreLeavesIn_trimAll selections]

theorem typenamesAreLeavesIn_trimAll : ∀ ss : List Selection,
    typenamesAreLeavesIn (trimAll ss) = true
  | [] => rfl
  | s :: ss => by
    rw [trimAll, typenamesAreLeavesIn, typenamesAreLeaves_trimmed s,
      typenamesAreLeavesIn_trimAll ss, Bool.and_true]

end

/-- The property stays when everything below the names of types is taken out of the selections. -/
def KeptByTrimming (P : FieldProperty) : Prop :=
  ∀ ancestors head ss, P ancestors head ss →
    P ancestors head (if head.name = typenameField then [] else trimAll ss)

mutual

theorem every_trimmed {P : FieldProperty} (hkept : KeptByTrimming P) :
    ∀ {s : Selection} {ancestors : List Ancestor}, s.Every P ancestors → s.trimmed.Every P ancestors
  | .field head selections, ancestors, h => by
    rw [Selection.Every] at h
    rw [Selection.trimmed, Selection.Every]
    refine ⟨hkept _ _ _ h.1, ?_⟩
    split
    · exact everyIn_nil _
    · exact everyIn_trimAll hkept h.2
  | .spread _ _, _, h => h
  | .inline condition directives selections, ancestors, h => by
    rw [Selection.Every] at h
    rw [Selection.trimmed, Selection.Every]
    exact everyIn_trimAll hkept h

theorem everyIn_trimAll {P : FieldProperty} (hkept : KeptByTrimming P) :
    ∀ {ss : List Selection} {ancestors : List Ancestor},
      EveryIn P ancestors ss → EveryIn P ancestors (trimAll ss)
  | [], _, h => h
  | s :: ss, ancestors, h => by
    rw [EveryIn] at h
    rw [trimAll, EveryIn]
    exact ⟨every_trimmed hkept h.1, everyIn_trimAll hkept h.2⟩

end

/-! ## 2. They compile to the same -/

theorem listOperations_trimAll (c : Config) (r : Registry) (directives : List Directive)
    (ss : List Selection) :
    listOperations c r directives (trimAll ss) = listOperations c r directives ss := by
  have hedits : ∀ ss : List Selection, (trimAll ss).mapM (edit? c r) = ss.mapM (edit? c r) := by
    intro ss
    induction ss with
    | nil => rfl
    | cons s ss ih =>
      have hs : edit? c r s.trimmed = edit? c r s := by cases s <;> rfl
      rw [trimAll, List.mapM_cons, List.mapM_cons, hs, ih]
  rw [listOperations, listOperations, hedits]

namespace Compilation

variable (x : Compilation)

theorem entryHead_trimAll (field : FieldHead) (ss : List Selection) (f : SchemaField)
    (key : String) (masked : Bool) :
    x.trimmed.entryHead field (trimAll ss) f key masked = x.entryHead field ss f key masked := by
  have hoperations :
      listOperations x.trimmed.config x.trimmed.registry field.directives (trimAll ss)
        = listOperations x.config x.registry field.directives ss :=
    listOperations_trimAll x.config x.registry field.directives ss
  rw [entryHead, entryHead, hoperations]
  rfl

mutual

theorem tree_trimmed (follow : Follow) : ∀ (s : Selection) (parent : Option NamedType)
    (masked : Bool), x.trimmed.tree follow parent masked s.trimmed = x.tree follow parent masked s
  | .field head selections, parent, masked => by
    rw [Selection.trimmed, tree, tree]
    by_cases h : head.name = typenameField
    · rw [if_pos h, if_pos h]
    · simp only [if_neg h, forest_trimAll follow selections, entryHead_trimAll, isEmpty_trimAll]
      rfl
  | .spread name directives, parent, masked => rfl
  | .inline condition directives selections, parent, masked => by
    rw [Selection.trimmed, tree, tree, forest_trimAll follow selections]
    rfl

theorem forest_trimAll (follow : Follow) : ∀ (ss : List Selection) (parent : Option NamedType)
    (masked : Bool) (merged : SelectionTree),
    x.trimmed.forest follow parent masked merged (trimAll ss)
      = x.forest follow parent masked merged ss
  | [], _, _, _ => rfl
  | s :: ss, parent, masked, merged => by
    rw [trimAll, forest, forest, tree_trimmed follow s]
    simp only [forest_trimAll follow ss]

end

theorem get?_trimmed (name : String) :
    Table.get? x.trimmed.fragments name = (Table.get? x.fragments name).map Fragment.trimmed :=
  Table.get?_map Fragment.trimmed x.fragments name

theorem follow_trimmed : ∀ depth, x.trimmed.follow depth = x.follow depth
  | 0 => by
    funext name
    unfold follow
    rw [get?_trimmed]
    cases Table.get? x.fragments name <;> rfl
  | depth + 1 => by
    funext name
    unfold follow
    rw [get?_trimmed]
    cases Table.get? x.fragments name with
    | none => rfl
    | some f =>
      have hf : x.trimmed.forest (x.trimmed.follow depth)
            (x.config.schema.type? f.condition) true [] (trimAll f.selections)
          = x.forest (x.follow depth) (x.config.schema.type? f.condition) true [] f.selections := by
        rw [follow_trimmed depth]
        exact forest_trimAll x _ f.selections _ _ _
      exact hf

/-- **Nothing below the name of a type is looked at.** -/
theorem compile_trimmed (type : NamedType) (ss : List Selection) :
    x.trimmed.compile type (trimAll ss) = x.compile type ss := by
  rw [compile, compile, forest_trimAll, follow_trimmed, trimmed, List.length_map]

/-- **If a selection compiles, its trimmed form has an expansion, and it shows that.** -/
theorem compile_shows_trimmed {ancestor : Ancestor} {type : NamedType}
    (hl : x.config.schema.Leads [ancestor] (some type)) {ss : List Selection} {t : SelectionTree}
    (h : x.compile type ss = .ok t) :
    ∃ rows, x.trimmed.Rows (Table.get? x.trimmed.fragments)
        { fragment := none, ancestors := [ancestor] } (trimAll ss) rows ∧ Shows t rows := by
  have hleaves : x.trimmed.LeavesIn := by
    intro name f hf
    rw [get?_trimmed] at hf
    obtain ⟨g, -, rfl⟩ := Option.map_eq_some_iff.mp hf
    exact typenamesAreLeavesIn_trimAll g.selections
  rw [← x.compile_trimmed] at h
  exact compile_shows hleaves hl (typenamesAreLeavesIn_trimAll ss) h

end Compilation

end QueryCompiler
