import QueryCompiler.Artifact.Compile
import QueryCompiler.Proofs.Rearranged
import QueryCompiler.Proofs.Selection.Masked
/-
# Contexts that compile alike

What a document is compiled to depends on the schema, on the fragments that names stand for, on the
operations that fields ask for, and on the directives that delete records.  Two contexts in which
these are the same give one artifact (`ArtifactContext.Alike.compile_eq`), whatever the order of
their fragments and lists, and whatever text was generated.
-/
namespace QueryCompiler

/-! ## 1. Selections -/

namespace Compilation

/-- Compilations of one kind with the same schema, fragments and operations. -/
structure Alike (x x' : Compilation) : Prop where
  config : ∃ text, x'.config = { x.config with newSchema := text }
  fragments : Table.Rearranged x.fragments x'.fragments
  operations : ∀ directives selections, listOperations x.config x.registry directives selections
    = listOperations x.config x'.registry directives selections
  kind : x.kind = x'.kind

namespace Alike

variable {x x' : Compilation}

theorem schema_eq (h : Alike x x') : x'.config.schema = x.config.schema := by
  obtain ⟨text, htext⟩ := h.config
  rw [htext]

/-- A field has one head. -/
theorem entryHead_eq (h : Alike x x') (field : FieldHead) (selections : List Selection)
    (definition : SchemaField) (key : String) (masked : Bool) :
    x.entryHead field selections definition key masked
      = x'.entryHead field selections definition key masked := by
  obtain ⟨text, htext⟩ := h.config
  simp only [entryHead, htext, h.kind, h.operations]
  rfl

mutual

theorem tree_eq (h : Alike x x') {follow follow' : Follow}
    (hfollow : ∀ name, follow name = follow' name) :
    ∀ (s : Selection) (parent : Option NamedType) (masked : Bool),
      x.tree follow parent masked s = x'.tree follow' parent masked s
  | .field head selections, parent, masked => by
    simp only [tree, h.schema_eq, h.entryHead_eq, h.forest_eq hfollow selections]
  | .spread name _, _, _ => by
    rw [tree, tree, hfollow]
  | .inline condition _ selections, parent, masked => by
    rw [tree, tree, narrowed_congr h.schema_eq, h.forest_eq hfollow selections]

theorem forest_eq (h : Alike x x') {follow follow' : Follow}
    (hfollow : ∀ name, follow name = follow' name) :
    ∀ (ss : List Selection) (parent : Option NamedType) (masked : Bool) (merged : SelectionTree),
      x.forest follow parent masked merged ss = x'.forest follow' parent masked merged ss
  | [], _, _, _ => by
    rw [forest, forest]
  | s :: ss, parent, masked, merged => by
    simp only [forest, h.tree_eq hfollow s, h.forest_eq hfollow ss]

end

theorem follow_eq (h : Alike x x') : ∀ (depth : Nat) (name : String),
    x.follow depth name = x'.follow depth name
  | 0, name => by
    unfold follow
    rw [h.fragments.get?_eq]
    cases Table.get? x'.fragments name <;> rfl
  | depth + 1, name => by
    unfold follow
    rw [h.fragments.get?_eq]
    cases Table.get? x'.fragments name with
    | none => rfl
    | some f =>
      dsimp only
      rw [h.schema_eq]
      exact h.forest_eq (h.follow_eq depth) f.selections _ _ _

theorem compile_eq (h : Alike x x') (type : NamedType) (selections : List Selection) :
    x.compile type selections = x'.compile type selections := by
  rw [compile, compile, h.fragments.length_eq]
  exact h.forest_eq (h.follow_eq _) selections _ _ _

end Alike

end Compilation

/-! ## 2. References -/

theorem findFragment_rearranged {fragments fragments' : Table String Fragment}
    (h : ∀ name, Table.get? fragments name = Table.get? fragments' name) :
    ∀ (depth : Nat) (found : Table String Fragment) (name : String),
      findFragment fragments depth found name = findFragment fragments' depth found name
  | 0, found, name => by
    unfold findFragment
    rw [h]
    cases Table.get? fragments' name <;> rfl
  | depth + 1, found, name => by
    have hbelow : findFragment fragments depth = findFragment fragments' depth :=
      funext₂ (findFragment_rearranged h depth)
    unfold findFragment
    rw [h]
    cases Table.get? fragments' name with
    | none => rfl
    | some f =>
      dsimp only
      rw [hbelow]

theorem referenced_rearranged {fragments fragments' : Table String Fragment}
    (h : Table.Rearranged fragments fragments') (e : Executable) :
    referenced fragments e = referenced fragments' e := by
  rw [referenced, referenced, h.length_eq, funext₂ (findFragment_rearranged h.get?_eq _)]

/-! ## 3. Artifacts -/

namespace ArtifactContext

/-- Contexts with the same schema, fragments, operations and deletions. -/
structure Alike (x x' : ArtifactContext) : Prop where
  config : ∃ text, x'.config = { x.config with newSchema := text }
  fragments : Table.Rearranged x.fragments x'.fragments
  operations : ∀ directives selections, listOperations x.config x.registry directives selections
    = listOperations x.config x'.registry directives selections
  deletedType : ∀ directive, x.registry.deletedType? x.config directive
    = x'.registry.deletedType? x.config directive

/-- **A document has one artifact** in contexts that are alike. -/
theorem Alike.compile_eq {x x' : ArtifactContext} (h : Alike x x') (d : Document) :
    x.compile d = x'.compile d := by
  obtain ⟨text, htext⟩ := h.config
  have hselections : ∀ main others, Compilation.Alike
      { config := x.config, registry := x.registry,
        fragments := x.compiledFragments main others, kind := d.kind }
      { config := x'.config, registry := x'.registry,
        fragments := x'.compiledFragments main others, kind := d.kind } := fun main others =>
    ⟨h.config, Table.Rearranged.foldl_insert Fragment.name _ h.fragments, h.operations, rfl⟩
  have hdropped : ∀ directive, x.isDropped directive = x'.isDropped directive := fun directive => by
    rw [isDropped, isDropped, h.deletedType, htext]
    rfl
  have hsent : ∀ definitions, x.sent definitions = x'.sent definitions := fun definitions => by
    rw [sent, sent, funext hdropped]
  have hinput : ∀ e, x.input? e = x'.input? e := fun e => by
    cases e with
    | operation o => rw [input?, input?, htext]
    | fragment f => rfl
  simp only [compile, referenced_rearranged h.fragments, (hselections _ _).compile_eq, hsent,
    hinput, htext]

end ArtifactContext

end QueryCompiler
