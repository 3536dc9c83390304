import Mathlib.Algebra.Group.Defs
import QueryCompiler.Proofs.Selection.Pieces
/-
# One tree behind the other

Trees without a key twice on a level are closed under merging, and merging is associative on them
with the empty tree as its unit on both sides: they are a monoid (`KeyedTree`).  The condition is
needed, because the rows of the second tree are merged in one by one, and a key that comes twice in
it becomes one row.

Compiling is a homomorphism into this monoid: what selections are compiled to one behind the other
is what the first ones are compiled to, with what the others are compiled to merged in
(`mergeInto_monoid_forest_append`).  It fails if one of the two fails, and with the failure of the
first if both do.
-/
namespace QueryCompiler

/-- A selection tree without a key twice on any level. -/
@[ext]
structure KeyedTree where
  tree : SelectionTree
  distinct : Entry.DistinctTree tree

namespace KeyedTree

instance : Mul KeyedTree where
  mul a b := ⟨Entry.mergeInto a.tree b.tree, Entry.distinctTree_mergeInto a.distinct b.distinct⟩

instance : One KeyedTree where
  one := ⟨[], by rw [Entry.DistinctTree]; trivial⟩

theorem tree_mul (a b : KeyedTree) : (a * b).tree = Entry.mergeInto a.tree b.tree := rfl

theorem tree_one : (1 : KeyedTree).tree = [] := rfl

instance : Monoid KeyedTree where
  mul_assoc a b c := KeyedTree.ext (SelectionTree.mergeInto_assoc a.distinct b.distinct c.distinct)
  one_mul a := KeyedTree.ext (Entry.nil_mergeInto a.distinct.nodup)
  mul_one a := KeyedTree.ext (by rw [tree_mul, tree_one, Entry.mergeInto])

/-- Without the condition the empty tree is no unit: two rows with one key become one. -/
example (h : EntryHead) : Entry.mergeInto [] [("id", .node h none), ("id", .node h none)]
    = [("id", .node (h.merge h) none)] := rfl

end KeyedTree

namespace Compilation

variable {x : Compilation} {follow : Follow} {parent : Option NamedType} {masked : Bool}

/-- Selections are compiled in their order, the later ones into the tree of the earlier ones. -/
theorem forest_append (merged : SelectionTree) (ss rest : List Selection) :
    x.forest follow parent masked merged (ss ++ rest)
      = x.forest follow parent masked merged ss >>= fun t =>
          x.forest follow parent masked t rest := by
  induction ss generalizing merged with
  | nil =>
    rw [List.nil_append, forest]
    rfl
  | cons s ss ih =>
    rw [List.cons_append, forest, forest, bind_assoc]
    exact bind_congr fun entries => ih (Entry.mergeInto merged entries)

/-- **Compiling is a homomorphism.** -/
theorem forest_mul (hf : FollowsDistinctly follow) (ss rest : List Selection) :
    x.forest follow parent masked [] (ss ++ rest) = do
      let first ← x.forest follow parent masked [] ss
      let second ← x.forest follow parent masked [] rest
      return Entry.mergeInto first second := by
  rw [forest_append]
  cases hfirst : x.forest follow parent masked [] ss with
  | error e => rfl
  | ok first =>
    change x.forest follow parent masked first rest = _
    rw [forest_merged hf (forest_distinct hf hfirst)]
    cases x.forest follow parent masked [] rest <;> rfl

end Compilation

/-- **Merging is a monoid, and compiling is a homomorphism into it.** -/
theorem mergeInto_monoid_forest_append :
    (∀ a b c : KeyedTree, Entry.mergeInto (Entry.mergeInto a.tree b.tree) c.tree
      = Entry.mergeInto a.tree (Entry.mergeInto b.tree c.tree)) ∧
    (∀ a : KeyedTree, Entry.mergeInto [] a.tree = a.tree ∧ Entry.mergeInto a.tree [] = a.tree) ∧
    (∀ a b : KeyedTree, Entry.DistinctTree (Entry.mergeInto a.tree b.tree)) ∧
    ∀ (x : Compilation) (depth : Nat) (parent : Option NamedType) (masked : Bool),
      (∀ ss t, x.forest (x.follow depth) parent masked [] ss = .ok t → Entry.DistinctTree t) ∧
      ∀ ss rest, x.forest (x.follow depth) parent masked [] (ss ++ rest) = do
        let first ← x.forest (x.follow depth) parent masked [] ss
        let second ← x.forest (x.follow depth) parent masked [] rest
        return Entry.mergeInto first second :=
  ⟨fun a b c => congrArg KeyedTree.tree (mul_assoc a b c),
    fun a => ⟨congrArg KeyedTree.tree (one_mul a), congrArg KeyedTree.tree (mul_one a)⟩,
    fun a b => (a * b).distinct,
    fun x depth _ _ => ⟨fun _ _ => Compilation.forest_distinct (x.follow_distinct depth),
      Compilation.forest_mul (x.follow_distinct depth)⟩⟩

end QueryCompiler
