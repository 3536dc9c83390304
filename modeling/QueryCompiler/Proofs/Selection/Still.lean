import QueryCompiler.Proofs.Selection.Masked
import QueryCompiler.Proofs.Selection.Pieces
/-
# Without operations

Only mutations ask for operations, and nothing else in a compiled selection depends on them: read as
a query, the selections of a mutation compile to the same tree without operations
(`Compilation.compile_still`).
-/
namespace QueryCompiler

/-- The head without operations. -/
def EntryHead.still (h : EntryHead) : EntryHead := { h with operations := [] }

/-- The selection without operations. -/
def SelectionTree.still (t : SelectionTree) : SelectionTree := Entry.mapTree id EntryHead.still t

namespace SelectionTree

theorem still_mergeInto (t s : SelectionTree) :
    still (Entry.mergeInto t s) = Entry.mergeInto (still t) (still s) :=
  Entry.mapTree_mergeInto (fun _ _ => rfl) s t

theorem headAt?_still (t : SelectionTree) (p : List String) :
    Entry.headAt? (still t) p = (Entry.headAt? t p).map EntryHead.still :=
  Entry.headAt?_mapTree t p

end SelectionTree

namespace Compilation

variable {x : Compilation}

/-- The compilation of the same document as a query. -/
def still (x : Compilation) : Compilation := { x with kind := .query }

theorem entryHead_still {field : FieldHead} {ss : List Selection} {f : SchemaField} {key : String}
    {masked : Bool} {h : EntryHead} (hh : x.entryHead field ss f key masked = .ok h)
    (others : List Selection) : x.still.entryHead field others f key masked = .ok h.still := by
  obtain ⟨listed, hlisted, hh⟩ := entryHead_eq_ok hh
  have hstill : h.still = listed := by
    have heq : listed.still = listed := by
      obtain ⟨list, connection, filters, rfl, -⟩ := EntryHead.withList_eq_ok hlisted
      rfl
    split at hh
    · obtain ⟨operations, -, rfl⟩ := hh
      exact heq
    · exact hh ▸ heq
  rw [hstill]
  simp only [entryHead, bind_eq_ok]
  exact ⟨listed, hlisted, rfl⟩

mutual

theorem tree_still {follow follow' : Follow}
    (hf : ∀ name t, follow name = .ok t → follow' name = .ok (SelectionTree.still t)) :
    ∀ (s : Selection) {parent : Option NamedType} {masked : Bool} {t : SelectionTree},
      x.tree follow parent masked s = .ok t →
        x.still.tree follow' parent masked s = .ok (SelectionTree.still t)
  | .field head selections, parent, masked, t, h => by
    rw [tree] at h ⊢
    split at h
    · rename_i hname
      rw [if_pos hname, ← Except.ok.inj h]
      rfl
    · rename_i hname
      rw [if_neg hname]
      simp only [bind_eq_ok, pure_eq_ok] at h ⊢
      obtain ⟨f, hdef, key, hkey, below, hbelow, head', hhead, rfl⟩ := h
      refine ⟨f, hdef, key, hkey, _, forest_still hf selections hbelow, _,
        entryHead_still hhead selections, ?_⟩
      cases selections <;> rfl
  | .spread name _, _, _, t, h => by
    rw [tree] at h ⊢
    exact hf name t h
  | .inline none _ selections, _, _, _, h => by
    rw [tree] at h ⊢
    exact forest_still hf selections h
  | .inline (some _) _ selections, _, _, _, h => by
    rw [tree] at h ⊢
    exact forest_still hf selections h

theorem forest_still {follow follow' : Follow}
    (hf : ∀ name t, follow name = .ok t → follow' name = .ok (SelectionTree.still t)) :
    ∀ (ss : List Selection) {parent : Option NamedType} {masked : Bool} {merged t : SelectionTree},
      x.forest follow parent masked merged ss = .ok t →
        x.still.forest follow' parent masked (SelectionTree.still merged) ss
          = .ok (SelectionTree.still t)
  | [], _, _, _, _, h => by
    rw [forest] at h ⊢
    rw [Except.ok.inj h]
  | s :: ss, _, _, merged, _, h => by
    rw [forest, bind_eq_ok] at h ⊢
    obtain ⟨entries, hentries, h⟩ := h
    refine ⟨_, tree_still hf s hentries, ?_⟩
    rw [← SelectionTree.still_mergeInto]
    exact forest_still hf ss h

end

theorem follow_still : ∀ {depth : Nat} {name : String} {t : SelectionTree},
    x.follow depth name = .ok t → x.still.follow depth name = .ok (SelectionTree.still t)
  | 0, _, _, h => absurd h follow_zero_ne_ok
  | depth + 1, name, t, h => by
    obtain ⟨f, hname, h⟩ := follow_succ_eq_ok.mp h
    exact follow_succ_eq_ok.mpr ⟨f, hname, forest_still (fun _ _ => follow_still) f.selections h⟩

/-- **As a query, a mutation compiles to the same without operations.** -/
theorem compile_still {type : NamedType} {ss : List Selection} {t : SelectionTree}
    (h : x.compile type ss = .ok t) : x.still.compile type ss = .ok (SelectionTree.still t) :=
  forest_still (fun _ _ => follow_still) ss h

end Compilation

end QueryCompiler
