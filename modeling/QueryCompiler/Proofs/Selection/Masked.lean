import QueryCompiler.Artifact.Reference
import QueryCompiler.Proofs.Selection.Compiled
import QueryCompiler.Proofs.Selection.KeyTree
/-
# A mask changes nothing else

A fragment is compiled for its own artifact, with its fields in the open, and wherever it is spread,
with all of them masked.  The two trees are the same up to the mask (`SelectionTree.mask`), although
they are compiled from different definitions and with different bounds on the spreads inside each
other:

* `Entry.mapTree_mergeInto`: to change heads in a way that merging respects is to change them before
  or after merging;
* `Compilation.forest_masked`: two compilations of the same selections, one of them masked;
* `Compilation.follow_masked`: two compilations of the same fragments.
-/
namespace QueryCompiler

/-! ## 1. Changed heads -/

namespace Entry

variable {α β : Type} {f : α → β}

theorem mapTree_upsert {k : String} {g : Entry String α → Entry String α}
    {g' : Entry String β → Entry String β} (hg : ∀ e, (g e).map id f = g' (e.map id f))
    (e : Entry String α) : ∀ t : EntryTree String α,
      mapTree id f (Table.upsert t k g e) = Table.upsert (mapTree id f t) k g' (e.map id f)
  | [] => rfl
  | (k', e') :: t => by
    rw [mapTree, id, Table.upsert, Table.upsert]
    split
    · rw [mapTree, id, hg]
    · rw [mapTree, id, mapTree_upsert hg e t]

variable [MergeHead α] [MergeHead β]

/-- To change two heads and to merge them may trade places. -/
def RespectsMerge (f : α → β) : Prop :=
  ∀ a b : α, f (MergeHead.mergeHead a b) = MergeHead.mergeHead (f a) (f b)

mutual

theorem map_merge (hf : RespectsMerge f) :
    ∀ b a : Entry String α, (a.merge b).map id f = (a.map id f).merge (b.map id f)
  | .node h fields, a => by
    rw [merge, Entry.map, Entry.map, merge, hf, mapFields_mergeFields hf fields a.fields,
      fields_map]
    cases a
    rfl

theorem mapFields_mergeFields (hf : RespectsMerge f) : ∀ source target : Option (EntryTree String α),
    mapFields id f (mergeFields target source)
      = mergeFields (target.map (mapTree id f)) (mapFields id f source)
  | none, target => by
    rw [mergeFields, mapFields, mergeFields]
    cases target <;> rfl
  | some source, target => by
    rw [mergeFields, mapFields, mapFields, mergeFields, mapTree_mergeInto hf source]
    cases target <;> rfl

/-- **Changing all heads and merging** may trade places. -/
theorem mapTree_mergeInto (hf : RespectsMerge f) : ∀ source target : EntryTree String α,
    mapTree id f (mergeInto target source) = mergeInto (mapTree id f target) (mapTree id f source)
  | [], target => by rw [mergeInto, mapTree, mergeInto]
  | (k, e) :: source, target => by
    rw [mergeInto, mapTree_mergeInto hf source, mapTree, id, mergeInto]
    exact congrArg (mergeInto · _) (mapTree_upsert (fun first => map_merge hf e first) e target)

end

end Entry

/-! ## 2. The mask -/

/-- The head of a field that is only reached through a fragment. -/
def EntryHead.mask (h : EntryHead) : EntryHead := { h with masked := true }

/-- The selection with all its entries masked. -/
def SelectionTree.mask (t : SelectionTree) : SelectionTree := Entry.mapTree id EntryHead.mask t

theorem SelectionTree.mask_mergeInto (t s : SelectionTree) :
    SelectionTree.mask (Entry.mergeInto t s)
      = Entry.mergeInto (SelectionTree.mask t) (SelectionTree.mask s) :=
  Entry.mapTree_mergeInto (fun _ _ => rfl) s t

theorem EntryHead.withList_mask (c : Config) (field : FieldHead) (h : EntryHead) :
    h.mask.withList c field = (h.withList c field).map mask := by
  rw [withList, withList]
  split
  · rfl
  · rename_i d _
    simp only [bind, Except.bind, pure, Except.pure]
    cases marksConnection d with
    | error e => rfl
    | ok connection => cases describeArguments field.arguments <;> rfl

namespace Compilation

/-- Two compilations with the same settings, none of them of a mutation. -/
structure ReadsLike (x y : Compilation) : Prop where
  config : y.config = x.config
  left : x.kind ≠ .mutation
  right : y.kind ≠ .mutation

variable {x y : Compilation}

/-- Only mutations look at more than the field. -/
theorem entryHead_mask (h : x.ReadsLike y) (field : FieldHead) (ss : List Selection)
    (f : SchemaField) (key : String) (masked : Bool) :
    y.entryHead field ss f key true
      = (x.entryHead field ss f key masked).map EntryHead.mask := by
  have hplain (z : Compilation) (hz : z.kind ≠ .mutation) (masked : Bool) :
      z.entryHead field ss f key masked = EntryHead.withList z.config field
        { EntryHead.plain f.type.base key masked with
          abstract := (z.config.schema.fieldType? f).any NamedType.isAbstract } := by
    rw [entryHead]
    simp only [if_neg hz]
    exact bind_pure _
  rw [hplain y h.right, hplain x h.left, ← EntryHead.withList_mask, h.config]
  rfl

/-- The type below an inline fragment only depends on the schema. -/
theorem narrowed_congr (h : y.config.schema = x.config.schema) (parent : Option NamedType)
    (condition : Option String) : y.narrowed parent condition = x.narrowed parent condition := by
  cases condition with
  | none => rfl
  | some condition => rw [narrowed, narrowed, h]

/-! ## 3. The same selections, compiled twice -/

mutual

theorem tree_masked (hxy : x.ReadsLike y) {followed followed' : Follow} : ∀ (s : Selection)
    {parent : Option NamedType} {masked : Bool} {t t' : SelectionTree},
    (∀ name ∈ spreadNames s, ∀ t t', followed name = .ok t → followed' name = .ok t' →
      t' = SelectionTree.mask t) →
    x.tree followed parent masked s = .ok t → y.tree followed' parent true s = .ok t' →
      t' = SelectionTree.mask t
  | .field head selections, parent, masked, t, t', hf, h, h' => by
    rw [spreadNames] at hf
    rw [tree] at h h'
    split at h
    · rename_i hname
      rw [if_pos hname] at h'
      obtain rfl := Except.ok.inj h
      exact (Except.ok.inj h').symm
    · rename_i hname
      rw [if_neg hname] at h'
      simp only [bind_eq_ok, pure_eq_ok] at h h'
      obtain ⟨f, hdef, key, hkey, below, hbelow, head₁, hhead, rfl⟩ := h
      obtain ⟨f', hdef', key', hkey', below', hbelow', head₂, hhead', rfl⟩ := h'
      obtain rfl := Except.ok.inj (hdef.symm.trans hdef')
      obtain rfl := Except.ok.inj (hkey.symm.trans hkey')
      rw [hxy.config] at hbelow'
      obtain rfl := forest_masked hxy selections hf hbelow hbelow'
      rw [entryHead_mask hxy head selections f key masked, hhead] at hhead'
      obtain rfl := Except.ok.inj hhead'
      cases selections <;> rfl
  | .spread name directives, parent, masked, t, t', hf, h, h' =>
    hf name (List.mem_singleton_self name) t t' h h'
  | .inline condition directives selections, parent, masked, t, t', hf, h, h' => by
    rw [spreadNames] at hf
    rw [tree] at h h'
    rw [narrowed_congr (congrArg Config.schema hxy.config)] at h'
    exact forest_masked hxy selections hf h h'

/-- **Two compilations of some selections** give the same tree up to the mask, if their spreads do. -/
theorem forest_masked (hxy : x.ReadsLike y) {followed followed' : Follow} : ∀ (ss : List Selection)
    {parent : Option NamedType} {masked : Bool} {merged t t' : SelectionTree},
    (∀ name ∈ spreadNamesOf ss, ∀ t t', followed name = .ok t → followed' name = .ok t' →
      t' = SelectionTree.mask t) →
    x.forest followed parent masked merged ss = .ok t →
      y.forest followed' parent true (SelectionTree.mask merged) ss = .ok t' →
        t' = SelectionTree.mask t
  | [], parent, masked, merged, t, t', _, h, h' => by
    rw [forest] at h h'
    obtain rfl := Except.ok.inj h
    exact (Except.ok.inj h').symm
  | s :: ss, parent, masked, merged, t, t', hf, h, h' => by
    rw [spreadNamesOf, List.forall_mem_append] at hf
    rw [forest, bind_eq_ok] at h h'
    obtain ⟨entries, hentries, h⟩ := h
    obtain ⟨entries', hentries', h'⟩ := h'
    obtain rfl := tree_masked hxy s hf.1 hentries hentries'
    rw [← SelectionTree.mask_mergeInto] at h'
    exact forest_masked hxy ss hf.2 h h'

end

/-- **Two compilations of the fragments in a set of names**, each of which has all that it spreads in
the set, give the same trees up to the mask. -/
theorem follow_masked (hxy : x.ReadsLike y) {names : String → Prop}
    (hsame : ∀ name, names name →
      Table.get? y.fragments name = Table.get? x.fragments name)
    (hclosed : ∀ name, names name → ∀ f, Table.get? x.fragments name = some f →
      ∀ other ∈ spreadNamesOf f.selections, names other) :
    ∀ {depth depth' : Nat} {name : String} {t t' : SelectionTree}, names name →
      x.follow depth name = .ok t → y.follow depth' name = .ok t' → t' = SelectionTree.mask t
  | depth, depth', name, t, t', hname, h, h' => by
    unfold follow at h h'
    rw [hsame name hname] at h'
    cases hf : Table.get? x.fragments name with
    | none => rw [hf] at h; cases h
    | some f =>
      rw [hf] at h h'
      cases depth with
      | zero => cases h
      | succ depth =>
        cases depth' with
        | zero => cases h'
        | succ depth' =>
          rw [hxy.config] at h'
          exact forest_masked hxy f.selections (fun other hother _ _ hx hy =>
            follow_masked hxy hsame hclosed (hclosed name hname f hf other hother) hx hy) h h'

end Compilation

end QueryCompiler
