import QueryCompiler.Proofs.Selection.Respread
/-
# Spreads added behind others

A spread that comes behind another one of the same fragment, on the same level, adds nothing to what
is there: the tree has absorbed the fragment, and has kept it absorbed while more was merged in
(`HasSeen`).  So the spreads change nothing (`ChangesNothing`), and the compiled selection is the
same (`Compilation.compile_behind`), as long as the fragment asks for no operations.
-/
namespace QueryCompiler.Compilation

variable {x : Compilation} {fragments' : Table String Fragment} {may : String → Prop}

/-- What has been seen, if it asks for nothing, is absorbed by what there is. -/
def HasSeen (x : Compilation) (depth : Nat) (seen : String → Prop) (merged : SelectionTree) :
    Prop :=
  ∀ name, seen name → x.AsksNothing name →
    ∃ entries, x.follow depth name = .ok entries ∧ merged.Absorbs entries

variable (hx : ∀ name f, Table.get? x.fragments name = some f →
    EveryIn (ListIsNamed x.config) [] f.selections)

include hx in
/-- It stays so behind a selection, for what is on the level of this too. -/
theorem HasSeen.cons {depth : Nat} {seen : String → Prop} {merged entries : SelectionTree}
    {ancestors : List Ancestor} {parent : Option NamedType} {masked : Bool} {s : Selection}
    (hm : SelectionTree.Sound (EntryHead.Proper x.kind) merged)
    (h : x.HasSeen depth seen merged) (hs : s.Every (ListIsNamed x.config) ancestors)
    (ht : x.tree (x.follow depth) parent masked s = .ok entries) :
    x.HasSeen depth (fun n => seen n ∨ SpreadsOnLevel (Table.get? x.fragments) [s] n)
      (Entry.mergeInto merged entries) := by
  rintro name (hseen | hlevel) hnone
  · obtain ⟨found, hfound, habsorbs⟩ := h name hseen hnone
    refine ⟨found, hfound, SelectionTree.Absorbs.mergeInto_right hm.distinct ?_ ?_ habsorbs⟩
    · exact (tree_sound (follow_proper hx depth) s hs ht).mono fun _ => EntryHead.Proper.toNamed
    · exact (follow_proper hx depth name found hfound).mono fun _ => EntryHead.Proper.toNamed
  · have hone : x.forest (x.follow depth) parent masked merged [s]
        = .ok (Entry.mergeInto merged entries) := by
      rw [forest, ht]
      rfl
    have hss : EveryIn (ListIsNamed x.config) ancestors [s] := by
      rw [EveryIn]
      exact ⟨hs, everyIn_nil _⟩
    exact absorbs_of_spreads hx hlevel hnone hss hm hone

/-- Two lists of selections compile to the same if their first ones do, and then their others. -/
theorem forest_cons_congr {y : Compilation} {follow : Follow} {parent : Option NamedType}
    {masked : Bool} {merged : SelectionTree} {s s' : Selection} {ss ss' : List Selection}
    (hs : y.tree follow parent masked s' = x.tree follow parent masked s)
    (hss : ∀ entries, x.tree follow parent masked s = .ok entries →
      y.forest follow parent masked (Entry.mergeInto merged entries) ss'
        = x.forest follow parent masked (Entry.mergeInto merged entries) ss) :
    y.forest follow parent masked merged (s' :: ss')
      = x.forest follow parent masked merged (s :: ss) := by
  rw [forest, forest, hs]
  cases ht : x.tree follow parent masked s with
  -- what comes after an error is not compared
  | error e => simp only [bind, Except.bind]
  | ok entries => exact hss entries ht

/-- The second selections change nothing of the first ones, where all that has been seen is absorbed
by what there is. -/
def ChangesNothing (x : Compilation) (fragments' : Table String Fragment) (depth : Nat)
    (seen : String → Prop) (ss ss' : List Selection) : Prop :=
  ∀ ⦃ancestors : List Ancestor⦄ ⦃parent : Option NamedType⦄ ⦃masked : Bool⦄
    ⦃merged : SelectionTree⦄, EveryIn (ListIsNamed x.config) ancestors ss →
    SelectionTree.Sound (EntryHead.Proper x.kind) merged → x.HasSeen depth seen merged →
      (x.withFragments fragments').forest (x.follow depth) parent masked merged ss'
        = x.forest (x.follow depth) parent masked merged ss

section ChangesNothing

variable {depth : Nat} {seen seen' : String → Prop} {ss ss' : List Selection}

theorem changesNothing_nil : x.ChangesNothing fragments' depth seen [] [] := by
  intro _ _ _ _ _ _ _
  rw [forest, forest]

/-- A spread that is added. -/
theorem ChangesNothing.again {name : String} {directives : List Directive} (hseen : seen name)
    (hnone : x.AsksNothing name) (h : x.ChangesNothing fragments' depth seen ss ss') :
    x.ChangesNothing fragments' depth seen ss (.spread name directives :: ss') := by
  intro ancestors parent masked merged hss hmerged hhas
  obtain ⟨entries, hentries, habsorbs⟩ := hhas name hseen hnone
  rw [forest, tree, hentries]
  change (x.withFragments fragments').forest _ _ _ (Entry.mergeInto merged entries) _ = _
  rw [habsorbs]
  exact h hss hmerged hhas

include hx in
/-- What comes after a selection.  What is spread on this has been seen, too. -/
theorem ChangesNothing.after {s : Selection}
    (hseen' : ∀ name, seen' name → seen name ∨ SpreadsOnLevel (Table.get? x.fragments) [s] name)
    (h : x.ChangesNothing fragments' depth seen' ss ss') {ancestors : List Ancestor}
    {parent : Option NamedType} {masked : Bool} {merged entries : SelectionTree}
    (hss : EveryIn (ListIsNamed x.config) ancestors (s :: ss))
    (hm : SelectionTree.Sound (EntryHead.Proper x.kind) merged) (hhas : x.HasSeen depth seen merged)
    (ht : x.tree (x.follow depth) parent masked s = .ok entries) :
    (x.withFragments fragments').forest (x.follow depth) parent masked
        (Entry.mergeInto merged entries) ss'
      = x.forest (x.follow depth) parent masked (Entry.mergeInto merged entries) ss := by
  rw [EveryIn] at hss
  have hsound := tree_sound (follow_proper hx depth) s hss.1 ht
  refine h hss.2 (hm.mergeInto (fun _ _ => EntryHead.Proper.merge) hsound) ?_
  exact fun name hname => HasSeen.cons hx hm hhas hss.1 ht name (hseen' name hname)

theorem ChangesNothing.tree_field (hmay : ∀ name, may name → x.AsksNothing name)
    {below below' : List Selection}
    (hb : Respread (Table.get? x.fragments) unseen may (unseen below) below below')
    (hbelow : x.ChangesNothing fragments' depth (unseen below) below below') {head : FieldHead}
    {ancestors : List Ancestor}
    (hs : (Selection.field head below).Every (ListIsNamed x.config) ancestors)
    {parent : Option NamedType} {masked : Bool} :
    (x.withFragments fragments').tree (x.follow depth) parent masked (.field head below')
      = x.tree (x.follow depth) parent masked (.field head below) := by
  rw [Selection.Every] at hs
  have hforest : ∀ {parent : Option NamedType} {masked : Bool},
      (x.withFragments fragments').forest (x.follow depth) parent masked [] below'
        = x.forest (x.follow depth) parent masked [] below :=
    hbelow hs.2 .nil fun _ hseen => absurd hseen id
  rw [tree, tree]
  split
  · rfl
  · simp only [hforest, entryHead_respread hmay hb, hb.isEmpty fun _ _ => id]
    rfl

include hx in
/-- An inline fragment is on the level on which it stands: its selections are compiled behind those
before it, not from nothing. -/
theorem ChangesNothing.inline {condition : Option String} {directives : List Directive}
    {inner inner' : List Selection} (hinner : x.ChangesNothing fragments' depth seen inner inner')
    (h : x.ChangesNothing fragments' depth
      (fun n => seen n ∨ SpreadsOnLevel (Table.get? x.fragments) inner n) ss ss') :
    x.ChangesNothing fragments' depth seen (.inline condition directives inner :: ss)
      (.inline condition directives inner' :: ss') := by
  intro ancestors parent masked merged hss hmerged hhas
  have hnamed := hss
  rw [EveryIn, Selection.Every] at hnamed
  have hproper := follow_proper hx depth
  rw [forest_inline (x := x.withFragments fragments') hproper.distinct hmerged.distinct,
    forest_inline (x := x) hproper.distinct hmerged.distinct,
    narrowed_congr (x := x) (y := x.withFragments fragments') rfl, hinner hnamed.1 hmerged hhas,
    forest_merged hproper.distinct hmerged.distinct]
  cases ht : x.forest (x.follow depth) (x.narrowed parent condition) masked [] inner with
  | error e => rfl
  | ok entries =>
    have htree : x.tree (x.follow depth) parent masked (.inline condition directives inner)
        = .ok entries := by rw [tree, ht]
    exact h.after hx (fun _ => Or.imp_right .inline) hss hmerged hhas htree

end ChangesNothing

include hx in
/-- **Spreads added behind others** change nothing, if their fragments ask for nothing. -/
theorem forest_behind (hmay : ∀ name, may name → x.AsksNothing name) {depth : Nat}
    {seen : String → Prop} {ss ss' : List Selection}
    (h : Respread (Table.get? x.fragments) unseen may seen ss ss') :
    x.ChangesNothing fragments' depth seen ss ss' := by
  induction h with
  | nil => exact changesNothing_nil
  | again hseen hm _ ih => exact ih.again hseen (hmay _ hm)
  | field hb _ ihb ih =>
    intro ancestors parent masked merged hss hmerged hhas
    have hnamed := hss
    rw [EveryIn] at hnamed
    exact forest_cons_congr (ihb.tree_field hmay hb hnamed.1) fun _ ht =>
      ih.after hx (fun _ => .inl) hss hmerged hhas ht
  | inline _ _ ihb ih => exact ihb.inline hx ih
  | spread _ ih =>
    intro ancestors parent masked merged hss hmerged hhas
    exact forest_cons_congr (by rw [tree, tree]) fun _ ht =>
      ih.after hx (fun _ => id) hss hmerged hhas ht

include hx in
theorem follow_behind (hmay : ∀ name, may name → x.AsksNothing name) {ss ss' : List Selection}
    (h : x.Respreads unseen may ss fragments' ss') (depth : Nat) :
    (x.withFragments fragments').follow depth = x.follow depth := by
  induction depth with
  | zero =>
    funext name
    unfold follow
    rcases h.get? name with ⟨hf, hf'⟩ | ⟨f, body, hf, hf', -⟩ <;> rw [hf, hf']
  | succ depth ih =>
    funext name
    unfold follow
    rcases h.get? name with ⟨hf, hf'⟩ | ⟨f, body, hf, hf', hbody⟩ <;> rw [hf, hf']
    dsimp only
    rw [ih]
    exact forest_behind hx hmay hbody (hx name f hf) .nil fun _ hseen => absurd hseen id

include hx in
/-- **Spreads added behind others** are compiled to the same, if their fragments ask for nothing. -/
theorem compile_behind (hmay : ∀ name, may name → x.AsksNothing name) {ss ss' : List Selection}
    (hss : EveryIn (ListIsNamed x.config) [] ss) (h : x.Respreads unseen may ss fragments' ss')
    (type : NamedType) :
    (x.withFragments fragments').compile type ss' = x.compile type ss := by
  rw [compile, compile, follow_behind hx hmay h]
  have hlength : (x.withFragments fragments').fragments.length = x.fragments.length :=
    h.fragments.length_eq.symm
  rw [hlength]
  exact forest_behind hx hmay h.selections hss .nil fun _ hseen => absurd hseen id

end QueryCompiler.Compilation
