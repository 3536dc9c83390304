import QueryCompiler.Proofs.Selection.Fields
import QueryCompiler.Proofs.Selection.Laws
import QueryCompiler.Proofs.Selection.Levels
/-
# Compiling piece by piece

Selections are compiled one after the other, and each tree is merged into what there is so far.  As
merging is associative, they may as well be compiled apart and merged at the end
(`Compilation.forest_merged`).

What a spread adds on the way is absorbed by the whole, on whatever level of inline fragments and
fragments it stands, if the fragment asks for no operations (`Compilation.absorbs_of_spreads`).
-/
namespace QueryCompiler

/-! ## 1. What all compiled heads have -/

/-- The field is no list with an empty name. -/
def ListIsNamed (c : Config) : FieldProperty :=
  fun _ head _ => ∀ d, namedList? c head.directives ≠ some ("", d)

/-- A head as it is compiled in a document of some kind: only mutations ask for operations. -/
structure EntryHead.Proper (kind : ArtifactKind) (h : EntryHead) : Prop extends h.Named where
  operations : kind ≠ .mutation → h.operations = []

theorem EntryHead.Proper.merge {kind : ArtifactKind} {a b : EntryHead} (ha : a.Proper kind)
    (hb : b.Proper kind) : (a.merge b).Proper kind where
  toNamed := ha.toNamed.merge hb.toNamed
  operations hk := by
    rw [EntryHead.merge, ha.operations hk, hb.operations hk]
    rfl

/-- As a list a field only says more about itself as a list. -/
theorem EntryHead.withList_eq_ok {c : Config} {field : FieldHead} {h listed : EntryHead}
    (hw : h.withList c field = .ok listed) :
    ∃ list connection filters, listed = { h with list, connection, filters } ∧
      (list = h.list ∨ ∃ name d, namedList? c field.directives = some (name, d) ∧
        list = some name) := by
  rw [withList] at hw
  cases hn : namedList? c field.directives with
  | none =>
    rw [hn] at hw
    exact ⟨_, _, _, (Except.ok.inj hw).symm, .inl rfl⟩
  | some list =>
    obtain ⟨name, d⟩ := list
    rw [hn] at hw
    simp only [bind_eq_ok, pure_eq_ok] at hw
    obtain ⟨connection, -, filters, -, rfl⟩ := hw
    exact ⟨_, _, _, rfl, .inr ⟨name, d, rfl, rfl⟩⟩

theorem EntryHead.withList_proper {c : Config} {field : FieldHead} {h listed : EntryHead}
    {kind : ArtifactKind} (hh : h.Proper kind)
    (hlist : ∀ d, namedList? c field.directives ≠ some ("", d))
    (hw : h.withList c field = .ok listed) : listed.Proper kind := by
  obtain ⟨list, connection, filters, rfl, hnamed⟩ := withList_eq_ok hw
  refine ⟨⟨hh.type, ?_⟩, hh.operations⟩
  rcases hnamed with rfl | ⟨name, d, hn, rfl⟩
  · exact hh.list
  · intro he
    obtain rfl : name = "" := Option.some.inj he
    exact hlist d hn

namespace Compilation

variable {x : Compilation}

/-- What a field is compiled to, up to its operations. -/
theorem entryHead_eq_ok {field : FieldHead} {ss : List Selection} {f : SchemaField} {key : String}
    {masked : Bool} {h : EntryHead} (hh : x.entryHead field ss f key masked = .ok h) :
    ∃ listed, EntryHead.withList x.config field
        { EntryHead.plain f.type.base key masked with
          abstract := (x.config.schema.fieldType? f).any NamedType.isAbstract } = .ok listed ∧
      if x.kind = .mutation then ∃ operations,
        listOperations x.config x.registry field.directives ss = .ok operations ∧
          h = { listed with operations }
      else h = listed := by
  simp only [entryHead, bind_eq_ok] at hh
  obtain ⟨listed, hlisted, hh⟩ := hh
  refine ⟨listed, hlisted, ?_⟩
  split at hh
  · rename_i hk
    rw [if_pos hk]
    simp only [bind_eq_ok, pure_eq_ok] at hh
    obtain ⟨operations, hoperations, rfl⟩ := hh
    exact ⟨operations, hoperations, rfl⟩
  · rename_i hk
    rw [pure_eq_ok] at hh
    rw [if_neg hk, hh]

/-- What a field is compiled to, up to its list and its operations. -/
theorem entryHead_shape {field : FieldHead} {ss : List Selection} {f : SchemaField} {key : String}
    {masked : Bool} {h : EntryHead} (hh : x.entryHead field ss f key masked = .ok h) :
    ∃ operations list connection filters,
      h = { EntryHead.plain f.type.base key masked with
        abstract := (x.config.schema.fieldType? f).any NamedType.isAbstract
        operations, list, connection, filters } := by
  obtain ⟨listed, hlisted, hh⟩ := entryHead_eq_ok hh
  obtain ⟨list, connection, filters, rfl, -⟩ := EntryHead.withList_eq_ok hlisted
  split at hh
  · obtain ⟨operations, -, rfl⟩ := hh
    exact ⟨operations, list, connection, filters, rfl⟩
  · exact ⟨[], list, connection, filters, hh⟩

/-- A field has the type that it is declared with, and the key that was made for it. -/
theorem entryHead_type_cacheKey {field : FieldHead} {ss : List Selection} {f : SchemaField}
    {key : String} {masked : Bool} {h : EntryHead}
    (hh : x.entryHead field ss f key masked = .ok h) :
    h.type = some f.type.base ∧ h.cacheKey = key := by
  obtain ⟨operations, list, connection, filters, rfl⟩ := entryHead_shape hh
  exact ⟨rfl, rfl⟩

theorem entryHead_proper {field : FieldHead} {ss : List Selection} {f : SchemaField} {key : String}
    {masked : Bool} {h : EntryHead}
    (hlist : ∀ d, namedList? x.config field.directives ≠ some ("", d))
    (hh : x.entryHead field ss f key masked = .ok h) : h.Proper x.kind := by
  obtain ⟨listed, hlisted, hh⟩ := entryHead_eq_ok hh
  have hnone : (none : Option String) ≠ some "" := nofun
  have hproper : listed.Proper x.kind :=
    EntryHead.withList_proper ⟨⟨rfl, hnone⟩, fun _ => rfl⟩ hlist hlisted
  split at hh
  · rename_i hk
    obtain ⟨operations, -, rfl⟩ := hh
    exact ⟨⟨hproper.type, hproper.list⟩, fun hn => absurd hk hn⟩
  · exact hh ▸ hproper

/-- Fields that have the first property are compiled to heads that have the second one, and so do
merged heads. -/
structure Yields (x : Compilation) (Q : FieldProperty) (P : EntryHead → Prop) : Prop where
  merge : ∀ a b, P a → P b → P (a.merge b)
  typename : ∀ masked, P (.plain "String" typenameField masked)
  field : ∀ ancestors (head : FieldHead) ss f key masked h, Q ancestors head ss →
    x.entryHead head ss f key masked = .ok h → P h

/-- A way to follow spreads that gives trees whose heads have a property. -/
def FollowsWith (P : EntryHead → Prop) (follow : Follow) : Prop :=
  ∀ name t, follow name = .ok t → SelectionTree.Sound P t

section Yields

variable {Q : FieldProperty} {P : EntryHead → Prop} {follow : Follow}

mutual

theorem tree_gives (hx : x.Yields Q P) (hf : FollowsWith P follow) : ∀ (s : Selection)
    {ancestors : List Ancestor} {parent : Option NamedType} {masked : Bool} {t : SelectionTree},
    s.Every Q ancestors → x.tree follow parent masked s = .ok t → SelectionTree.Sound P t
  | .field head selections, ancestors, parent, masked, t, hs, h => by
    rw [Selection.Every] at hs
    rw [tree] at h
    split at h
    · obtain rfl := Except.ok.inj h
      exact .field (hx.typename masked) nofun
    · simp only [bind_eq_ok, pure_eq_ok] at h
      obtain ⟨f, -, key, -, below, hbelow, head', hhead, rfl⟩ := h
      refine .field (hx.field _ _ _ _ _ _ _ hs.1 hhead) fun tree htree => ?_
      split at htree
      · cases htree
      · exact Option.some.inj htree ▸ forest_gives hx hf selections hs.2 .nil hbelow
  | .spread name directives, _, _, _, t, _, h => by
    rw [tree] at h
    exact hf name t h
  | .inline condition directives selections, _, _, _, _, hs, h => by
    rw [Selection.Every] at hs
    rw [tree] at h
    exact forest_gives hx hf selections hs .nil h

theorem forest_gives (hx : x.Yields Q P) (hf : FollowsWith P follow) : ∀ (ss : List Selection)
    {ancestors : List Ancestor} {parent : Option NamedType} {masked : Bool}
    {merged t : SelectionTree}, EveryIn Q ancestors ss → SelectionTree.Sound P merged →
      x.forest follow parent masked merged ss = .ok t → SelectionTree.Sound P t
  | [], _, _, _, _, _, _, hm, h => by
    rw [forest] at h
    exact Except.ok.inj h ▸ hm
  | s :: ss, _, _, _, _, _, hss, hm, h => by
    rw [EveryIn] at hss
    rw [forest, bind_eq_ok] at h
    obtain ⟨entries, hentries, h⟩ := h
    exact forest_gives hx hf ss hss.2 (hm.mergeInto hx.merge (tree_gives hx hf s hss.1 hentries)) h

end

theorem follow_gives (hx : x.Yields Q P) (hfragments : ∀ name f,
    Table.get? x.fragments name = some f → EveryIn Q [] f.selections) :
    ∀ depth, FollowsWith P (x.follow depth)
  | 0, _, _, h => absurd h follow_zero_ne_ok
  | depth + 1, name, t, h => by
    obtain ⟨f, hname, h⟩ := follow_succ_eq_ok.mp h
    exact forest_gives hx (follow_gives hx hfragments depth) _ (hfragments name f hname) .nil h

end Yields

/-! Whatever the fields are, no level of a compiled tree has a key twice. -/

/-- A way to follow spreads that gives trees without a key twice on a level. -/
abbrev FollowsDistinctly (follow : Follow) : Prop := FollowsWith (fun _ => True) follow

theorem yields_true : x.Yields (fun _ _ _ => True) fun _ => True where
  merge _ _ _ _ := trivial
  typename _ := trivial
  field _ _ _ _ _ _ _ _ _ := trivial

theorem tree_distinct {follow : Follow} (hf : FollowsDistinctly follow) {s : Selection}
    {parent : Option NamedType} {masked : Bool} {t : SelectionTree}
    (h : x.tree follow parent masked s = .ok t) : Entry.DistinctTree t :=
  (tree_gives yields_true hf s (every_of_forall (fun _ _ _ => trivial) s []) h).distinct

theorem forest_distinct {follow : Follow} (hf : FollowsDistinctly follow) {ss : List Selection}
    {parent : Option NamedType} {masked : Bool} {t : SelectionTree}
    (h : x.forest follow parent masked [] ss = .ok t) : Entry.DistinctTree t :=
  (forest_gives yields_true hf ss (everyIn_of_forall (fun _ _ _ => trivial) ss []) .nil h).distinct

theorem follow_distinct (x : Compilation) (depth : Nat) : FollowsDistinctly (x.follow depth) :=
  follow_gives yields_true (fun _ f _ => everyIn_of_forall (fun _ _ _ => trivial) f.selections [])
    depth

/-- **Selections may be compiled apart** from what they are merged into. -/
theorem forest_merged {follow : Follow} (hf : FollowsDistinctly follow) {parent : Option NamedType}
    {masked : Bool} : ∀ {ss : List Selection} {merged : SelectionTree}, Entry.DistinctTree merged →
      x.forest follow parent masked merged ss
        = (x.forest follow parent masked [] ss).map (Entry.mergeInto merged)
  | [], merged, _ => by
    rw [forest, forest, Except.map, Entry.mergeInto]
  | s :: ss, merged, hm => by
    rw [forest, forest]
    cases hs : x.tree follow parent masked s with
    | error e => rfl
    | ok entries =>
      have he := tree_distinct hf hs
      have hnil : Entry.mergeInto [] entries = entries := Entry.nil_mergeInto he.nodup
      have hme := Entry.distinctTree_mergeInto hm he
      change x.forest follow parent masked (Entry.mergeInto merged entries) ss
        = (x.forest follow parent masked (Entry.mergeInto [] entries) ss).map _
      rw [forest_merged hf hme, hnil, forest_merged hf he]
      cases hrest : x.forest follow parent masked [] ss with
      | error e => rfl
      | ok rest =>
        have hr := forest_distinct hf hrest
        exact congrArg Except.ok (SelectionTree.mergeInto_assoc hm he hr)

/-- The selections of an inline fragment may be compiled as if they stood in its place. -/
theorem forest_inline {follow : Follow} (hf : FollowsDistinctly follow)
    {parent : Option NamedType} {masked : Bool} {condition : Option String}
    {directives : List Directive} {inner ss : List Selection} {merged : SelectionTree}
    (hm : Entry.DistinctTree merged) :
    x.forest follow parent masked merged (.inline condition directives inner :: ss)
      = x.forest follow (x.narrowed parent condition) masked merged inner >>= fun merged =>
          x.forest follow parent masked merged ss := by
  rw [forest, tree, forest_merged hf hm]
  cases x.forest follow (x.narrowed parent condition) masked [] inner <;> rfl

/-! The heads are as a document of the kind has them, if no list has an empty name. -/

/-- A way to follow spreads that gives trees with heads as they are compiled. -/
abbrev FollowsProperly (x : Compilation) (follow : Follow) : Prop :=
  FollowsWith (EntryHead.Proper x.kind) follow

theorem yields_proper : x.Yields (ListIsNamed x.config) (EntryHead.Proper x.kind) where
  merge _ _ := EntryHead.Proper.merge
  typename _ := ⟨⟨rfl, nofun⟩, fun _ => rfl⟩
  field _ _ _ _ _ _ _ := entryHead_proper

theorem FollowsProperly.distinct {follow : Follow} (hf : x.FollowsProperly follow) :
    FollowsDistinctly follow :=
  fun name t h => (hf name t h).mono fun _ _ => trivial

theorem tree_sound {follow : Follow} (hf : x.FollowsProperly follow) (s : Selection)
    {ancestors : List Ancestor} {parent : Option NamedType} {masked : Bool} {t : SelectionTree}
    (hs : s.Every (ListIsNamed x.config) ancestors) (h : x.tree follow parent masked s = .ok t) :
    SelectionTree.Sound (EntryHead.Proper x.kind) t :=
  tree_gives yields_proper hf s hs h

theorem forest_sound {follow : Follow} (hf : x.FollowsProperly follow) (ss : List Selection)
    {ancestors : List Ancestor} {parent : Option NamedType} {masked : Bool}
    {merged t : SelectionTree} (hss : EveryIn (ListIsNamed x.config) ancestors ss)
    (hm : SelectionTree.Sound (EntryHead.Proper x.kind) merged)
    (h : x.forest follow parent masked merged ss = .ok t) :
    SelectionTree.Sound (EntryHead.Proper x.kind) t :=
  forest_gives yields_proper hf ss hss hm h

/-! ## 2. Following spreads -/

/-- No field of the selections, or of a fragment, is a list with an empty name. -/
structure ListsAreNamed (x : Compilation) (ss : List Selection) : Prop where
  own : EveryIn (ListIsNamed x.config) [] ss
  fragments : ∀ name f, Table.get? x.fragments name = some f →
    EveryIn (ListIsNamed x.config) [] f.selections

theorem follow_proper (hx : ∀ name f, Table.get? x.fragments name = some f →
    EveryIn (ListIsNamed x.config) [] f.selections) (depth : Nat) :
    x.FollowsProperly (x.follow depth) :=
  follow_gives yields_proper hx depth

mutual

theorem tree_mono {follow follow' : Follow}
    (hf : ∀ name t, follow name = .ok t → follow' name = .ok t) : ∀ (s : Selection)
    {parent : Option NamedType} {masked : Bool} {t : SelectionTree},
    x.tree follow parent masked s = .ok t → x.tree follow' parent masked s = .ok t
  | .field head selections, _, _, _, h => by
    rw [tree] at h ⊢
    split at h
    · rename_i hname
      rw [if_pos hname]
      exact h
    · rename_i hname
      rw [if_neg hname]
      simp only [bind_eq_ok] at h ⊢
      obtain ⟨f, hdef, key, hkey, below, hbelow, h⟩ := h
      exact ⟨f, hdef, key, hkey, below, forest_mono hf selections hbelow, h⟩
  | .spread name _, _, _, t, h => by
    rw [tree] at h ⊢
    exact hf name t h
  | .inline _ _ selections, _, _, _, h => by
    rw [tree] at h ⊢
    exact forest_mono hf selections h

theorem forest_mono {follow follow' : Follow}
    (hf : ∀ name t, follow name = .ok t → follow' name = .ok t) : ∀ (ss : List Selection)
    {parent : Option NamedType} {masked : Bool} {merged t : SelectionTree},
    x.forest follow parent masked merged ss = .ok t →
      x.forest follow' parent masked merged ss = .ok t
  | [], _, _, _, _, h => by
    rw [forest] at h ⊢
    exact h
  | s :: ss, _, _, _, _, h => by
    rw [forest, bind_eq_ok] at h ⊢
    obtain ⟨entries, hentries, h⟩ := h
    exact ⟨entries, tree_mono hf s hentries, forest_mono hf ss h⟩

end

/-- With more spreads allowed inside each other, a fragment adds the same. -/
theorem follow_succ : ∀ {depth : Nat} {name : String} {t : SelectionTree},
    x.follow depth name = .ok t → x.follow (depth + 1) name = .ok t
  | 0, _, _, h => absurd h follow_zero_ne_ok
  | depth + 1, name, t, h => by
    obtain ⟨f, hname, h⟩ := follow_succ_eq_ok.mp h
    exact follow_succ_eq_ok.mpr ⟨f, hname, forest_mono (fun _ _ => follow_succ) _ h⟩

/-- The fragment adds no operations: neither does its spread, in a mutation, nor has what it selects
any. -/
structure AsksNothing (x : Compilation) (name : String) : Prop where
  spread : x.kind = .mutation → x.registry.operation? x.config name = none
  selected : ∀ depth t, x.follow depth name = .ok t →
    ∀ p h, Entry.headAt? t p = some h → h.operations = []

theorem asksNothing_of_kind (hx : ∀ name f, Table.get? x.fragments name = some f →
    EveryIn (ListIsNamed x.config) [] f.selections) (hk : x.kind ≠ .mutation) (name : String) :
    x.AsksNothing name where
  spread h := absurd h hk
  selected depth t h p head hp :=
    ((follow_proper hx depth name t h).heads p head hp).operations hk

/-! ## 3. What a level absorbs -/

section Levels

variable {parent : Option NamedType} {masked : Bool} {ancestors : List Ancestor}

/-- What the tree of one of some selections absorbs is absorbed by the tree of all. -/
theorem absorbs_of_cons {follow : Follow} (hf : x.FollowsProperly follow) {s : Selection}
    {ss : List Selection} (hss : EveryIn (ListIsNamed x.config) ancestors (s :: ss))
    {merged t entries r : SelectionTree} (hm : SelectionTree.Sound (EntryHead.Proper x.kind) merged)
    (h : x.forest follow parent masked merged (s :: ss) = .ok t)
    (hentries : x.tree follow parent masked s = .ok entries)
    (hr : SelectionTree.Sound (EntryHead.Proper x.kind) r) (habsorbs : entries.Absorbs r) :
    t.Absorbs r := by
  rw [EveryIn] at hss
  have he := tree_sound hf s hss.1 hentries
  have hme := hm.mergeInto (fun _ _ => EntryHead.Proper.merge) he
  rw [forest, hentries] at h
  change x.forest follow parent masked (Entry.mergeInto merged entries) ss = .ok t at h
  rw [forest_merged hf.distinct hme.distinct, map_eq_ok] at h
  obtain ⟨rest, hrest, rfl⟩ := h
  refine SelectionTree.Absorbs.mergeInto_right hme.distinct ?_ ?_
    (SelectionTree.Absorbs.mergeInto_left hm.distinct he.distinct hr.distinct habsorbs)
  · exact (forest_sound hf ss hss.2 .nil hrest).mono fun _ => EntryHead.Proper.toNamed
  · exact hr.mono fun _ => EntryHead.Proper.toNamed

/-- **What is spread on a level is absorbed by the tree of the level**, if it asks for nothing. -/
theorem absorbs_of_spreads (hx : ∀ name f, Table.get? x.fragments name = some f →
      EveryIn (ListIsNamed x.config) [] f.selections) {ss : List Selection} {name : String}
    (h : SpreadsOnLevel (Table.get? x.fragments) ss name) (hnone : x.AsksNothing name) :
    ∀ {depth : Nat} {ancestors : List Ancestor} {parent : Option NamedType} {masked : Bool}
      {merged t : SelectionTree}, EveryIn (ListIsNamed x.config) ancestors ss →
      SelectionTree.Sound (EntryHead.Proper x.kind) merged →
      x.forest (x.follow depth) parent masked merged ss = .ok t →
        ∃ entries, x.follow depth name = .ok entries ∧ t.Absorbs entries := by
  induction h with
  | @spread name directives rest =>
    intro depth _ _ _ _ _ hss hm ht
    have hentries := ht
    rw [forest, bind_eq_ok] at hentries
    obtain ⟨entries, hentries, -⟩ := hentries
    rw [tree] at hentries
    have he := follow_proper hx depth name entries hentries
    have hself : entries.Absorbs entries :=
      SelectionTree.absorbs_self ⟨he.distinct, hnone.selected depth entries hentries⟩
    exact ⟨entries, hentries, absorbs_of_cons (follow_proper hx depth) hss hm ht hentries he hself⟩
  | @within other name directives f rest hf _ ih =>
    intro depth _ _ _ _ _ hss hm ht
    have houter := ht
    rw [forest, bind_eq_ok] at houter
    obtain ⟨outer, houter, -⟩ := houter
    -- the other fragment is compiled with one spread less allowed inside
    have hinner := houter
    rw [tree] at hinner
    cases depth with
    | zero => exact absurd hinner follow_zero_ne_ok
    | succ depth =>
      obtain ⟨f', hf', hinner⟩ := follow_succ_eq_ok.mp hinner
      obtain rfl := Option.some.inj (hf.symm.trans hf')
      obtain ⟨entries, hentries, habsorbs⟩ := ih hnone (hx other f hf) .nil hinner
      have he := follow_proper hx depth name entries hentries
      exact ⟨entries, follow_succ hentries,
        absorbs_of_cons (follow_proper hx _) hss hm ht houter he habsorbs⟩
  | inline _ ih =>
    intro depth _ _ _ _ _ hss hm ht
    have hinner := ht
    rw [forest, bind_eq_ok] at hinner
    obtain ⟨inner, hinner, -⟩ := hinner
    have hbody := hss
    rw [EveryIn, Selection.Every] at hbody
    rw [tree] at hinner
    obtain ⟨entries, hentries, habsorbs⟩ := ih hnone hbody.1 .nil hinner
    have he := follow_proper hx depth _ entries hentries
    exact ⟨entries, hentries,
      absorbs_of_cons (follow_proper hx depth) hss hm ht (by rw [tree]; exact hinner) he habsorbs⟩
  | later _ ih =>
    intro depth _ _ _ _ _ hss hm ht
    rw [EveryIn] at hss
    rw [forest, bind_eq_ok] at ht
    obtain ⟨first, hfirst, ht⟩ := ht
    have hs := tree_sound (follow_proper hx depth) _ hss.1 hfirst
    exact ih hnone hss.2 (hm.mergeInto (fun _ _ => EntryHead.Proper.merge) hs) ht

end Levels

end Compilation

end QueryCompiler
