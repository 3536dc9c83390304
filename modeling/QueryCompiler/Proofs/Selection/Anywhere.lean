import QueryCompiler.Proofs.Selection.Respread
/-
# Spreads added anywhere

Wherever a fragment is spread once more on its level, everything that it adds is already there, if
not yet at that point.  So the compiled selection has no new paths, and no entry has what no place
with its path has said before (`Compilation.compile_anywhere`).  Nothing is lost either
(`Compilation.compile_keeps`).

Both are relations between selections without the spreads and with them (`AddsNothing`,
`LosesNothing`), with one lemma for each way in which selections go on: a spread that is added
(`again`), or a selection that was there (`cons`), which is a field, an inline fragment or a spread.
-/
namespace QueryCompiler.Compilation

variable {x : Compilation} {fragments' : Table String Fragment} {may : String → Prop}
  (hx : ∀ name f, Table.get? x.fragments name = some f →
    EveryIn (ListIsNamed x.config) [] f.selections)

/-! ## 1. Nothing is added -/

section Anywhere

variable {P : EntryHead → Prop} (hP : ∀ a b, P (a.merge b) ↔ P a ∨ P b)
  {start : List Selection → String → Prop}

include hx hP in
/-- What a level starts with is there at its end. -/
theorem hasAt_forest {depth : Nat} {ss : List Selection} {ancestors : List Ancestor}
    {parent : Option NamedType} {masked : Bool} {merged t : SelectionTree}
    (hss : EveryIn (ListIsNamed x.config) ancestors ss)
    (hm : SelectionTree.Sound (EntryHead.Proper x.kind) merged)
    (ht : x.forest (x.follow depth) parent masked merged ss = .ok t) {p : List String}
    (hp : SelectionTree.HasAt P merged p) : SelectionTree.HasAt P t p := by
  have hproper := follow_proper hx depth
  rw [forest_merged hproper.distinct hm.distinct, map_eq_ok] at ht
  obtain ⟨rest, hrest, rfl⟩ := ht
  rw [SelectionTree.hasAt_mergeInto hP (forest_sound hproper ss hss .nil hrest).distinct]
  exact .inl hp

/-- A tree comes out, and what it has is found somewhere. -/
def GivesWithin (P : EntryHead → Prop) (outcome : Except Error SelectionTree)
    (found : List String → Prop) : Prop :=
  ∃ t, outcome = .ok t ∧ ∀ p, SelectionTree.HasAt P t p → found p

theorem GivesWithin.mono {outcome : Except Error SelectionTree} {found found' : List String → Prop}
    (h : GivesWithin P outcome found) (hfound : ∀ p, found p → found' p) :
    GivesWithin P outcome found' := by
  obtain ⟨t, ht, hall⟩ := h
  exact ⟨t, ht, fun p hp => hfound p (hall p hp)⟩

include hP in
/-- Selections of which all have what is found somewhere have that together. -/
theorem GivesWithin.cons {follow : Follow} {parent : Option NamedType} {masked : Bool}
    {merged : SelectionTree} {s : Selection} {ss : List Selection} {found : List String → Prop}
    (hs : GivesWithin P (x.tree follow parent masked s) found)
    (hdistinct : ∀ entries, x.tree follow parent masked s = .ok entries →
      Entry.DistinctTree entries)
    (hmerged : ∀ p, SelectionTree.HasAt P merged p → found p)
    (hss : ∀ merged', (∀ p, SelectionTree.HasAt P merged' p → found p) →
      GivesWithin P (x.forest follow parent masked merged' ss) found) :
    GivesWithin P (x.forest follow parent masked merged (s :: ss)) found := by
  obtain ⟨entries, hentries, hfound⟩ := hs
  obtain ⟨t, ht, hall⟩ := hss (Entry.mergeInto merged entries) fun p hp =>
    ((SelectionTree.hasAt_mergeInto hP (hdistinct entries hentries)).mp hp).elim (hmerged p)
      (hfound p)
  refine ⟨t, ?_, hall⟩
  rw [forest, hentries]
  exact ht

variable {depth : Nat} (hmay : ∀ name, may name → x.AsksNothing name)
  (hfollow : ∀ name entries, x.follow depth name = .ok entries →
    GivesWithin P ((x.withFragments fragments').follow depth name) (SelectionTree.HasAt P entries))

include hx hP hmay hfollow in
/-- What is spread on a level adds nothing that the level does not have. -/
theorem givesWithin_of_level {ss : List Selection} {name : String}
    (h : SpreadsOnLevel (Table.get? x.fragments) ss name) (hname : may name)
    {ancestors : List Ancestor} {parent : Option NamedType} {masked : Bool}
    {merged t : SelectionTree} (hss : EveryIn (ListIsNamed x.config) ancestors ss)
    (hm : SelectionTree.Sound (EntryHead.Proper x.kind) merged)
    (ht : x.forest (x.follow depth) parent masked merged ss = .ok t) :
    GivesWithin P ((x.withFragments fragments').follow depth name) (SelectionTree.HasAt P t) := by
  obtain ⟨entries, hentries, habsorbs⟩ := absorbs_of_spreads hx h (hmay name hname) hss hm ht
  have hdistinct := (follow_proper hx depth name entries hentries).distinct
  exact (hfollow name entries hentries).mono fun _ => habsorbs.hasAt hP hdistinct

include hx hP in
/-- A selection that is compiled first has nothing that is not there at the end. -/
theorem of_forest_cons {s : Selection} {ss : List Selection} {ancestors : List Ancestor}
    {parent : Option NamedType} {masked : Bool} {merged t : SelectionTree}
    (hss : EveryIn (ListIsNamed x.config) ancestors (s :: ss))
    (hm : SelectionTree.Sound (EntryHead.Proper x.kind) merged)
    (ht : x.forest (x.follow depth) parent masked merged (s :: ss) = .ok t) :
    ∃ entries, x.tree (x.follow depth) parent masked s = .ok entries ∧
      SelectionTree.Sound (EntryHead.Proper x.kind) (Entry.mergeInto merged entries) ∧
      x.forest (x.follow depth) parent masked (Entry.mergeInto merged entries) ss = .ok t ∧
      ∀ p, SelectionTree.HasAt P entries p → SelectionTree.HasAt P t p := by
  rw [EveryIn] at hss
  rw [forest, bind_eq_ok] at ht
  obtain ⟨entries, hentries, ht⟩ := ht
  have hsound := tree_sound (follow_proper hx depth) s hss.1 hentries
  have hmerged := hm.mergeInto (fun _ _ => EntryHead.Proper.merge) hsound
  refine ⟨entries, hentries, hmerged, ht, fun p hp => hasAt_forest hx hP hss.2 hmerged ht ?_⟩
  rw [SelectionTree.hasAt_mergeInto hP hsound.distinct]
  exact .inr hp

include hmay in
/-- A field with spreads added below it has nothing new, if that is so below it. -/
theorem tree_anywhere {follow follow' : Follow}
    {head : FieldHead} {below below' : List Selection}
    (hb : Respread (Table.get? x.fragments) start may (start below) below below')
    (hstart : below = [] → ∀ name, ¬ start below name)
    {parent : Option NamedType} {masked : Bool} {entries : SelectionTree}
    (hbelow : ∀ {parent : Option NamedType} {t : SelectionTree},
      x.forest follow parent masked [] below = .ok t →
        GivesWithin P ((x.withFragments fragments').forest follow' parent masked [] below')
          (SelectionTree.HasAt P t))
    (h : x.tree follow parent masked (.field head below) = .ok entries) :
    GivesWithin P ((x.withFragments fragments').tree follow' parent masked (.field head below'))
      (SelectionTree.HasAt P entries) := by
  rw [GivesWithin]
  rw [tree] at h ⊢
  split at h
  · rename_i hname
    exact ⟨entries, by rw [if_pos hname, h], fun _ hp => hp⟩
  · rename_i hname
    rw [if_neg hname]
    simp only [bind_eq_ok, pure_eq_ok] at h ⊢
    obtain ⟨f, hdef, key, hkey, t, ht, head', hhead, rfl⟩ := h
    obtain ⟨t', ht', hall⟩ := hbelow ht
    refine ⟨_, ⟨f, hdef, key, hkey, t', ht', head', ?_, rfl⟩, fun p => ?_⟩
    · rw [entryHead_respread hmay hb, hhead]
    · refine SelectionTree.HasAt.field id fun tree htree => ?_
      rw [hb.isEmpty hstart] at htree
      split at htree
      · cases htree
      · rename_i hne
        rw [if_neg hne]
        obtain rfl := Option.some.inj htree
        exact ⟨t, rfl, hall⟩

/-- The second selection adds nothing to the first one: it compiles, and what it has is found in any
place that has what the first one has, and what the fragments seen before it add. -/
def TreeAddsNothing (P : EntryHead → Prop) (x : Compilation) (fragments' : Table String Fragment)
    (may : String → Prop) (depth : Nat) (seen : String → Prop) (s s' : Selection) : Prop :=
  ∀ ⦃ancestors : List Ancestor⦄ ⦃parent : Option NamedType⦄ ⦃masked : Bool⦄
    ⦃entries : SelectionTree⦄ ⦃found : List String → Prop⦄,
    s.Every (ListIsNamed x.config) ancestors →
    x.tree (x.follow depth) parent masked s = .ok entries →
    (∀ p, SelectionTree.HasAt P entries p → found p) →
    (∀ name, seen name → may name →
      GivesWithin P ((x.withFragments fragments').follow depth name) found) →
      GivesWithin P ((x.withFragments fragments').tree ((x.withFragments fragments').follow depth)
        parent masked s') found

/-- The same of selections, compiled one after another.  The trees that they start from need not be
the same, because a spread may have come before the second ones; what is found is. -/
def AddsNothing (P : EntryHead → Prop) (x : Compilation) (fragments' : Table String Fragment)
    (may : String → Prop) (depth : Nat) (seen : String → Prop) (ss ss' : List Selection) : Prop :=
  ∀ ⦃ancestors : List Ancestor⦄ ⦃parent : Option NamedType⦄ ⦃masked : Bool⦄
    ⦃merged merged' t : SelectionTree⦄ ⦃found : List String → Prop⦄,
    EveryIn (ListIsNamed x.config) ancestors ss →
    SelectionTree.Sound (EntryHead.Proper x.kind) merged →
    x.forest (x.follow depth) parent masked merged ss = .ok t →
    (∀ p, SelectionTree.HasAt P t p → found p) →
    (∀ name, seen name → may name →
      GivesWithin P ((x.withFragments fragments').follow depth name) found) →
    (∀ p, SelectionTree.HasAt P merged' p → found p) →
      GivesWithin P ((x.withFragments fragments').forest ((x.withFragments fragments').follow depth)
        parent masked merged' ss') found

variable {seen seen' : String → Prop} {s s' : Selection} {ss ss' : List Selection}

include hx hP hmay hfollow in
/-- Where a level begins, what is spread on it has been seen. -/
theorem AddsNothing.forest
    (h : x.AddsNothing P fragments' may depth (SpreadsOnLevel (Table.get? x.fragments) ss) ss ss')
    {ancestors : List Ancestor} {parent : Option NamedType} {masked : Bool} {t : SelectionTree}
    (hss : EveryIn (ListIsNamed x.config) ancestors ss)
    (ht : x.forest (x.follow depth) parent masked [] ss = .ok t) :
    GivesWithin P ((x.withFragments fragments').forest ((x.withFragments fragments').follow depth)
      parent masked [] ss') (SelectionTree.HasAt P t) :=
  h hss .nil ht (fun _ hp => hp)
    (fun _ hlevel hm => givesWithin_of_level hx hP hmay hfollow hlevel hm hss .nil ht)
    fun _ hp => absurd hp SelectionTree.hasAt_nil

include hx hP hmay hfollow in
theorem treeAddsNothing_field {head : FieldHead} {below below' : List Selection}
    (hb : Respread (Table.get? x.fragments) (SpreadsOnLevel (Table.get? x.fragments)) may
      (SpreadsOnLevel (Table.get? x.fragments) below) below below')
    (hbelow : x.AddsNothing P fragments' may depth
      (SpreadsOnLevel (Table.get? x.fragments) below) below below') :
    x.TreeAddsNothing P fragments' may depth seen (.field head below) (.field head below') := by
  intro ancestors parent masked entries found hs hentries hfound _
  rw [Selection.Every] at hs
  have hnone : below = [] → ∀ name, ¬ SpreadsOnLevel (Table.get? x.fragments) below name := by
    rintro rfl name hlevel
    cases hlevel
  exact (tree_anywhere hmay hb hnone
    (fun ht => hbelow.forest hx hP hmay hfollow hs.2 ht) hentries).mono hfound

theorem AddsNothing.inline {condition : Option String} {directives : List Directive}
    (h : x.AddsNothing P fragments' may depth seen ss ss') :
    x.TreeAddsNothing P fragments' may depth seen (.inline condition directives ss)
      (.inline condition directives ss') := by
  intro ancestors parent masked entries found hs hentries hfound hseen
  rw [Selection.Every] at hs
  rw [tree] at hentries ⊢
  rw [narrowed_congr (x := x) (y := x.withFragments fragments') rfl]
  exact h hs .nil hentries hfound hseen fun _ hp => absurd hp SelectionTree.hasAt_nil

include hfollow in
theorem treeAddsNothing_spread {name : String} {directives : List Directive} :
    x.TreeAddsNothing P fragments' may depth seen (.spread name directives)
      (.spread name directives) := by
  intro ancestors parent masked entries found _ hentries hfound _
  rw [tree] at hentries ⊢
  exact (hfollow name entries hentries).mono hfound

theorem addsNothing_nil : x.AddsNothing P fragments' may depth seen [] [] := by
  intro _ _ _ _ merged' _ _ _ _ _ _ _ hmerged'
  exact ⟨merged', by rw [Compilation.forest], hmerged'⟩

variable (hx' : ∀ name f, Table.get? (x.withFragments fragments').fragments name = some f →
  EveryIn (ListIsNamed x.config) [] f.selections)

include hP hx' in
/-- A spread that is added. -/
theorem AddsNothing.again {name : String} {directives : List Directive} (hseen : seen name)
    (hm : may name) (h : x.AddsNothing P fragments' may depth seen ss ss') :
    x.AddsNothing P fragments' may depth seen ss (.spread name directives :: ss') := by
  intro ancestors parent masked merged merged' t found hss hmerged ht htfound hseenfound hmerged'
  have hproper' := follow_proper (x := x.withFragments fragments') hx' depth
  refine GivesWithin.cons hP ?_ (fun entries' hentries' => ?_) hmerged'
    fun _ => h hss hmerged ht htfound hseenfound
  · rw [tree]
    exact hseenfound name hseen hm
  · rw [tree] at hentries'
    exact (hproper' name entries' hentries').distinct

include hx hP hmay hfollow hx' in
/-- A selection that was there.  What is spread on it has been seen after it. -/
theorem AddsNothing.cons
    (hnamed : ∀ {ancestors}, s.Every (ListIsNamed x.config) ancestors →
      s'.Every (ListIsNamed x.config) ancestors)
    (hseen' : ∀ name, seen' name → seen name ∨
      SpreadsOnLevel (Table.get? x.fragments) (s :: ss) name)
    (hs : x.TreeAddsNothing P fragments' may depth seen s s')
    (h : x.AddsNothing P fragments' may depth seen' ss ss') :
    x.AddsNothing P fragments' may depth seen (s :: ss) (s' :: ss') := by
  intro ancestors parent masked merged merged' t found hss hmerged ht htfound hseenfound hmerged'
  obtain ⟨entries, hentries, hmerged₁, ht₁, hkept⟩ := of_forest_cons hx hP hss hmerged ht
  have hseenfound' : ∀ name, seen' name → may name →
      GivesWithin P ((x.withFragments fragments').follow depth name) found := by
    intro name hname hm
    rcases hseen' name hname with hseen | hlevel
    · exact hseenfound name hseen hm
    · exact (givesWithin_of_level hx hP hmay hfollow hlevel hm hss hmerged ht).mono htfound
  have hproper' := follow_proper (x := x.withFragments fragments') hx' depth
  rw [EveryIn] at hss
  exact GivesWithin.cons hP
    (hs hss.1 hentries (fun p hp => htfound p (hkept p hp)) hseenfound)
    (fun _ hentries' => (tree_sound (x := x.withFragments fragments') hproper' s' (hnamed hss.1)
      hentries').distinct)
    hmerged' fun _ => h hss.2 hmerged₁ ht₁ htfound hseenfound'

include hx hP hmay hfollow hx' in
/-- **Spreads added anywhere** on their level add nothing that was not there. -/
theorem forest_anywhere
    (h : Respread (Table.get? x.fragments) (SpreadsOnLevel (Table.get? x.fragments)) may seen
      ss ss') : x.AddsNothing P fragments' may depth seen ss ss' := by
  induction h with
  | nil => exact addsNothing_nil
  | again hseen hm _ ih => exact ih.again hP hx' hseen hm
  | field hb _ ihb ih =>
    exact ih.cons hx hP hmay hfollow hx' hb.every_field (fun _ => .inl)
      (treeAddsNothing_field hx hP hmay hfollow hb ihb)
  | inline hb _ ihb ih =>
    exact ih.cons hx hP hmay hfollow hx' hb.every_inline (fun _ => Or.imp_right .inline) ihb.inline
  | spread _ ih =>
    exact ih.cons hx hP hmay hfollow hx' id (fun _ => Or.imp_right (·.append _))
      (treeAddsNothing_spread hfollow)

end Anywhere

section Anywhere

variable {P : EntryHead → Prop} (hP : ∀ a b, P (a.merge b) ↔ P a ∨ P b)
  {ss ss' : List Selection}

include hx hP in
theorem follow_anywhere (hmay : ∀ name, may name → x.AsksNothing name)
    (h : x.Respreads (SpreadsOnLevel (Table.get? x.fragments)) may ss fragments' ss')
    (depth : Nat) : ∀ name entries, x.follow depth name = .ok entries →
      GivesWithin P ((x.withFragments fragments').follow depth name)
        (SelectionTree.HasAt P entries) := by
  induction depth with
  | zero => exact fun _ _ hentries => absurd hentries follow_zero_ne_ok
  | succ depth ih =>
    intro name entries hentries
    obtain ⟨f, hf, hentries⟩ := follow_succ_eq_ok.mp hentries
    obtain ⟨body, hf', hbody⟩ := h.get?_of_some hf
    have hadds := forest_anywhere hx hP hmay ih (h.named hx) hbody
    obtain ⟨entries', hentries', hfound⟩ := hadds.forest hx hP hmay ih (hx name f hf) hentries
    exact ⟨entries', follow_succ_eq_ok.mpr ⟨_, hf', hentries'⟩, hfound⟩

include hx hP in
/-- **Selections with spreads added anywhere** compile, and have nothing new. -/
theorem compile_anywhere (hmay : ∀ name, may name → x.AsksNothing name)
    (hss : EveryIn (ListIsNamed x.config) [] ss)
    (h : x.Respreads (SpreadsOnLevel (Table.get? x.fragments)) may ss fragments' ss')
    {type : NamedType} {t : SelectionTree} (ht : x.compile type ss = .ok t) :
    ∃ t', (x.withFragments fragments').compile type ss' = .ok t' ∧
      ∀ p, SelectionTree.HasAt P t' p → SelectionTree.HasAt P t p := by
  have hfollow := follow_anywhere hx hP hmay h x.fragments.length
  have hlength : (x.withFragments fragments').fragments.length = x.fragments.length :=
    h.fragments.length_eq.symm
  rw [compile, hlength]
  have hadds := forest_anywhere hx hP hmay hfollow (h.named hx) h.selections
  exact hadds.forest hx hP hmay hfollow hss ht

end Anywhere

/-! ## 2. Nothing is lost -/

/-- A head with more operations has what one with less has. -/
def GrowsWith (P : EntryHead → Prop) : Prop :=
  ∀ h h' : EntryHead, h'.still = h.still → h.operations.Sublist h'.operations → P h → P h'

section Keeps

variable {P : EntryHead → Prop} (hP : ∀ a b, P (a.merge b) ↔ P a ∨ P b) (hgrows : GrowsWith P)
  {start : List Selection → String → Prop}

include hgrows in
/-- A field with spreads added below it loses nothing, if nothing is lost below it. -/
theorem tree_keeps {follow follow' : Follow} {seen : String → Prop} {head : FieldHead}
    {below below' : List Selection}
    (hb : Respread (Table.get? x.fragments) start may seen below below')
    {parent : Option NamedType} {masked : Bool} {entries entries' : SelectionTree}
    (hbelow : ∀ {parent : Option NamedType} {t t' : SelectionTree},
      x.forest follow parent masked [] below = .ok t →
      (x.withFragments fragments').forest follow' parent masked [] below' = .ok t' →
        ∀ p, SelectionTree.HasAt P t p → SelectionTree.HasAt P t' p)
    (h : x.tree follow parent masked (.field head below) = .ok entries)
    (h' : (x.withFragments fragments').tree follow' parent masked (.field head below')
      = .ok entries') :
    ∀ p, SelectionTree.HasAt P entries p → SelectionTree.HasAt P entries' p := by
  rw [tree] at h h'
  split at h
  · rename_i hname
    rw [if_pos hname] at h'
    obtain rfl := Except.ok.inj (h.symm.trans h')
    exact fun _ hp => hp
  · rename_i hname
    rw [if_neg hname] at h'
    simp only [bind_eq_ok, pure_eq_ok] at h h'
    obtain ⟨f, hdef, key, hkey, t, ht, head₁, hhead, rfl⟩ := h
    obtain ⟨f', hdef', key', hkey', t', ht', head₂, hhead', rfl⟩ := h'
    obtain rfl := Except.ok.inj (hdef.symm.trans hdef')
    obtain rfl := Except.ok.inj (hkey.symm.trans hkey')
    obtain ⟨hstill, hsublist⟩ := entryHead_grows hb hhead hhead'
    refine fun p => SelectionTree.HasAt.field (hgrows _ _ hstill hsublist) fun tree htree => ?_
    split at htree
    · cases htree
    · rename_i hne
      obtain rfl := Option.some.inj htree
      have hne' : below'.isEmpty = below.isEmpty :=
        hb.isEmpty fun hnil => absurd (List.isEmpty_iff.mpr hnil) hne
      exact ⟨t', by rw [hne', if_neg hne], hbelow ht ht'⟩

/-- The second selection loses nothing of the first one. -/
def TreeLosesNothing (P : EntryHead → Prop) (x : Compilation) (fragments' : Table String Fragment)
    (depth : Nat) (s s' : Selection) : Prop :=
  ∀ ⦃ancestors : List Ancestor⦄ ⦃parent : Option NamedType⦄ ⦃masked : Bool⦄
    ⦃entries entries' : SelectionTree⦄, s.Every (ListIsNamed x.config) ancestors →
    x.tree (x.follow depth) parent masked s = .ok entries →
    (x.withFragments fragments').tree ((x.withFragments fragments').follow depth) parent masked s'
      = .ok entries' →
      ∀ p, SelectionTree.HasAt P entries p → SelectionTree.HasAt P entries' p

/-- The same of selections, compiled one after another. -/
def LosesNothing (P : EntryHead → Prop) (x : Compilation) (fragments' : Table String Fragment)
    (depth : Nat) (ss ss' : List Selection) : Prop :=
  ∀ ⦃ancestors : List Ancestor⦄ ⦃parent : Option NamedType⦄ ⦃masked : Bool⦄
    ⦃merged merged' t t' : SelectionTree⦄, EveryIn (ListIsNamed x.config) ancestors ss →
    x.forest (x.follow depth) parent masked merged ss = .ok t →
    (x.withFragments fragments').forest ((x.withFragments fragments').follow depth) parent masked
      merged' ss' = .ok t' →
    (∀ p, SelectionTree.HasAt P merged p → SelectionTree.HasAt P merged' p) →
      ∀ p, SelectionTree.HasAt P t p → SelectionTree.HasAt P t' p

variable {depth : Nat} {seen : String → Prop} {s s' : Selection} {ss ss' : List Selection}

include hgrows in
theorem LosesNothing.field {head : FieldHead}
    (hb : Respread (Table.get? x.fragments) start may seen ss ss')
    (h : x.LosesNothing P fragments' depth ss ss') :
    x.TreeLosesNothing P fragments' depth (.field head ss) (.field head ss') := by
  intro ancestors parent masked entries entries' hs hentries hentries'
  rw [Selection.Every] at hs
  exact tree_keeps hgrows hb (fun ht ht' => h hs.2 ht ht' fun _ hp => hp) hentries hentries'

theorem LosesNothing.inline {condition : Option String} {directives : List Directive}
    (h : x.LosesNothing P fragments' depth ss ss') :
    x.TreeLosesNothing P fragments' depth (.inline condition directives ss)
      (.inline condition directives ss') := by
  intro ancestors parent masked entries entries' hs hentries hentries'
  rw [Selection.Every] at hs
  rw [tree] at hentries hentries'
  rw [narrowed_congr (x := x) (y := x.withFragments fragments') rfl] at hentries'
  exact h hs hentries hentries' fun _ hp => hp

variable (hfollow : ∀ name entries entries', x.follow depth name = .ok entries →
  (x.withFragments fragments').follow depth name = .ok entries' →
  ∀ p, SelectionTree.HasAt P entries p → SelectionTree.HasAt P entries' p)

include hfollow in
theorem treeLosesNothing_spread {name : String} {directives : List Directive} :
    x.TreeLosesNothing P fragments' depth (.spread name directives)
      (.spread name directives) := by
  intro ancestors parent masked entries entries' _ hentries hentries'
  rw [tree] at hentries hentries'
  exact hfollow name entries entries' hentries hentries'

theorem losesNothing_nil : x.LosesNothing P fragments' depth [] [] := by
  intro _ _ _ _ _ _ _ _ ht ht' hmerged
  rw [forest] at ht ht'
  obtain rfl := Except.ok.inj ht
  obtain rfl := Except.ok.inj ht'
  exact hmerged

variable (hx' : ∀ name f, Table.get? (x.withFragments fragments').fragments name = some f →
  EveryIn (ListIsNamed x.config) [] f.selections)

include hP hx' in
/-- A spread that is added. -/
theorem LosesNothing.again {name : String} {directives : List Directive}
    (h : x.LosesNothing P fragments' depth ss ss') :
    x.LosesNothing P fragments' depth ss (.spread name directives :: ss') := by
  intro ancestors parent masked merged merged' t t' hss ht ht' hmerged
  have hproper' := follow_proper (x := x.withFragments fragments') hx' depth
  rw [forest, tree, bind_eq_ok] at ht'
  obtain ⟨entries', hentries', ht'⟩ := ht'
  refine h hss ht ht' fun p hp => ?_
  rw [SelectionTree.hasAt_mergeInto hP (hproper' name entries' hentries').distinct]
  exact .inl (hmerged p hp)

include hx hP hx' in
/-- A selection that was there. -/
theorem LosesNothing.cons
    (hnamed : ∀ {ancestors}, s.Every (ListIsNamed x.config) ancestors →
      s'.Every (ListIsNamed x.config) ancestors)
    (hs : x.TreeLosesNothing P fragments' depth s s')
    (h : x.LosesNothing P fragments' depth ss ss') :
    x.LosesNothing P fragments' depth (s :: ss) (s' :: ss') := by
  intro ancestors parent masked merged merged' t t' hss ht ht' hmerged
  rw [EveryIn] at hss
  rw [forest, bind_eq_ok] at ht ht'
  obtain ⟨entries, hentries, ht⟩ := ht
  obtain ⟨entries', hentries', ht'⟩ := ht'
  have hsound := tree_sound (follow_proper hx depth) s hss.1 hentries
  have hsound' := tree_sound (x := x.withFragments fragments') (follow_proper hx' depth) s'
    (hnamed hss.1) hentries'
  exact h hss.2 ht ht' fun _ => SelectionTree.HasAt.mergeInto hP hsound.distinct hsound'.distinct
    hmerged (hs hss.1 hentries hentries')

include hx hP hgrows hx' hfollow in
/-- **With spreads added, nothing is lost.** -/
theorem forest_keeps (h : Respread (Table.get? x.fragments) start may seen ss ss') :
    x.LosesNothing P fragments' depth ss ss' := by
  induction h with
  | nil => exact losesNothing_nil
  | again _ _ _ ih => exact ih.again hP hx'
  | field hb _ ihb ih => exact ih.cons hx hP hx' hb.every_field (ihb.field hgrows hb)
  | inline hb _ ihb ih => exact ih.cons hx hP hx' hb.every_inline ihb.inline
  | spread _ ih => exact ih.cons hx hP hx' id (treeLosesNothing_spread hfollow)

include hx hP hgrows in
theorem follow_keeps {ss ss' : List Selection} (h : x.Respreads start may ss fragments' ss')
    (depth : Nat) : ∀ name entries entries', x.follow depth name = .ok entries →
      (x.withFragments fragments').follow depth name = .ok entries' →
      ∀ p, SelectionTree.HasAt P entries p → SelectionTree.HasAt P entries' p := by
  induction depth with
  | zero => exact fun _ _ _ hentries => absurd hentries follow_zero_ne_ok
  | succ depth ih =>
    intro name entries entries' hentries hentries'
    obtain ⟨f, hf, hentries⟩ := follow_succ_eq_ok.mp hentries
    obtain ⟨f', hf', hentries'⟩ := follow_succ_eq_ok.mp hentries'
    obtain ⟨body, hbody', hbody⟩ := h.get?_of_some hf
    obtain rfl := Option.some.inj (hbody'.symm.trans hf')
    exact forest_keeps hx hP hgrows ih (h.named hx) hbody (hx name f hf) hentries hentries'
      fun _ hp => hp

include hx hP hgrows in
/-- **With spreads added, nothing of the compiled selection is lost.** -/
theorem compile_keeps {ss ss' : List Selection} (hss : EveryIn (ListIsNamed x.config) [] ss)
    (h : x.Respreads start may ss fragments' ss') {type : NamedType} {t t' : SelectionTree}
    (ht : x.compile type ss = .ok t)
    (ht' : (x.withFragments fragments').compile type ss' = .ok t') :
    ∀ p, SelectionTree.HasAt P t p → SelectionTree.HasAt P t' p := by
  have hlength : (x.withFragments fragments').fragments.length = x.fragments.length :=
    h.fragments.length_eq.symm
  rw [compile, hlength] at ht'
  exact forest_keeps hx hP hgrows (follow_keeps hx hP hgrows h _) (h.named hx) h.selections hss ht
    ht' fun _ hp => hp

end Keeps

end QueryCompiler.Compilation
