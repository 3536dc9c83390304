import QueryCompiler.Proofs.Selection.Compiled
import QueryCompiler.Proofs.Selection.KeyTree
/-
# Laws of merging

Merging is done path by path, so a law for the heads at one path and the keys below it is a law for
trees.

* `SelectionTree.mergeInto_assoc`: the order in which three trees are merged does not matter, as
  long as they stay in their places;
* `SelectionTree.Absorbs`: a tree has all that another one has, so that merging this in changes
  nothing, and that stays so whatever else is merged in (`Absorbs.mergeInto_right`).  A tree absorbs
  itself if it asks for no operations (`absorbs_self`): those are the one thing that merging counts.
-/
namespace QueryCompiler

/-! ## 1. Heads -/

namespace EntryHead

/-- The head has a type, and is not a list without a name.  An empty name counts as none when there
is another one, but not when there is none. -/
structure Named (h : EntryHead) : Prop where
  type : h.type.isSome = true
  list : h.list ≠ some ""

theorem firstText_self (a : Option String) : firstText a a = a := by
  cases a with
  | none => rfl
  | some text => rw [firstText, ite_self]

theorem firstText_of_ne {a b : Option String} (ha : a ≠ some "") : firstText a b = a.or b := by
  cases a with
  | none => rfl
  | some text => simpa [firstText] using fun ht : text = "" => absurd (congrArg some ht) ha

theorem or_ne {a b : Option String} (ha : a ≠ some "") (hb : b ≠ some "") : a.or b ≠ some "" := by
  cases a with
  | none => exact hb
  | some text => exact ha

theorem Named.merge {a b : EntryHead} (ha : a.Named) (hb : b.Named) : (a.merge b).Named where
  type := by
    obtain ⟨text, htext⟩ := Option.isSome_iff_exists.mp ha.type
    rw [EntryHead.merge, htext, firstText]
    split
    · exact hb.type
    · rfl
  list := by
    have hlist : (a.merge b).list = a.list.or b.list := firstText_of_ne ha.list
    rw [hlist]
    exact or_ne ha.list hb.list

/-- Without operations a head takes in itself. -/
theorem merge_self {a : EntryHead} (ha : a.operations = []) : a.merge a = a := by
  obtain ⟨type, key, masked, abstract, operations, list, connection, filters⟩ := a
  obtain rfl : operations = [] := ha
  simp [merge, firstText_self]

theorem or_again {α : Type} {a b c : Option α} (h : a.or c = a) : (a.or b).or c = a.or b := by
  cases a with
  | none =>
    obtain rfl : c = none := h
    exact Option.or_none
  | some a => rfl

theorem firstText_again {a b c : Option String} (hb : b.isSome = true) (hc : c.isSome = true)
    (h : firstText a c = a) : firstText (firstText a b) c = firstText a b := by
  cases a with
  | none =>
    obtain rfl : c = none := h
    exact absurd hc nofun
  | some text =>
    by_cases ht : text.isEmpty = true
    · -- only an empty text comes after an empty one unseen, and the text between them is not hidden
      obtain rfl : c = some text := by rwa [firstText, if_pos ht] at h
      obtain ⟨other, rfl⟩ := Option.isSome_iff_exists.mp hb
      by_cases ho : other.isEmpty = true
      · rw [String.isEmpty_iff] at ht ho
        rw [ht, ho]
        rfl
      · simp [firstText, ht, ho]
    · simp [firstText, ht]

/-- **A head that takes in another one** still does so with more between them. -/
theorem merge_again {a b c : EntryHead} (hb : b.Named) (hc : c.Named) (h : a.merge c = a) :
    (a.merge b).merge c = a.merge b := by
  have hmasked : (a.masked && c.masked) = a.masked := congrArg EntryHead.masked h
  have habstract : (a.abstract || c.abstract) = a.abstract := congrArg EntryHead.abstract h
  have hoperations : a.operations ++ c.operations = a.operations :=
    congrArg EntryHead.operations h
  have hlist : firstText a.list c.list = a.list := congrArg EntryHead.list h
  have hconnection : (a.connection || c.connection) = a.connection :=
    congrArg EntryHead.connection h
  have hfilters : a.filters.or c.filters = a.filters := congrArg EntryHead.filters h
  have ha : a.list ≠ some "" := fun ha => hc.list (by rw [ha] at hlist; exact hlist)
  rw [firstText_of_ne ha] at hlist
  have hnone : c.operations = [] := List.append_right_eq_self.mp hoperations
  simp only [merge, mk.injEq, true_and]
  refine ⟨firstText_again hb.type hc.type (congrArg EntryHead.type h), ?_, ?_, ?_, ?_, ?_, ?_⟩
  · rw [Bool.and_right_comm, hmasked]
  · rw [Bool.or_right_comm, habstract]
  · rw [hnone, List.append_nil]
  · rw [firstText_of_ne ha, firstText_of_ne (or_ne ha hb.list), or_again hlist]
  · rw [Bool.or_right_comm, hconnection]
  · exact or_again hfilters

end EntryHead

/-! ## 2. One path -/

/-- What takes in another thing still does so with more between them. -/
theorem optionMerge_again {α : Type} {f : α → α → α} {a b c : Option α}
    (hf : ∀ x y z, b = some y → c = some z → f x z = x → f (f x y) z = f x y)
    (h : a.merge f c = a) : (a.merge f b).merge f c = a.merge f b := by
  cases c with
  | none => exact Option.merge_none_right
  | some z =>
    cases a with
    | none => exact absurd h nofun
    | some x =>
      have hx : f x z = x := Option.some.inj h
      cases b with
      | none => exact congrArg some hx
      | some y => exact congrArg some (hf x y z rfl rfl hx)

theorem joinKeys_assoc (a b c : List String) :
    joinKeys (joinKeys a b) c = joinKeys a (joinKeys b c) := by
  simp only [joinKeys, List.filter_append, List.filter_filter, List.append_assoc]
  congr 2
  refine List.filter_congr fun k _ => ?_
  by_cases ha : k ∈ a <;> simp [ha]

instance : Std.Associative joinKeys := ⟨joinKeys_assoc⟩

theorem joinKeys_eq_left {a b : List String} : joinKeys a b = a ↔ b ⊆ a := by
  rw [joinKeys, List.append_right_eq_self, List.filter_eq_nil_iff]
  simp [List.subset_def]

theorem joinKeys_again {a b c : List String} (h : joinKeys a c = a) :
    joinKeys (joinKeys a b) c = joinKeys a b :=
  joinKeys_eq_left.mpr fun _ hk => List.mem_append_left _ (joinKeys_eq_left.mp h hk)

/-! ## 3. Trees -/

namespace SelectionTree

/-- No level has a key twice, and every head has the property. -/
structure Sound (P : EntryHead → Prop) (t : SelectionTree) : Prop where
  distinct : Entry.DistinctTree t
  heads : ∀ p h, Entry.headAt? t p = some h → P h

theorem headAt?_merged (t : SelectionTree) {s : SelectionTree} (hs : Entry.DistinctTree s)
    (p : List String) : Entry.headAt? (Entry.mergeInto t s) p
      = (Entry.headAt? t p).merge EntryHead.merge (Entry.headAt? s p) :=
  Entry.headAt_mergeInto t hs p

theorem keysAt?_merged (t : SelectionTree) {s : SelectionTree} (hs : Entry.DistinctTree s)
    (p : List String) : Entry.keysAt? (Entry.mergeInto t s) p
      = (Entry.keysAt? t p).merge joinKeys (Entry.keysAt? s p) :=
  Entry.keysAt_mergeInto t hs p

/-- **Merging is associative.** -/
theorem mergeInto_assoc {t s r : SelectionTree} (ht : Entry.DistinctTree t)
    (hs : Entry.DistinctTree s) (hr : Entry.DistinctTree r) :
    Entry.mergeInto (Entry.mergeInto t s) r = Entry.mergeInto t (Entry.mergeInto s r) := by
  have hts := Entry.distinctTree_mergeInto ht hs
  have hsr := Entry.distinctTree_mergeInto hs hr
  refine Entry.ext (Entry.distinctTree_mergeInto hts hr) (Entry.distinctTree_mergeInto ht hsr)
    (fun p => ?_) fun p => ?_
  · rw [keysAt?_merged _ hr, keysAt?_merged _ hs, keysAt?_merged _ hsr, keysAt?_merged _ hr]
    exact Std.Associative.assoc _ _ _
  · rw [headAt?_merged _ hr, headAt?_merged _ hs, headAt?_merged _ hsr, headAt?_merged _ hr]
    exact Std.Associative.assoc _ _ _

namespace Sound

variable {P : EntryHead → Prop} {t s : SelectionTree}

theorem nil : Sound P [] where
  distinct := by rw [Entry.DistinctTree]; trivial
  heads p h hp := by
    rw [Shows.nil.heads] at hp
    exact absurd hp nofun

theorem mono {Q : EntryHead → Prop} (ht : Sound P t) (h : ∀ head, P head → Q head) :
    Sound Q t where
  distinct := ht.distinct
  heads p head hp := h head (ht.heads p head hp)

theorem mergeInto (hP : ∀ a b, P a → P b → P (a.merge b)) (ht : Sound P t) (hs : Sound P s) :
    Sound P (Entry.mergeInto t s) where
  distinct := Entry.distinctTree_mergeInto ht.distinct hs.distinct
  heads p h hp := by
    rw [headAt?_merged t hs.distinct] at hp
    cases hx : Entry.headAt? t p with
    | none =>
      rw [hx, Option.merge_none_left] at hp
      exact hs.heads p h hp
    | some x =>
      cases hy : Entry.headAt? s p with
      | none =>
        rw [hx, hy, Option.merge_none_right] at hp
        exact ht.heads p h (hx.trans hp)
      | some y =>
        rw [hx, hy, Option.merge_some_some, Option.some.injEq] at hp
        exact hp ▸ hP x y (ht.heads p x hx) (hs.heads p y hy)

/-- The tree of a field with what is below it. -/
theorem field {key : String} {h : EntryHead} {fields : Option SelectionTree} (hh : P h)
    (hfields : ∀ below, fields = some below → Sound P below) :
    Sound P [(key, .node h fields)] where
  distinct := by
    rw [Entry.DistinctTree, Entry.Distinct]
    refine ⟨List.not_mem_nil, ?_, (Sound.nil (P := P)).distinct⟩
    cases fields with
    | none => rw [Entry.DistinctFields]; trivial
    | some below => exact (Entry.DistinctFields.eq_2 _).mpr (hfields below rfl).distinct
  heads p h' hp := by
    cases p with
    | nil => exact absurd hp nofun
    | cons k p =>
      by_cases hk : key = k
      · subst hk
        by_cases hnil : p = []
        · subst hnil
          rw [Entry.headAt?_cons_self, Option.some.injEq] at hp
          exact hp ▸ hh
        · rw [Entry.headAt?_cons_below hnil, Option.bind_eq_some_iff] at hp
          obtain ⟨below, hbelow, hp⟩ := hp
          exact (hfields below hbelow).heads p h' hp
      · rw [Entry.headAt?_cons_other hk] at hp
        exact Sound.nil.heads _ _ hp

end Sound

/-! ## 4. Trees that have all of another one -/

/-- Merging the second tree into the first one changes nothing. -/
def Absorbs (t s : SelectionTree) : Prop := Entry.mergeInto t s = t

variable {t s r : SelectionTree}

/-- What is absorbed further on is absorbed by the whole. -/
theorem Absorbs.mergeInto_left (ht : Entry.DistinctTree t) (hs : Entry.DistinctTree s)
    (hr : Entry.DistinctTree r) (h : Absorbs s r) : Absorbs (Entry.mergeInto t s) r := by
  rw [Absorbs, mergeInto_assoc ht hs hr, h]

/-- **What is absorbed stays absorbed** when more is merged in. -/
theorem Absorbs.mergeInto_right (ht : Entry.DistinctTree t) (hs : Sound EntryHead.Named s)
    (hr : Sound EntryHead.Named r) (h : Absorbs t r) : Absorbs (Entry.mergeInto t s) r := by
  have hts := Entry.distinctTree_mergeInto ht hs.distinct
  refine Entry.ext (Entry.distinctTree_mergeInto hts hr.distinct) hts (fun p => ?_) fun p => ?_
  · rw [keysAt?_merged _ hr.distinct, keysAt?_merged _ hs.distinct]
    refine optionMerge_again (fun _ _ _ _ _ => joinKeys_again) ?_
    rw [← keysAt?_merged t hr.distinct, h]
  · rw [headAt?_merged _ hr.distinct, headAt?_merged _ hs.distinct]
    refine optionMerge_again (fun x y z hy hz => ?_) ?_
    · exact EntryHead.merge_again (hs.heads p y hy) (hr.heads p z hz)
    · rw [← headAt?_merged t hr.distinct, h]

/-- **A tree without operations absorbs itself.** -/
theorem absorbs_self (ht : Sound (fun h => h.operations = []) t) : Absorbs t t := by
  refine Entry.ext (Entry.distinctTree_mergeInto ht.distinct ht.distinct) ht.distinct
    (fun p => ?_) fun p => ?_
  · rw [keysAt?_merged t ht.distinct]
    cases Entry.keysAt? t p with
    | none => rfl
    | some keys => exact congrArg some (joinKeys_eq_left.mpr (List.Subset.refl keys))
  · rw [headAt?_merged t ht.distinct]
    cases hp : Entry.headAt? t p with
    | none => rfl
    | some h => exact congrArg some (EntryHead.merge_self (ht.heads p h hp))

/-! ## 5. What one of the places says -/

/-- There is an entry at the path, and its head has the property. -/
def HasAt (P : EntryHead → Prop) (t : SelectionTree) (p : List String) : Prop :=
  ∃ h, Entry.headAt? t p = some h ∧ P h

variable {P : EntryHead → Prop}

theorem hasAt_nil {p : List String} : ¬ HasAt P [] p := by
  rintro ⟨h, hp, -⟩
  rw [Shows.nil.heads] at hp
  exact absurd hp nofun

/-- **Merged trees have what one of them has**, if two heads together have what one of them has. -/
theorem hasAt_mergeInto (hP : ∀ a b, P (a.merge b) ↔ P a ∨ P b) (hs : Entry.DistinctTree s)
    {p : List String} : HasAt P (Entry.mergeInto t s) p ↔ HasAt P t p ∨ HasAt P s p := by
  simp only [HasAt, headAt?_merged t hs]
  cases Entry.headAt? t p with
  | none => simp
  | some a =>
    cases Entry.headAt? s p with
    | none => simp
    | some b => simp [hP]

/-- What is in one merged tree is in another one, if that is so of their parts. -/
theorem HasAt.mergeInto (hP : ∀ a b, P (a.merge b) ↔ P a ∨ P b) {t' s' : SelectionTree}
    (hs : Entry.DistinctTree s) (hs' : Entry.DistinctTree s')
    (htt' : ∀ p, HasAt P t p → HasAt P t' p) (hss' : ∀ p, HasAt P s p → HasAt P s' p)
    {p : List String} (hp : HasAt P (Entry.mergeInto t s) p) :
    HasAt P (Entry.mergeInto t' s') p := by
  rw [hasAt_mergeInto hP hs] at hp
  rw [hasAt_mergeInto hP hs']
  exact hp.imp (htt' p) (hss' p)

theorem Absorbs.hasAt (hP : ∀ a b, P (a.merge b) ↔ P a ∨ P b) (hs : Entry.DistinctTree s)
    (h : Absorbs t s) {p : List String} (hp : HasAt P s p) : HasAt P t p := by
  rw [← h, hasAt_mergeInto hP hs]
  exact .inr hp

/-- What one field has another one with the same key has too, if its head and what is below it
do. -/
theorem HasAt.field {key : String} {h h' : EntryHead} {fields fields' : Option SelectionTree}
    {p : List String} (hh : P h → P h')
    (hfields : ∀ below, fields = some below →
      ∃ below', fields' = some below' ∧ ∀ q, HasAt P below q → HasAt P below' q)
    (hp : HasAt P [(key, .node h fields)] p) : HasAt P [(key, .node h' fields')] p := by
  obtain ⟨head, hat, hhead⟩ := hp
  cases p with
  | nil => exact absurd hat nofun
  | cons k p =>
    by_cases hk : key = k
    · subst hk
      by_cases hnil : p = []
      · subst hnil
        rw [Entry.headAt?_cons_self, Option.some.injEq] at hat
        rw [← hat] at hhead
        exact ⟨h', Entry.headAt?_cons_self, hh hhead⟩
      · rw [Entry.headAt?_cons_below hnil, Option.bind_eq_some_iff] at hat
        obtain ⟨below, hbelow, hat⟩ := hat
        obtain ⟨below', hbelow', hall⟩ := hfields below hbelow
        obtain ⟨head', hat', hhead'⟩ := hall p ⟨head, hat, hhead⟩
        refine ⟨head', ?_, hhead'⟩
        rw [Entry.headAt?_cons_below hnil]
        exact Option.bind_eq_some_iff.mpr ⟨below', hbelow', hat'⟩
    · rw [Entry.headAt?_cons_other hk] at hat
      exact absurd ⟨head, hat, hhead⟩ hasAt_nil

end SelectionTree

end QueryCompiler
