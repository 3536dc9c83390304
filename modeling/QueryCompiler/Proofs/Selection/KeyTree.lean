import QueryCompiler.Selection.Entry
import QueryCompiler.Proofs.Selection.Expansion
import QueryCompiler.Proofs.Selection.Merging
/-
# Key trees

The key tree of a selection is what remains when its entries forget what they say: the keys of
every level in their order, and which of them have something below.  An expansion has a key tree
of its own, given level by level (`IsKeyTreeOf`); there is only one (`IsKeyTreeOf.unique`).
-/
namespace QueryCompiler

/-- A tree of keys. -/
abbrev KeyTree := EntryTree String Unit

/-- The keys of a selection. -/
def SelectionTree.keyTree (t : SelectionTree) : KeyTree := Entry.mapTree id (fun _ => ()) t

/-- The tree has at every level the keys that the expansion has there, in the order in which it
first meets them, and a level below exactly those keys under which some place has selections. -/
structure IsKeyTreeOf (os : List Occurrence) (t : KeyTree) : Prop where
  distinct : Entry.DistinctTree t
  keys : ∀ p, Entry.keysAt? t p = keysAt os p

/-! ## 1. Forgetting heads -/

namespace Entry

variable {α β : Type} {f : α → β}

theorem keys_mapTree : ∀ t : EntryTree String α, Table.keys (mapTree id f t) = Table.keys t
  | [] => rfl
  | (k, e) :: t => by
    rw [mapTree, id]
    exact congrArg (k :: ·) (keys_mapTree t)

theorem get?_mapTree (k : String) : ∀ t : EntryTree String α,
    Table.get? (mapTree id f t) k = (Table.get? t k).map (Entry.map id f)
  | [] => rfl
  | (k', e) :: t => by
    rw [mapTree, id, Table.get?_cons, Table.get?_cons, get?_mapTree k t]
    split <;> rfl

theorem fields_map (e : Entry String α) :
    (e.map id f).fields = e.fields.map (mapTree id f) := by
  obtain ⟨h, fields⟩ := e
  rw [Entry.map]
  cases fields <;> rfl

theorem subtree?_mapTree : ∀ (p : List String) (t : EntryTree String α),
    subtree? (mapTree id f t) p = (subtree? t p).map (mapTree id f)
  | [], _ => rfl
  | k :: p, t => by
    rw [subtree?, subtree?, get?_mapTree]
    cases Table.get? t k with
    | none => rfl
    | some e =>
      rw [Option.map_some, Option.bind_some, Option.bind_some, fields_map]
      cases e.fields with
      | none => rfl
      | some tree => exact subtree?_mapTree p tree

theorem headAt?_mapTree (t : EntryTree String α) (p : List String) :
    headAt? (mapTree id f t) p = (headAt? t p).map f := by
  rcases List.eq_nil_or_concat p with rfl | ⟨p, k, rfl⟩
  · rfl
  · rw [List.concat_eq_append, headAt?, headAt?, at?_concat, at?_concat, subtree?_mapTree]
    cases subtree? t p with
    | none => rfl
    | some tree =>
      rw [Option.map_some, Option.bind_some, Option.bind_some, get?_mapTree]
      cases Table.get? tree k with
      | none => rfl
      | some e =>
        cases e
        rfl

/-- Forgetting heads changes no level. -/
theorem keysAt?_mapTree (t : EntryTree String α) (p : List String) :
    keysAt? (mapTree id f t) p = keysAt? t p := by
  rw [keysAt?, keysAt?, subtree?_mapTree]
  cases subtree? t p with
  | none => rfl
  | some tree => exact congrArg some (keys_mapTree tree)

mutual

theorem distinct_map : ∀ {e : Entry String α}, e.Distinct → (e.map id f).Distinct
  | .node h fields, hd => by
    rw [Distinct] at hd
    rw [Entry.map, Distinct]
    exact distinctFields_mapFields hd

theorem distinctFields_mapFields : ∀ {fields : Option (EntryTree String α)},
    DistinctFields fields → DistinctFields (mapFields id f fields)
  | none, _ => by rw [mapFields, DistinctFields]; trivial
  | some tree, hd => by
    rw [DistinctFields] at hd
    rw [mapFields, DistinctFields]
    exact distinctTree_mapTree hd

theorem distinctTree_mapTree : ∀ {t : EntryTree String α}, DistinctTree t →
    DistinctTree (mapTree id f t)
  | [], _ => by rw [mapTree, DistinctTree]; trivial
  | (k, e) :: t, hd => by
    rw [DistinctTree] at hd
    rw [mapTree, DistinctTree, keys_mapTree]
    exact ⟨hd.1, distinct_map hd.2.1, distinctTree_mapTree hd.2.2⟩

end

/-! ## 2. A tree is given by its levels and heads -/

theorem keysAt?_cons_key {k : String} {e : Entry String α} {t : EntryTree String α}
    (p : List String) :
    keysAt? ((k, e) :: t) (k :: p) = e.fields.bind fun tree => keysAt? tree p := by
  rw [keysAt?, subtree?, Table.get?_cons, if_pos rfl, Option.bind_some]
  cases e.fields <;> rfl

theorem keysAt?_cons_other {k k' : String} (h : k ≠ k') {e : Entry String α}
    {t : EntryTree String α} (p : List String) :
    keysAt? ((k, e) :: t) (k' :: p) = keysAt? t (k' :: p) := by
  rw [keysAt?, subtree?, Table.get?_cons, if_neg h]
  rfl

theorem keysAt?_of_notMem {k : String} {t : EntryTree String α} (h : k ∉ Table.keys t)
    (p : List String) : keysAt? t (k :: p) = none := by
  rw [keysAt?, subtree?, (Table.get?_eq_none_iff t k).mpr h]
  rfl

theorem headAt?_cons_self {k : String} {e : Entry String α} {t : EntryTree String α} :
    headAt? ((k, e) :: t) [k] = some e.head := by
  rw [headAt?, at?, Table.get?_cons, if_pos rfl, Option.map_some]

theorem headAt?_cons_below {k : String} {e : Entry String α} {t : EntryTree String α}
    {p : List String} (hp : p ≠ []) :
    headAt? ((k, e) :: t) (k :: p) = e.fields.bind fun tree => headAt? tree p := by
  rw [headAt?, at?, Table.get?_cons, if_pos rfl, Option.bind_some]
  · cases e.fields <;> rfl
  · exact hp

theorem headAt?_cons_other {k k' : String} (h : k ≠ k') {e : Entry String α}
    {t : EntryTree String α} (p : List String) :
    headAt? ((k, e) :: t) (k' :: p) = headAt? t (k' :: p) := by
  cases p <;> simp [headAt?, at?, Table.get?_cons, h]

theorem headAt?_of_notMem {k : String} {t : EntryTree String α} (h : k ∉ Table.keys t)
    (p : List String) : headAt? t (k :: p) = none := by
  cases p <;> simp [headAt?, at?, (Table.get?_eq_none_iff t k).mpr h]

mutual

/-- What is below an entry is given by the levels and the heads there. -/
theorem fields_ext : ∀ {fields others : Option (EntryTree String α)}, DistinctFields fields →
    DistinctFields others → (∀ p, fields.bind (keysAt? · p) = others.bind (keysAt? · p)) →
    (∀ p, p ≠ [] → fields.bind (headAt? · p) = others.bind (headAt? · p)) → fields = others
  | none, none, _, _, _, _ => rfl
  | none, some _, _, _, h, _ => absurd (h []) nofun
  | some _, none, _, _, h, _ => absurd (h []) nofun
  | some t, some s, ht, hs, h, hheads => by
    rw [DistinctFields] at ht hs
    refine congrArg some (ext ht hs h fun p => ?_)
    cases p with
    | nil => rfl
    | cons k p => exact hheads (k :: p) (List.cons_ne_nil k p)

/-- **Two trees with the same levels and the same heads are equal.** -/
theorem ext : ∀ {t s : EntryTree String α}, DistinctTree t → DistinctTree s →
    (∀ p, keysAt? t p = keysAt? s p) → (∀ p, headAt? t p = headAt? s p) → t = s
  | [], [], _, _, _, _ => rfl
  | [], (_, _) :: _, _, _, h, _ => absurd (Option.some.inj (h [])) nofun
  | (_, _) :: _, [], _, _, h, _ => absurd (Option.some.inj (h [])) nofun
  | (k, .node head fields) :: t, (k', .node head' others) :: s, ht, hs, h, hheads => by
    rw [DistinctTree, Distinct] at ht hs
    obtain ⟨rfl, hkeys⟩ := List.cons.inj (Option.some.inj (h []))
    have hhead : head = head' := by
      have := hheads [k]
      rwa [headAt?_cons_self, headAt?_cons_self, Option.some.injEq] at this
    have hfields : fields = others := by
      refine fields_ext ht.2.1 hs.2.1 (fun p => ?_) fun p hp => ?_
      · have := h (k :: p)
        rwa [keysAt?_cons_key, keysAt?_cons_key] at this
      · have := hheads (k :: p)
        rwa [headAt?_cons_below hp, headAt?_cons_below hp] at this
    have hrest : t = s := by
      refine ext ht.2.2 hs.2.2 (fun p => ?_) fun p => ?_
      · cases p with
        | nil => exact congrArg some hkeys
        | cons k' p =>
          by_cases hk : k = k'
          · subst hk
            rw [keysAt?_of_notMem ht.1, keysAt?_of_notMem hs.1]
          · have := h (k' :: p)
            rwa [keysAt?_cons_other hk, keysAt?_cons_other hk] at this
      · cases p with
        | nil => rfl
        | cons k' p =>
          by_cases hk : k = k'
          · subst hk
            rw [headAt?_of_notMem ht.1, headAt?_of_notMem hs.1]
          · have := hheads (k' :: p)
            rwa [headAt?_cons_other hk, headAt?_cons_other hk] at this
    rw [hhead, hfields, hrest]

end

end Entry

/-- In a tree of keys there is an entry wherever a level has its key. -/
theorem KeyTree.headAt?_concat (t : KeyTree) (p : List String) (k : String) :
    Entry.headAt? t (p ++ [k])
      = (Entry.keysAt? t p).bind fun keys => if k ∈ keys then some () else none := by
  rw [Entry.headAt?, Entry.keysAt?, Entry.at?_concat]
  cases Entry.subtree? t p with
  | none => rfl
  | some tree =>
    rw [Option.bind_some, Option.map_some, Option.bind_some]
    by_cases hk : k ∈ Table.keys tree
    · rw [if_pos hk]
      cases hget : Table.get? tree k with
      | none => exact absurd hk ((Table.get?_eq_none_iff tree k).mp hget)
      | some e => rfl
    · rw [if_neg hk, (Table.get?_eq_none_iff tree k).mpr hk]
      rfl

/-- **Two key trees with the same levels are equal.** -/
theorem KeyTree.ext {t s : KeyTree} (ht : Entry.DistinctTree t) (hs : Entry.DistinctTree s)
    (h : ∀ p, Entry.keysAt? t p = Entry.keysAt? s p) : t = s := by
  refine Entry.ext ht hs h fun p => ?_
  rcases List.eq_nil_or_concat p with rfl | ⟨p, k, rfl⟩
  · rfl
  · rw [List.concat_eq_append, KeyTree.headAt?_concat, KeyTree.headAt?_concat, h]

/-- **An expansion has at most one key tree.** -/
theorem IsKeyTreeOf.unique {os : List Occurrence} {t s : KeyTree} (ht : IsKeyTreeOf os t)
    (hs : IsKeyTreeOf os s) : t = s :=
  KeyTree.ext ht.distinct hs.distinct fun p => (ht.keys p).trans (hs.keys p).symm

end QueryCompiler
