import QueryCompiler.Selection.Tree
/-
# Merging, seen from the paths of a tree

A tree of entries is read by paths of keys: `Entry.at?` finds the entry at a path, `Entry.subtree?`
the tree below it.  Merging two trees merges what they have at each path, and nothing else
(`at?_mergeInto`, `subtree?_mergeInto`).

The tree that is merged in has to have each key once at every level (`DistinctTree`), because
merging goes through its rows and a lookup only sees the first one.  Merging keeps this up
(`distinctTree_mergeInto`).
-/
namespace QueryCompiler.Entry

variable {κ α : Type}

/-! ## 1. Paths -/

/-- The tree below a path; the empty path is the top. -/
def subtree? [BEq κ] (t : EntryTree κ α) : List κ → Option (EntryTree κ α)
  | [] => some t
  | k :: p => ((Table.get? t k).bind Entry.fields).bind (subtree? · p)

/-- The entry at a path.  Nothing is at the empty path. -/
def at? [BEq κ] (t : EntryTree κ α) : List κ → Option (Entry κ α)
  | [] => none
  | [k] => Table.get? t k
  | k :: p => ((Table.get? t k).bind Entry.fields).bind (at? · p)

/-- What the entry at a path says about its own field. -/
def headAt? [BEq κ] (t : EntryTree κ α) (p : List κ) : Option α := (at? t p).map head

/-- The keys below a path, in their order. -/
def keysAt? [BEq κ] (t : EntryTree κ α) (p : List κ) : Option (List κ) :=
  (subtree? t p).map Table.keys

/-! ## 2. Keys that come once -/

mutual

/-- No level below an entry has a key twice. -/
def Distinct : Entry κ α → Prop
  | .node _ fields => DistinctFields fields

def DistinctFields : Option (List (κ × Entry κ α)) → Prop
  | none => True
  | some tree => DistinctTree tree

/-- No level of a tree has a key twice. -/
def DistinctTree : List (κ × Entry κ α) → Prop
  | [] => True
  | (k, e) :: tree => k ∉ Table.keys tree ∧ e.Distinct ∧ DistinctTree tree

end

theorem DistinctTree.nodup : ∀ {t : EntryTree κ α}, DistinctTree t → (Table.keys t).Nodup
  | [], _ => List.nodup_nil
  | (_, _) :: _, h => by
    rw [DistinctTree] at h
    exact List.nodup_cons.mpr ⟨h.1, DistinctTree.nodup h.2.2⟩

theorem DistinctTree.mem : ∀ {t : EntryTree κ α}, DistinctTree t → ∀ {k : κ} {e : Entry κ α},
    (k, e) ∈ t → e.Distinct
  | [], _, _, _, hm => absurd hm List.not_mem_nil
  | (_, _) :: _, h, _, _, hm => by
    rw [DistinctTree] at h
    rcases List.mem_cons.mp hm with heq | hm
    · rw [(Prod.mk.inj heq).2]
      exact h.2.1
    · exact h.2.2.mem hm

section Keys

variable [DecidableEq κ]

theorem distinctTree_upsert {k : κ} {f : Entry κ α → Entry κ α} {e : Entry κ α}
    (he : e.Distinct) (hf : ∀ first : Entry κ α, first.Distinct → (f first).Distinct) :
    ∀ {t : EntryTree κ α}, DistinctTree t → DistinctTree (Table.upsert t k f e)
  | [], _ => by
    rw [Table.upsert, DistinctTree]
    exact ⟨List.not_mem_nil, he, by rw [DistinctTree]; trivial⟩
  | (k', e') :: t, h => by
    rw [DistinctTree] at h
    obtain ⟨hk', he', ht⟩ := h
    by_cases hk : k' = k
    · rw [Table.upsert, if_pos (by simpa using hk), DistinctTree]
      exact ⟨hk', hf e' he', ht⟩
    · rw [Table.upsert, if_neg (by simpa using hk), DistinctTree]
      refine ⟨?_, he', distinctTree_upsert he hf ht⟩
      rw [Table.keys_upsert]
      split
      · exact hk'
      · simpa using ⟨hk', hk⟩

theorem mem_fields_distinct {t : EntryTree κ α} (h : DistinctTree t) {k : κ} {e : Entry κ α}
    (hk : Table.get? t k = some e) {tree : EntryTree κ α} (hf : e.fields = some tree) :
    DistinctTree tree := by
  have he : e.Distinct := h.mem (Table.mem_of_get? hk)
  obtain ⟨head, fields⟩ := e
  obtain rfl : fields = some tree := hf
  rwa [Distinct, DistinctFields] at he

theorem subtree?_distinct {t : EntryTree κ α} (h : DistinctTree t) :
    ∀ {p : List κ} {tree : EntryTree κ α}, subtree? t p = some tree → DistinctTree tree
  | [], tree, hp => by
    rw [subtree?, Option.some.injEq] at hp
    exact hp ▸ h
  | k :: p, tree, hp => by
    rw [subtree?, Option.bind_eq_some_iff] at hp
    obtain ⟨fields, hfields, hp⟩ := hp
    obtain ⟨e, he, hf⟩ := Option.bind_eq_some_iff.mp hfields
    exact subtree?_distinct (mem_fields_distinct h he hf) hp

/-- The entry at a path stands in the tree below the path without its last key. -/
theorem at?_concat : ∀ (t : EntryTree κ α) (p : List κ) (k : κ),
    at? t (p ++ [k]) = (subtree? t p).bind (Table.get? · k)
  | t, [], k => rfl
  | t, k' :: p, k => by
    have happ : k' :: p ++ [k] = k' :: (p ++ [k]) := rfl
    have hcons : at? t (k' :: (p ++ [k]))
        = ((Table.get? t k').bind Entry.fields).bind (at? · (p ++ [k])) := by
      cases p <;> rfl
    rw [happ, hcons, subtree?]
    cases (Table.get? t k').bind Entry.fields with
    | none => rfl
    | some tree => exact at?_concat tree p k

/-- What is further down than an entry stands among the fields of the entry. -/
theorem at?_append : ∀ {t : EntryTree κ α} {p q : List κ} {e : Entry κ α},
    at? t p = some e → q ≠ [] → at? t (p ++ q) = e.fields.bind (at? · q)
  | _, [], _, _, he, _ => absurd he nofun
  | _, [k], k' :: q, e, he, _ => by
    have hk : Table.get? _ k = some e := he
    rw [List.singleton_append, at?, hk, Option.bind_some]
    exact List.cons_ne_nil k' q
  | t, k :: k' :: p, q, e, he, hq => by
    rw [at?, Option.bind_eq_some_iff] at he
    · obtain ⟨fields, hfields, he⟩ := he
      have hbelow : at? t (k :: k' :: p ++ q) = at? fields (k' :: p ++ q) := by
        rw [List.cons_append, at?, hfields, Option.bind_some]
        exact List.cons_ne_nil k' (p ++ q)
      rw [hbelow, at?_append he hq]
    · exact List.cons_ne_nil k' p

end Keys

section Laws

variable [DecidableEq κ] [MergeHead α]

theorem head_merge (a b : Entry κ α) : (a.merge b).head = MergeHead.mergeHead a.head b.head := by
  cases b
  rw [merge]
  rfl

theorem fields_merge (a b : Entry κ α) : (a.merge b).fields = mergeFields a.fields b.fields := by
  cases b
  rw [merge]
  rfl

/-! ## 3. One level -/

theorem mergeInto_cons (t : EntryTree κ α) (k : κ) (e : Entry κ α) (s : EntryTree κ α) :
    mergeInto t ((k, e) :: s)
      = mergeInto (Table.upsert t k (fun first => first.merge e) e) s := by
  rw [mergeInto]

/-- **Merging merges what is under each key.** -/
theorem get?_mergeInto : ∀ (t s : EntryTree κ α), (Table.keys s).Nodup → ∀ k,
    Table.get? (mergeInto t s) k = (Table.get? t k).merge merge (Table.get? s k)
  | t, [], _, k => by rw [mergeInto, Table.get?_nil, Option.merge_none_right]
  | t, (k', e) :: s, h, k => by
    obtain ⟨hk', hs⟩ := List.nodup_cons.mp h
    rw [mergeInto_cons, get?_mergeInto _ s hs, Table.get?_upsert, Table.get?_cons]
    by_cases hk : k' = k
    · subst hk
      rw [if_pos rfl, if_pos rfl, (Table.get?_eq_none_iff s k').mpr hk', Option.merge_none_right]
      cases Table.get? t k' <;> rfl
    · rw [if_neg hk, if_neg hk]

/-- The keys of the second tree that are new come behind those of the first. -/
theorem keys_mergeInto : ∀ (t s : EntryTree κ α), (Table.keys s).Nodup →
    Table.keys (mergeInto t s)
      = Table.keys t ++ (Table.keys s).filter (fun k => decide (k ∉ Table.keys t))
  | t, [], _ => by rw [mergeInto]; simp [Table.keys]
  | t, (k, e) :: s, h => by
    obtain ⟨hk, hs⟩ := List.nodup_cons.mp h
    have hkeys : Table.keys ((k, e) :: s) = k :: Table.keys s := rfl
    rw [mergeInto_cons, keys_mergeInto _ s hs, Table.keys_upsert, hkeys]
    by_cases hm : k ∈ Table.keys t
    · rw [if_pos hm, List.filter_cons_of_neg (by simpa using hm)]
    · rw [if_neg hm, List.filter_cons_of_pos (by simpa using hm), List.append_assoc,
        List.singleton_append]
      congr 2
      refine List.filter_congr fun k' hk' => ?_
      have hne : ¬ k' = k := fun he => hk (he ▸ hk')
      simp [hne]

theorem mergeInto_of_disjoint : ∀ (t s : EntryTree κ α), (Table.keys (t ++ s)).Nodup →
    mergeInto t s = t ++ s
  | t, [], _ => by rw [mergeInto, List.append_nil]
  | t, (k, e) :: s, h => by
    have hk : k ∉ Table.keys t := by
      intro hm
      simp only [Table.keys, List.map_append, List.map_cons] at h
      exact (List.nodup_append.mp h).2.2 k hm k List.mem_cons_self rfl
    have happ : t ++ (k, e) :: s = t ++ [(k, e)] ++ s := by simp
    rw [mergeInto_cons, Table.upsert_of_notMem hk, happ]
    exact mergeInto_of_disjoint _ s (happ ▸ h)

/-- A tree merged into nothing is itself. -/
theorem nil_mergeInto {s : EntryTree κ α} (h : (Table.keys s).Nodup) : mergeInto [] s = s :=
  mergeInto_of_disjoint [] s h

theorem mergeFields_eq (t s : Option (EntryTree κ α))
    (h : ∀ tree, s = some tree → (Table.keys tree).Nodup) :
    mergeFields t s = t.merge mergeInto s := by
  cases s with
  | none => rw [mergeFields, Option.merge_none_right]
  | some tree =>
    cases t with
    | none => rw [mergeFields, Option.getD_none, nil_mergeInto (h tree rfl),
        Option.merge_none_left]
    | some t => rw [mergeFields, Option.getD_some, Option.merge_some_some]

/-! ## 4. Keys still come once -/

mutual

theorem distinct_merge {a : Entry κ α} (ha : a.Distinct) : ∀ {b : Entry κ α}, b.Distinct →
    (a.merge b).Distinct
  | .node head fields, hb => by
    obtain ⟨h, f⟩ := a
    rw [Distinct] at ha hb
    rw [merge, Distinct]
    exact distinctFields_mergeFields ha hb

theorem distinctFields_mergeFields {t : Option (EntryTree κ α)} (ht : DistinctFields t) :
    ∀ {s : Option (EntryTree κ α)}, DistinctFields s → DistinctFields (mergeFields t s)
  | none, _ => by
    rw [mergeFields]
    exact ht
  | some tree, hs => by
    rw [DistinctFields] at hs
    rw [mergeFields, DistinctFields]
    cases t with
    | none => exact distinctTree_mergeInto (by rw [Option.getD_none, DistinctTree]; trivial) hs
    | some t =>
      rw [DistinctFields] at ht
      exact distinctTree_mergeInto ht hs

theorem distinctTree_mergeInto {t : EntryTree κ α} (ht : DistinctTree t) :
    ∀ {s : EntryTree κ α}, DistinctTree s → DistinctTree (mergeInto t s)
  | [], _ => by
    rw [mergeInto]
    exact ht
  | (k, e) :: s, hs => by
    rw [DistinctTree] at hs
    rw [mergeInto_cons]
    exact distinctTree_mergeInto
      (distinctTree_upsert hs.2.1 (fun _ hfirst => distinct_merge hfirst hs.2.1) ht) hs.2.2

end

/-! ## 5. All levels -/

/-- **Merging merges what is below each path.** -/
theorem subtree?_mergeInto : ∀ (p : List κ) (t s : EntryTree κ α), DistinctTree s →
    subtree? (mergeInto t s) p = (subtree? t p).merge mergeInto (subtree? s p)
  | [], t, s, _ => rfl
  | k :: p, t, s, h => by
    rw [subtree?, subtree?, subtree?, get?_mergeInto t s h.nodup]
    cases ha : Table.get? t k with
    | none => simp only [Option.merge_none_left, Option.bind_none]
    | some a =>
      cases hb : Table.get? s k with
      | none => simp only [Option.merge_none_right, Option.bind_none]
      | some b =>
        have hd : ∀ tree, b.fields = some tree → DistinctTree tree :=
          fun tree hf => mem_fields_distinct h hb hf
        rw [Option.merge_some_some, Option.bind_some, Option.bind_some, Option.bind_some,
          fields_merge, mergeFields_eq _ _ fun tree hf => (hd tree hf).nodup]
        cases hf : b.fields with
        | none => simp only [Option.merge_none_right, Option.bind_none]
        | some s' =>
          cases a.fields with
          | none => simp only [Option.merge_none_left, Option.bind_none]
          | some t' => exact subtree?_mergeInto p t' s' (hd s' hf)

/-- **Merging merges the entries at each path.** -/
theorem at?_mergeInto (t : EntryTree κ α) {s : EntryTree κ α} (h : DistinctTree s)
    (p : List κ) : at? (mergeInto t s) p = (at? t p).merge merge (at? s p) := by
  rcases List.eq_nil_or_concat p with rfl | ⟨p, k, rfl⟩
  · rfl
  · rw [List.concat_eq_append, at?_concat, at?_concat, at?_concat, subtree?_mergeInto p t s h]
    cases hs : subtree? s p with
    | none => rw [Option.merge_none_right, Option.bind_none, Option.merge_none_right]
    | some s' =>
      cases subtree? t p with
      | none => rw [Option.merge_none_left, Option.bind_none, Option.merge_none_left]
      | some t' => exact get?_mergeInto t' s' (subtree?_distinct h hs).nodup k

/-- The heads of the entries at a path are merged. -/
theorem headAt_mergeInto (t : EntryTree κ α) {s : EntryTree κ α} (h : DistinctTree s)
    (p : List κ) : headAt? (mergeInto t s) p
      = (headAt? t p).merge MergeHead.mergeHead (headAt? s p) := by
  rw [headAt?, headAt?, headAt?, at?_mergeInto t h]
  cases at? t p <;> cases at? s p <;> simp [head_merge]

/-- The keys below a path come in the order of the two trees. -/
theorem keysAt_mergeInto (t : EntryTree κ α) {s : EntryTree κ α} (h : DistinctTree s)
    (p : List κ) : keysAt? (mergeInto t s) p
      = (keysAt? t p).merge (fun a b => a ++ b.filter (fun k => decide (k ∉ a)))
          (keysAt? s p) := by
  rw [keysAt?, keysAt?, keysAt?, subtree?_mergeInto p t s h]
  cases hs : subtree? s p with
  | none => cases subtree? t p <;> rfl
  | some s' =>
    cases subtree? t p with
    | none => rfl
    | some t' => exact congrArg some (keys_mergeInto t' s' (subtree?_distinct h hs).nodup)

end Laws

end QueryCompiler.Entry
