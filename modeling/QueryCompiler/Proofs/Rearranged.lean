import Mathlib.Data.List.Nodup
import Mathlib.Data.List.Perm.Basic
import Mathlib.Data.Option.Basic
import QueryCompiler.Table
/-
# Tables in another order

Two tables with the same rows, each key once, find the same under every key, and go on doing so when
the same row is put into both.  What the first hit of a search finds in them may only depend on the
order when there are several hits, and then it is as good as another (`rel_findSome?`).

* `Table.Rearranged.get?_eq`: a lookup does not depend on the order;
* `Table.Rearranged.of_get?`: tables that find the same have the same rows.
-/
namespace QueryCompiler

/-! ## 1. First hits -/

section Search

variable {α β : Type} {f : α → Option β} {as as' : List α}

/-- The first hits among the same things are related when any two hits are. -/
theorem rel_findSome? {R : β → β → Prop} (hmem : ∀ a, a ∈ as ↔ a ∈ as')
    (hR : ∀ a ∈ as, ∀ a' ∈ as, ∀ b b', f a = some b → f a' = some b' → R b b') :
    Option.Rel R (as.findSome? f) (as'.findSome? f) := by
  cases h : as.findSome? f with
  | none =>
    have hnone : as'.findSome? f = none := List.findSome?_eq_none_iff.mpr fun a ha =>
      List.findSome?_eq_none_iff.mp h a ((hmem a).mpr ha)
    rw [hnone]
    exact .none
  | some b =>
    obtain ⟨a, ha, hb⟩ := List.exists_of_findSome?_eq_some h
    cases h' : as'.findSome? f with
    | none =>
      have hnone := List.findSome?_eq_none_iff.mp h' a ((hmem a).mp ha)
      exact absurd (hnone.symm.trans hb) nofun
    | some b' =>
      obtain ⟨a', ha', hb'⟩ := List.exists_of_findSome?_eq_some h'
      exact .some (hR a ha a' ((hmem a').mpr ha') b b' hb hb')

/-- With one thing to find, the order does not matter. -/
theorem findSome?_eq (hmem : ∀ a, a ∈ as ↔ a ∈ as')
    (hone : ∀ a ∈ as, ∀ a' ∈ as, ∀ b b', f a = some b → f a' = some b' → b = b') :
    as.findSome? f = as'.findSome? f := by
  have hrel := rel_findSome? hmem hone
  revert hrel
  generalize as.findSome? f = hit, as'.findSome? f = hit'
  rintro (h | _)
  · rw [h]
  · rfl

end Search

/-! ## 2. Tables -/

namespace Table

variable {κ α : Type} {t t' : Table κ α}

/-- Tables with the same rows, and each key once. -/
structure Rearranged (t t' : Table κ α) : Prop where
  perm : t.Perm t'
  nodup : (keys t).Nodup

namespace Rearranged

theorem keys_perm (h : Rearranged t t') : (keys t).Perm (keys t') := h.perm.map _

theorem symm (h : Rearranged t t') : Rearranged t' t :=
  ⟨h.perm.symm, h.keys_perm.nodup_iff.mp h.nodup⟩

theorem length_eq (h : Rearranged t t') : t.length = t'.length := h.perm.length_eq

end Rearranged

variable [DecidableEq κ]

theorem nodup_keys_insert {t : Table κ α} (h : (keys t).Nodup) (k : κ) (v : α) :
    (keys (insert t k v)).Nodup := by
  rw [keys_insert]
  split
  · exact h
  · rename_i hk
    exact h.append (List.nodup_singleton k) (List.disjoint_singleton.mpr hk)

theorem nodup_keys_ofRows (rows : List (κ × α)) : (keys (ofRows rows)).Nodup := by
  have hfold : ∀ (rows : List (κ × α)) (t : Table κ α), (keys t).Nodup →
      (keys (rows.foldl (fun t row => insert t row.1 row.2) t)).Nodup := by
    intro rows
    induction rows with
    | nil => exact fun _ ht => ht
    | cons row rows ih => exact fun t ht => ih _ (nodup_keys_insert ht row.1 row.2)
  exact hfold rows [] List.nodup_nil

namespace Rearranged

/-- **A lookup does not depend on the order.** -/
theorem get?_eq (h : Rearranged t t') (k : κ) : get? t k = get? t' k := by
  refine Option.ext fun v => ⟨fun hv => ?_, fun hv => ?_⟩
  · exact get?_of_mem h.symm.nodup (h.perm.mem_iff.mp (mem_of_get? hv))
  · exact get?_of_mem h.nodup (h.perm.mem_iff.mpr (mem_of_get? hv))

/-- **Tables that find the same** have the same rows. -/
theorem of_get? (hnodup : (keys t).Nodup) (hnodup' : (keys t').Nodup)
    (h : ∀ k, get? t k = get? t' k) : Rearranged t t' := by
  refine ⟨(List.perm_ext_iff_of_nodup hnodup.of_map hnodup'.of_map).mpr fun row => ?_, hnodup⟩
  constructor
  · exact fun hrow => mem_of_get? ((h row.1).symm.trans (get?_of_mem hnodup hrow))
  · exact fun hrow => mem_of_get? ((h row.1).trans (get?_of_mem hnodup' hrow))

/-- The same row goes into both. -/
theorem insert (h : Rearranged t t') (k : κ) (v : α) :
    Rearranged (t.insert k v) (t'.insert k v) := by
  refine of_get? (nodup_keys_insert h.nodup k v) (nodup_keys_insert h.symm.nodup k v) fun k' => ?_
  rw [get?_insert, get?_insert, h.get?_eq]

theorem foldl_insert (key : α → κ) : ∀ (values : List α) {t t' : Table κ α}, Rearranged t t' →
    Rearranged (values.foldl (fun t v => Table.insert t (key v) v) t)
      (values.foldl (fun t v => Table.insert t (key v) v) t')
  | [], _, _, h => h
  | v :: values, _, _, h => foldl_insert key values (h.insert (key v) v)

end Rearranged

/-- Rows with each key once make the same table in any order. -/
theorem get?_ofRows_perm {rows rows' : List (κ × α)} (hperm : rows.Perm rows')
    (hnodup : (keys rows).Nodup) (k : κ) : get? (ofRows rows) k = get? (ofRows rows') k := by
  have h : Rearranged rows rows' := ⟨hperm, hnodup⟩
  rw [ofRows_of_nodup hnodup, ofRows_of_nodup h.symm.nodup, h.get?_eq]

end Table

end QueryCompiler
