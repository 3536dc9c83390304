import QueryCompiler.Uuid
import QueryCompiler.Proofs.Number.Numeral
/-
# Identifiers are read as they are written

The reader of identifiers takes off what may stand around the digits: the names of the urn scheme,
braces, hyphens.  Of these a written identifier has only the hyphens: both names begin with a letter
that is no digit in base sixteen, and a brace is none either.

* `Uuid.read?_write`: what is read from a written identifier.
-/
namespace QueryCompiler.Uuid

open Numeral

/-! ## 1. What is taken off -/

/-- Nothing is taken off where a name cannot begin. -/
theorem without_of_not_mem {c : Char} {part : List Char} : ∀ {n : Nat} {cs : List Char}, c ∉ cs →
    without (c :: part) n cs = cs
  | 0, cs, _ => by rw [without]
  | _ + 1, [], _ => rfl
  | n + 1, d :: cs, h => by
    have hd : ¬(c :: part).isPrefixOf (d :: cs) = true := by
      rw [List.isPrefixOf_iff_prefix, List.cons_prefix_cons]
      exact fun hpart => h (hpart.1 ▸ List.mem_cons_self)
    rw [without, if_neg hd, without_of_not_mem fun hc => h (List.mem_cons_of_mem _ hc)]

/-- Digits in groups with hyphens between. -/
def grouped (ds : List Char) : List Char :=
  ds.take 8 ++ '-' :: (ds.drop 8).take 4 ++ '-' :: (ds.drop 12).take 4 ++ '-' ::
    (ds.drop 16).take 4 ++ '-' :: ds.drop 20

theorem mem_grouped {ds : List Char} {ch : Char} (h : ch ∈ grouped ds) : ch ∈ ds ∨ ch = '-' := by
  simp only [grouped, List.mem_append, List.mem_cons] at h
  rcases h with (((h | rfl | h) | rfl | h) | rfl | h) | rfl | h
  · exact .inl (List.mem_of_mem_take h)
  · exact .inr rfl
  · exact .inl (List.mem_of_mem_drop (List.mem_of_mem_take h))
  · exact .inr rfl
  · exact .inl (List.mem_of_mem_drop (List.mem_of_mem_take h))
  · exact .inr rfl
  · exact .inl (List.mem_of_mem_drop (List.mem_of_mem_take h))
  · exact .inr rfl
  · exact .inl (List.mem_of_mem_drop h)

/-- Without the hyphens the groups are the digits again. -/
theorem filter_grouped {ds : List Char} (h : '-' ∉ ds) : (grouped ds).filter (· ≠ '-') = ds := by
  have hself : ∀ {part : List Char}, (∀ ch ∈ part, ch ∈ ds) → part.filter (· ≠ '-') = part := by
    intro part hpart
    rw [List.filter_eq_self]
    exact fun ch hch => decide_eq_true fun heq => h (heq ▸ hpart ch hch)
  have hjoin : ∀ m, (ds.drop m).take 4 ++ ds.drop (m + 4) = ds.drop m := fun m => by
    rw [← List.drop_drop, List.take_append_drop]
  have hgroup : ∀ m, ((ds.drop m).take 4).filter (· ≠ '-') = (ds.drop m).take 4 := fun m =>
    hself fun ch hch => List.mem_of_mem_drop (List.mem_of_mem_take hch)
  have hhyphen : ∀ cs : List Char, ('-' :: cs).filter (· ≠ '-') = cs.filter (· ≠ '-') :=
    fun _ => rfl
  simp only [grouped, List.append_assoc, List.cons_append, List.filter_append, hhyphen, hgroup,
    hself fun ch hch => List.mem_of_mem_take hch, hself fun ch hch => List.mem_of_mem_drop hch,
    hjoin, List.take_append_drop]

theorem bare_grouped {ds : List Char} (hu : 'u' ∉ ds) (hbrace : ∀ ch ∈ ds, isBrace ch = false)
    (hhyphen : '-' ∉ ds) : bare (grouped ds) = ds := by
  have hname : 'u' ∉ grouped ds := fun h =>
    (mem_grouped h).elim hu fun heq => absurd heq (by decide)
  have hends : ∀ ch ∈ grouped ds, isBrace ch = false := fun ch hch =>
    (mem_grouped hch).elim (hbrace ch) fun heq => heq ▸ rfl
  rw [bare, without_of_not_mem hname, without_of_not_mem hname, Text.trimmed_of_forall hends,
    filter_grouped hhyphen]

/-! ## 2. The reader -/

theorem of?_self (u : Uuid) : of? u.value = some u := by
  rw [of?, dif_pos ⟨Int.natCast_nonneg _, u.lt⟩]
  rfl

/-- **A written identifier is read back.** -/
theorem read?_write (u : Uuid) : read? (String.ofList u.write) = some u := by
  have hbare : bare u.write = u.digits :=
    bare_grouped (not_mem_hexDigits (by decide))
      (fun _ => of_mem_hexDigits (p := (isBrace · = false)) (by decide))
      (not_mem_hexDigits (by decide))
  have hlength : u.digits.length = 32 := by
    rw [digits, hexDigits, List.length_map, List.length_range]
  have hhex : hex? u.digits = some (u.value : Int) := hex?_hexDigits (by decide) u.lt
  rw [read?, String.toList_ofList]
  simp only [hbare, hlength, hhex, of?_self, Option.bind_eq_bind, Option.bind_some, ne_eq,
    not_true_eq_false, if_false]

end QueryCompiler.Uuid
