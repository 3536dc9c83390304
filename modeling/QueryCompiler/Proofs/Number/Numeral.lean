import QueryCompiler.Number.Numeral
/-
# Whole numbers are read as they are written

The reader of whole numbers understands more than what a number is written as: blanks around it, a
plus, low lines, and the digits of other scripts.  None of this is in the text of a number, so the
reader gives the number back, unless it has too many digits.  In base sixteen a mark may stand in
front, whose letter is no digit, and any count of digits is read.

* `Numeral.int?_toString`: what is read from the text of a number;
* `Numeral.hex?_hexDigits`: what is read from its digits in base sixteen.
-/
namespace QueryCompiler

/-! ## 1. Characters of a number -/

namespace Text

theorem toNat_of_isDigit {ch : Char} (h : ch.isDigit = true) : 48 ≤ ch.toNat ∧ ch.toNat ≤ 57 := by
  simpa [Char.isDigit, UInt32.le_iff_toNat_le] using h

theorem digit?_of_isDigit {ch : Char} (h : ch.isDigit = true) :
    digit? ch = some (ch.toNat - '0'.toNat) := by
  obtain ⟨hlow, hhigh⟩ := toNat_of_isDigit h
  have hfirst : (0x30 ≤ ch.toNat && ch.toNat < 0x30 + 10) = true := by
    simp only [Bool.and_eq_true, decide_eq_true_iff]
    omega
  exact congrArg (Option.map (ch.toNat - ·)) (List.find?_cons_of_pos hfirst)

/-- A character above the blank and below the delete character is no blank. -/
theorem isBlank_eq_false {ch : Char} (hlow : 0x20 < ch.toNat) (hhigh : ch.toNat < 0x7F) :
    isBlank ch = false := by
  simp only [isBlank, Bool.or_eq_false_iff, Bool.and_eq_false_iff, decide_eq_false_iff_not]
  omega

/-- A text loses nothing at its ends where no character is one to be taken off. -/
theorem trimmed_of_forall {p : Char → Bool} {cs : List Char} (h : ∀ ch ∈ cs, p ch = false) :
    ((cs.dropWhile p).reverse.dropWhile p).reverse = cs := by
  have hdrop : ∀ {ds : List Char}, (∀ ch ∈ ds, p ch = false) → ds.dropWhile p = ds
    | [], _ => rfl
    | ch :: ds, hds => by rw [List.dropWhile_cons_of_neg (by simp [hds ch List.mem_cons_self])]
  rw [hdrop h, hdrop (fun ch hch => h ch (List.mem_reverse.mp hch)), List.reverse_reverse]

theorem stripped_of_forall {cs : List Char} (h : ∀ ch ∈ cs, isBlank ch = false) :
    stripped cs = cs := trimmed_of_forall h

end Text

namespace Numeral

open Text

/-! ## 2. The reader -/

theorem ungrouped?_of_forall {isDigit : Char → Bool} : ∀ {afterDigit : Bool} {cs : List Char},
    (∀ ch ∈ cs, ch ≠ '_') → ungrouped? isDigit afterDigit cs = some cs
  | _, [], _ => by rw [ungrouped?]
  | afterDigit, ch :: cs, h => by
    rw [ungrouped?, ungrouped?_of_forall fun ch hch => h ch (List.mem_cons_of_mem _ hch)]
    · rfl
    · exact fun heq => absurd heq (h ch List.mem_cons_self)

theorem mapM_digit? : ∀ {cs : List Char}, (∀ ch ∈ cs, ch.isDigit = true) →
    cs.mapM digit? = some (cs.map fun ch => ch.toNat - '0'.toNat)
  | [], _ => rfl
  | ch :: cs, h => by
    rw [List.mapM_cons, digit?_of_isDigit (h ch List.mem_cons_self),
      mapM_digit? fun ch hch => h ch (List.mem_cons_of_mem _ hch)]
    rfl

theorem signed_of_not_mem {cs : List Char} (hminus : '-' ∉ cs) (hplus : '+' ∉ cs) :
    signed cs = (false, cs) := by
  rw [signed]
  · rintro rest rfl
    exact hminus List.mem_cons_self
  · rintro rest rfl
    exact hplus List.mem_cons_self

/-- What digits write, read as digits are read. -/
theorem ofDigits_eq_ofDigitChars (cs : List Char) :
    ofDigits 10 (cs.map fun ch => ch.toNat - '0'.toNat) = Nat.ofDigitChars 10 cs 0 := by
  rw [ofDigits, Nat.ofDigitChars, List.foldl_map]

/-- Digits with a sign in front of them or none are read as the number that they write. -/
theorem int?_of_signed {text : String} {negative : Bool} {cs : List Char} {n : Nat}
    (hsigned : signed (stripped text.toList) = (negative, cs)) (hcs : cs = Nat.toDigits 10 n) :
    int? text = if cs.length ≤ mostDigits then some (if negative then -(n : Int) else n)
      else none := by
  have hdigits : ∀ ch ∈ cs, ch.isDigit = true := fun ch hch =>
    Nat.isDigit_of_mem_toDigits (by decide) (by decide) (hcs ▸ hch)
  have hlow : ∀ ch ∈ cs, ch ≠ '_' := by
    rintro ch hch rfl
    exact absurd (hdigits _ hch) (by decide)
  have hne : cs.isEmpty = false := by
    rw [hcs, List.isEmpty_eq_false_iff]
    exact Nat.toDigits_ne_nil
  have hvalue : ofDigits 10 (cs.map fun ch => ch.toNat - '0'.toNat) = n := by
    rw [ofDigits_eq_ofDigitChars, hcs, Nat.ofDigitChars_toDigits (by decide) (by decide)]
  rw [int?, hsigned]
  simp only [ungrouped?_of_forall hlow, digits?, hne, mapM_digit? hdigits, Bool.false_eq_true,
    if_false, bind, Option.bind, List.length_map, hvalue]
  by_cases hmany : cs.length > mostDigits
  · rw [if_pos hmany, if_neg (Nat.not_le.mpr hmany)]
  · rw [if_neg hmany, if_pos (Nat.not_lt.mp hmany)]
    rfl

/-- **A number is read from its text**, if it has no more digits than are read. -/
theorem int?_toString (n : Int) : int? (toString n) =
    if (Nat.toDigits 10 n.natAbs).length ≤ mostDigits then some n else none := by
  have hdigits : ∀ m : Nat, ∀ ch ∈ Nat.toDigits 10 m, ch.isDigit = true := fun m ch hch =>
    Nat.isDigit_of_mem_toDigits (by decide) (by decide) hch
  have hblank : ∀ m : Nat, ∀ ch ∈ Nat.toDigits 10 m, isBlank ch = false := fun m ch hch => by
    obtain ⟨hlow, hhigh⟩ := toNat_of_isDigit (hdigits m ch hch)
    exact isBlank_eq_false (by omega) (by omega)
  cases n with
  | ofNat m =>
    have htext : (toString (Int.ofNat m)).toList = Nat.toDigits 10 m := Nat.toList_repr
    have hsigned : signed (stripped (toString (Int.ofNat m)).toList)
        = (false, Nat.toDigits 10 m) := by
      rw [htext, stripped_of_forall (hblank m), signed_of_not_mem]
      · exact fun hminus => absurd (hdigits m _ hminus) (by decide)
      · exact fun hplus => absurd (hdigits m _ hplus) (by decide)
    exact int?_of_signed hsigned rfl
  | negSucc m =>
    have htext : (toString (Int.negSucc m)).toList = '-' :: Nat.toDigits 10 (m + 1) := by
      have happend : toString (Int.negSucc m) = "-" ++ (m + 1).repr := rfl
      rw [happend, String.toList_append, Nat.toList_repr]
      rfl
    have hsigned : signed (stripped (toString (Int.negSucc m)).toList)
        = (true, Nat.toDigits 10 (m + 1)) := by
      rw [htext, stripped_of_forall]
      · rfl
      · intro ch hch
        rcases List.mem_cons.mp hch with rfl | hch
        · rfl
        · exact hblank _ ch hch
    exact int?_of_signed hsigned rfl

/-! ## 3. Base sixteen -/

theorem hexDigit?_digitChar : ∀ k < 16, hexDigit? (Nat.digitChar k) = some k := by decide

theorem mapM_hexDigit? : ∀ {ks : List Nat}, (∀ k ∈ ks, k < 16) →
    (ks.map Nat.digitChar).mapM hexDigit? = some ks
  | [], _ => rfl
  | k :: ks, h => by
    rw [List.map_cons, List.mapM_cons, hexDigit?_digitChar k (h k List.mem_cons_self),
      mapM_hexDigit? fun k hk => h k (List.mem_cons_of_mem _ hk)]
    rfl

/-- The values of the `n` lowest digits of a number in base sixteen. -/
def hexValues (n value : Nat) : List Nat :=
  (List.range n).map fun i => value / twoTo (4 * (n - 1 - i)) % 16

theorem hexDigits_eq_map (n value : Nat) :
    hexDigits n value = (hexValues n value).map Nat.digitChar := by
  rw [hexValues, List.map_map]
  rfl

theorem lt_of_mem_hexValues {n value k : Nat} (h : k ∈ hexValues n value) : k < 16 := by
  obtain ⟨i, -, rfl⟩ := List.mem_map.mp h
  exact Nat.mod_lt _ (by decide)

/-- The last digit is split off by a division. -/
theorem hexValues_succ (n value : Nat) :
    hexValues (n + 1) value = hexValues n (value / 16) ++ [value % 16] := by
  have hfront : ∀ i ∈ List.range n, value / twoTo (4 * (n + 1 - 1 - i)) % 16
      = value / 16 / twoTo (4 * (n - 1 - i)) % 16 := by
    intro i hi
    have hlt := List.mem_range.mp hi
    rw [show 4 * (n + 1 - 1 - i) = 4 + 4 * (n - 1 - i) from by omega, Nat.div_div_eq_div_mul]
    exact congrArg (value / · % 16) (Nat.pow_add 2 4 _)
  rw [hexValues, List.range_succ, List.map_append, List.map_congr_left hfront, hexValues,
    List.map_singleton, Nat.add_sub_cancel, Nat.sub_self]
  exact congrArg (fun k => _ ++ [k % 16]) (Nat.div_one value)

theorem ofDigits_hexValues {n value : Nat} (h : value < twoTo (4 * n)) :
    ofDigits 16 (hexValues n value) = value := by
  induction n generalizing value with
  | zero => exact (Nat.lt_one_iff.mp h).symm
  | succ n ih =>
    have hfront : value / 16 < twoTo (4 * n) := by
      refine Nat.div_lt_of_lt_mul ?_
      exact Nat.lt_of_lt_of_eq h ((Nat.pow_add 2 (4 * n) 4).trans (Nat.mul_comm _ _))
    have hlast : ofDigits 16 (hexValues n (value / 16) ++ [value % 16])
        = 16 * ofDigits 16 (hexValues n (value / 16)) + value % 16 := List.foldl_append
    rw [hexValues_succ, hlast, ih hfront, Nat.div_add_mod]

/-- What all digits in base sixteen have, the characters of a number in base sixteen have. -/
theorem of_mem_hexDigits {p : Char → Prop} (hp : ∀ k < 16, p (Nat.digitChar k)) {n value : Nat}
    {ch : Char} (h : ch ∈ hexDigits n value) : p ch := by
  rw [hexDigits_eq_map] at h
  obtain ⟨k, hk, rfl⟩ := List.mem_map.mp h
  exact hp k (lt_of_mem_hexValues hk)

theorem not_mem_hexDigits {c : Char} (hc : ∀ k < 16, Nat.digitChar k ≠ c) {n value : Nat} :
    c ∉ hexDigits n value := fun h => of_mem_hexDigits (p := (· ≠ c)) hc h rfl

theorem afterHexMark?_of_not_mem {cs : List Char} (hlower : 'x' ∉ cs) (hupper : 'X' ∉ cs) :
    afterHexMark? cs = none := by
  unfold afterHexMark?
  split
  · rename_i zero x rest
    have hx : x ≠ 'x' ∧ x ≠ 'X' := by
      constructor <;> rintro rfl
      · exact hlower (List.mem_cons_of_mem _ List.mem_cons_self)
      · exact hupper (List.mem_cons_of_mem _ List.mem_cons_self)
    simp only [hx.1, hx.2, decide_false, Bool.or_self, Bool.and_false, Bool.false_eq_true,
      if_false]
  · rfl

/-- **A number is read from its digits in base sixteen**, if there are digits and enough of
them. -/
theorem hex?_hexDigits {n value : Nat} (hn : n ≠ 0) (h : value < twoTo (4 * n)) :
    hex? (hexDigits n value) = some (value : Int) := by
  have hblank : ∀ ch ∈ hexDigits n value, isBlank ch = false :=
    fun _ => of_mem_hexDigits (p := (isBlank · = false)) (by decide)
  have hgroups : ∀ ch ∈ hexDigits n value, ch ≠ '_' :=
    fun _ => of_mem_hexDigits (p := (· ≠ '_')) (by decide)
  have hsigned : signed (hexDigits n value) = (false, hexDigits n value) :=
    signed_of_not_mem (not_mem_hexDigits (by decide)) (not_mem_hexDigits (by decide))
  have hmark : afterHexMark? (hexDigits n value) = none :=
    afterHexMark?_of_not_mem (not_mem_hexDigits (by decide)) (not_mem_hexDigits (by decide))
  have hne : (hexDigits n value).isEmpty = false := by
    rw [List.isEmpty_eq_false_iff, ← List.length_pos_iff, hexDigits, List.length_map,
      List.length_range]
    exact Nat.pos_of_ne_zero hn
  have hread : (hexDigits n value).mapM hexDigit? = some (hexValues n value) := by
    rw [hexDigits_eq_map, mapM_hexDigit? fun _ => lt_of_mem_hexValues]
  rw [hex?, stripped_of_forall hblank, hsigned]
  simp only [hmark, ungrouped?_of_forall hgroups, digits?, hne, hread, Bool.false_eq_true, if_false,
    Option.bind_eq_bind, Option.bind_some, ofDigits_hexValues h]
  rfl

end Numeral

end QueryCompiler
