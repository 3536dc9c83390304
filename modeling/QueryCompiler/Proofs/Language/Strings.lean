import Mathlib.Data.List.DropRight
import Mathlib.Tactic.SplitIfs
import QueryCompiler.Language.Printer
import QueryCompiler.Language.Token
/-
# Strings are read back

A string may hold quotes, backslashes and ends of lines.  Between quotes each of these is escaped, and
what is escaped begins with no quote.  In a block string only three quotes in a row are, so it matters
what stands behind the value: a value that ends with a quote or a backslash is closed on a line of its
own.  Block strings lose the blank lines around them when they are read, and so the value of one does
not begin or end with the end of a line.

* `unquoted?_quotedChar`, `quotedText_inj`: what stands between quotes;
* `BlockString.blockBody_escaped`: reading what was escaped;
* `BlockString.written_inj`, `BlockString.quoted_ne_written`: no two strings are written alike.
-/
namespace QueryCompiler

/-! ## 1. Quoted strings -/

/-- The first character of what stands between quotes, with the rest. -/
def unquoted? : List Char → Option (Char × List Char)
  | '\\' :: 'u' :: a :: b :: c :: d :: cs =>
    ((Token.hex? [a, b, c, d]).bind Token.char?).map (·, cs)
  | '\\' :: c :: cs => (Token.escape? c).map (·, cs)
  | c :: cs => some (c, cs)
  | [] => none

/-- The control characters, which are escaped by their numbers, are read back. -/
theorem hex?_hexPair : ∀ n < 160,
    (Token.hex? ('0' :: '0' :: hexPair n)).bind Token.char? = some (Char.ofNat n) := by
  decide +kernel

/-- **A character of a quoted string is read back.** -/
theorem unquoted?_quotedChar (c : Char) (cs : List Char) :
    unquoted? (quotedChar c ++ cs) = some (c, cs) := by
  unfold quotedChar
  split_ifs with hquote hbackslash hb ht hn hf hr hcontrol
  · rw [hquote]
    rfl
  · rw [hbackslash]
    rfl
  · rw [hb]
    rfl
  · rw [ht]
    rfl
  · rw [hn]
    rfl
  · rw [hf]
    rfl
  · rw [hr]
    rfl
  · have hlow : c.toNat < 160 := by
      simp only [Bool.or_eq_true, Bool.and_eq_true, decide_eq_true_eq] at hcontrol
      omega
    have hread := hex?_hexPair c.toNat hlow
    rw [Char.ofNat_toNat] at hread
    change (Option.bind (Token.hex? ('0' :: '0' :: hexPair c.toNat)) Token.char?).map (·, cs) = _
    rw [hread, Option.map_some]
  · exact unquoted?.eq_3 c cs (fun _ _ _ _ _ he => absurd he hbackslash)
      fun _ _ he => absurd he hbackslash

/-- No character of a quoted string begins with a quote. -/
theorem quotedChar_append_ne (c : Char) (cs rest : List Char) :
    quotedChar c ++ cs ≠ '"' :: rest := by
  intro h
  have hread : some (c, cs) = some ('"', rest) := (unquoted?_quotedChar c cs).symm.trans (h ▸ rfl)
  obtain ⟨rfl, -⟩ := Prod.mk.inj (Option.some.inj hread)
  exact absurd h nofun

/-- **What stands between quotes is read in one way**, up to the first quote that ends it. -/
theorem quotedText_inj {text text' rest rest' : List Char}
    (h : text.flatMap quotedChar ++ '"' :: rest = text'.flatMap quotedChar ++ '"' :: rest') :
    text = text' ∧ rest = rest' := by
  induction text generalizing text' with
  | nil =>
    cases text' with
    | nil => exact ⟨rfl, (List.cons.inj h).2⟩
    | cons c text' =>
      rw [List.flatMap_cons, List.append_assoc] at h
      exact absurd h.symm (quotedChar_append_ne c _ rest)
  | cons c text ih =>
    cases text' with
    | nil =>
      rw [List.flatMap_cons, List.append_assoc] at h
      exact absurd h (quotedChar_append_ne c _ rest')
    | cons c' text' =>
      rw [List.flatMap_cons, List.flatMap_cons, List.append_assoc, List.append_assoc] at h
      have hread := congrArg unquoted? h
      rw [unquoted?_quotedChar, unquoted?_quotedChar] at hread
      obtain ⟨rfl, hrest⟩ := Prod.mk.inj (Option.some.inj hread)
      obtain ⟨rfl, rfl⟩ := ih hrest
      exact ⟨rfl, rfl⟩

theorem toList_quoted (text : String) (rest : List Char) :
    (quoted text).toList ++ rest = '"' :: (text.toList.flatMap quotedChar ++ '"' :: rest) := by
  rw [quoted, String.toList_ofList, List.cons_append, List.cons_append, List.append_assoc]
  rfl

/-! ## 2. Block strings -/

namespace BlockString

/-- What follows a value does not run into it: after a quote or a backslash comes no quote. -/
def Closed (value rest : List Char) : Prop :=
  value.getLast? = some '"' ∨ value.getLast? = some '\\' → rest.head? ≠ some '"'

theorem Closed.tail {c : Char} {value rest : List Char} (h : Closed (c :: value) rest) :
    Closed value rest := by
  cases value with
  | nil => exact nofun
  | cons d value => rwa [Closed, List.getLast?_cons_cons] at h

/-- Escaped text that begins with a quote is that of a value that does, with no two more quotes. -/
theorem escaped_eq_quote {value rest left : List Char} (hvalue : value ≠ [])
    (h : escaped value ++ rest = '"' :: left) :
    ∃ more, value = '"' :: more ∧ escaped more ++ rest = left ∧
      ∀ others, more ≠ '"' :: '"' :: others := by
  fun_cases escaped value with
  | case1 more => exact absurd h nofun
  | case2 c more hother =>
    rw [escaped.eq_2 c more hother, List.cons_append] at h
    obtain ⟨rfl, hleft⟩ := List.cons.inj h
    exact ⟨more, rfl, hleft, fun others => hother others rfl⟩
  | case3 => exact absurd rfl hvalue

/-- Escaped text does not begin with three quotes, whatever follows. -/
theorem escaped_append_ne {value rest : List Char} (hclosed : Closed value rest)
    (hvalue : value ≠ []) (left : List Char) :
    escaped value ++ rest ≠ '"' :: '"' :: '"' :: left := by
  intro h
  obtain ⟨more, rfl, h, hother⟩ := escaped_eq_quote hvalue h
  have hmore : more ≠ [] := by
    rintro rfl
    exact hclosed (.inl rfl) (congrArg List.head? h)
  obtain ⟨others, rfl, h, -⟩ := escaped_eq_quote hmore h
  have hothers : others ≠ [] := by
    rintro rfl
    exact hclosed (.inl rfl) (congrArg List.head? h)
  obtain ⟨last, rfl, -, -⟩ := escaped_eq_quote hothers h
  exact hother last rfl

/-- **What is escaped is read back**, and so is what follows it. -/
theorem blockBody_escaped (value rest : List Char) (hclosed : Closed value rest) :
    Token.blockBody (escaped value ++ rest)
      = (Token.blockBody rest).map fun (cs, left) => (value ++ cs, left) := by
  fun_induction escaped value with
  | case1 value ih =>
    rw [List.cons_append, List.cons_append, List.cons_append, List.cons_append, Token.blockBody,
      ih hclosed.tail.tail.tail]
    cases Token.blockBody rest <;> rfl
  | case2 c value hother ih =>
    -- The reader stops at three quotes and drops a backslash in front of three: neither is here.
    have hquotes : ∀ left, c = '"' → escaped value ++ rest = '"' :: '"' :: left → False := by
      rintro left rfl hleft
      refine escaped_append_ne hclosed (List.cons_ne_nil _ _) left ?_
      rw [escaped.eq_2 _ _ hother, List.cons_append, hleft]
    have hbackslash : ∀ left, c = '\\' → escaped value ++ rest = '"' :: '"' :: '"' :: left →
        False := by
      rintro left rfl hleft
      by_cases hvalue : value = []
      · subst hvalue
        exact hclosed (.inr rfl) (congrArg List.head? hleft)
      · exact escaped_append_ne hclosed.tail hvalue left hleft
    rw [List.cons_append, Token.blockBody.eq_3 _ _ hquotes hbackslash, ih hclosed.tail]
    cases Token.blockBody rest <;> rfl
  | case3 =>
    rw [List.nil_append]
    cases Token.blockBody rest <;> rfl

/-- The end of a line, if there is one. -/
def lineEnd (given : Bool) : List Char := if given then ['\n'] else []

/-- How a value is written: perhaps on lines of its own, and in any case apart from the quotes that
close it. -/
theorem exists_written (text : String) :
    ∃ before after, (written text).toList
        = '"' :: '"' :: '"' :: (lineEnd before ++ (escaped text.toList
          ++ (lineEnd after ++ ['"', '"', '"']))) ∧
      ∀ rest, Closed text.toList (lineEnd after ++ '"' :: '"' :: '"' :: rest) := by
  refine ⟨?before, ?after, ?written, ?closed⟩
  case written =>
    rw [written, String.toList_ofList]
    simp only [List.append_assoc, List.cons_append, List.nil_append]
    rfl
  case closed =>
    intro rest hlast
    have hends : ∀ given, given = true →
        (lineEnd given ++ '"' :: '"' :: '"' :: rest).head? ≠ some '"' := by
      rintro _ rfl
      exact nofun
    -- Both conditions on the last character are among those under which a line is ended.
    refine hends _ ?_
    cases ['\\', '"', '"', '"'].isSuffixOf (escaped text.toList) <;>
      rcases hlast with hlast | hlast <;> simp [hlast]

/-- Quotes around a string are no quotes around a block string. -/
theorem quoted_ne_written (text text' : String) {rest rest' : List Char}
    (hrest : rest.head? ≠ some '"') :
    (quoted text).toList ++ rest ≠ (written text').toList ++ rest' := by
  obtain ⟨before, after, hwritten, -⟩ := exists_written text'
  intro h
  rw [toList_quoted, hwritten] at h
  have h := (List.cons.inj h).2
  cases htext : text.toList with
  | nil =>
    rw [htext] at h
    exact hrest (congrArg List.head? (List.cons.inj h).2)
  | cons c cs =>
    rw [htext, List.flatMap_cons, List.append_assoc] at h
    exact quotedChar_append_ne c _ _ h

/-- A value that no block string loses a part of: no line ends at its ends. -/
structure IsValue (value : List Char) : Prop where
  start : value.head? ≠ some '\n'
  stop : value.getLast? ≠ some '\n'

theorem dropWhile_lineEnd (given : Bool) (cs : List Char) (h : cs.head? ≠ some '\n') :
    (lineEnd given ++ cs).dropWhile (· = '\n') = cs := by
  have hcs : cs.dropWhile (· = '\n') = cs := by
    cases cs with
    | nil => rfl
    | cons c cs =>
      refine List.dropWhile_cons_of_neg fun hc => h ?_
      rw [List.head?_cons, of_decide_eq_true hc]
  cases given with
  | false => exact hcs
  | true => exact (List.dropWhile_cons_of_pos rfl).trans hcs

theorem rdropWhile_lineEnd (given : Bool) (cs : List Char) (h : cs.getLast? ≠ some '\n') :
    (cs ++ lineEnd given).rdropWhile (· = '\n') = cs := by
  have hcs : cs.rdropWhile (· = '\n') = cs := by
    refine List.rdropWhile_eq_self_iff.mpr fun hne hlast => h ?_
    rw [List.getLast?_eq_some_getLast hne, of_decide_eq_true hlast]
  cases given with
  | false => rw [lineEnd, if_neg Bool.false_ne_true, List.append_nil, hcs]
  | true => exact (List.rdropWhile_concat_pos (· = '\n') cs '\n' rfl).trans hcs

/-- What is put around a value can be taken off. -/
theorem IsValue.strip {value : List Char} (h : IsValue value) (before after : Bool) :
    ((lineEnd before ++ (value ++ lineEnd after)).dropWhile (· = '\n')).rdropWhile (· = '\n')
      = value := by
  cases value with
  | nil => cases before <;> cases after <;> rfl
  | cons c value =>
    rw [dropWhile_lineEnd before (c :: value ++ lineEnd after) h.start,
      rdropWhile_lineEnd after _ h.stop]

theorem blockBody_lineEnd (given : Bool) (rest : List Char) :
    Token.blockBody (lineEnd given ++ rest)
      = (Token.blockBody rest).map fun (cs, left) => (lineEnd given ++ cs, left) := by
  have hescaped : escaped (lineEnd given) = lineEnd given := by cases given <;> rfl
  have hclosed : Closed (lineEnd given) rest := by cases given <;> exact nofun
  have hread := blockBody_escaped (lineEnd given) rest hclosed
  rwa [hescaped] at hread

theorem blockBody_written {value : List Char} (before after : Bool) (rest : List Char)
    (hclosed : Closed value (lineEnd after ++ '"' :: '"' :: '"' :: rest)) :
    Token.blockBody (lineEnd before
        ++ (escaped value ++ (lineEnd after ++ '"' :: '"' :: '"' :: rest)))
      = some (lineEnd before ++ (value ++ lineEnd after), rest) := by
  rw [blockBody_lineEnd, blockBody_escaped _ _ hclosed, blockBody_lineEnd, Token.blockBody]
  simp only [Option.map_some, List.append_nil]

/-- **A block string is read in one way.** -/
theorem written_inj {text text' : String} (h : IsValue text.toList) (h' : IsValue text'.toList)
    {rest rest' : List Char}
    (heq : (written text).toList ++ rest = (written text').toList ++ rest') :
    text = text' ∧ rest = rest' := by
  obtain ⟨before, after, hwritten, hclosed⟩ := exists_written text
  obtain ⟨before', after', hwritten', hclosed'⟩ := exists_written text'
  have hread := blockBody_written before after rest (hclosed rest)
  have hread' := blockBody_written before' after' rest' (hclosed' rest')
  rw [hwritten, hwritten'] at heq
  simp only [List.cons_append, List.append_assoc, List.nil_append, List.cons.injEq, true_and] at heq
  rw [heq, hread', Option.some.injEq, Prod.mk.injEq] at hread
  obtain ⟨htext, rfl⟩ := hread
  refine ⟨String.toList_inj.mp ?_, rfl⟩
  rw [← h.strip before after, ← h'.strip before' after', htext]

end BlockString

end QueryCompiler
