import Mathlib.Data.Bool.AllAny
import QueryCompiler.Proofs.Language.Strings
import QueryCompiler.Proofs.Number.Numeral
/-
# The text of a value is read in one way

Whatever follows two values that are written alike, they are one value and one rest follows, as long
as each rest closes the series that the value stands in or goes on with its next item.  The first
character of a value says which form it has.  Names and numbers end where no character of theirs
follows, strings where they are closed, and lists and objects where a mark closes their series.

* `word_inj`: names and numbers;
* `series_inj`: items, fields and arguments with commas between them;
* `Value.WellFormed.readsAs`: values.
-/
namespace QueryCompiler

open Token

/-! ## 1. Words -/

/-- The characters of names and numbers. -/
def isWordPart (c : Char) : Bool := isNamePart c || c ∈ ['-', '+', '.']

/-- What follows does not go on with a word. -/
def Apart (rest : List Char) : Prop := ∀ c ∈ rest.head?, isWordPart c = false

/-- Words are told apart by what they are made of. -/
theorem word_inj {word word' rest rest' : List Char} (hword : ∀ c ∈ word, isWordPart c)
    (hword' : ∀ c ∈ word', isWordPart c) (hrest : Apart rest) (hrest' : Apart rest')
    (h : word ++ rest = word' ++ rest') : word = word' ∧ rest = rest' := by
  have htake {word rest : List Char} (hword : ∀ c ∈ word, isWordPart c) (hrest : Apart rest) :
      (word ++ rest).takeWhile isWordPart = word := by
    rw [List.takeWhile_append_of_pos hword]
    cases rest with
    | nil => exact List.append_nil word
    | cons c rest =>
      rw [List.takeWhile_cons_of_neg (Bool.eq_false_iff.mp (hrest c rfl)), List.append_nil]
  have hsame : word = word' := by rw [← htake hword hrest, h, htake hword' hrest']
  subst hsame
  exact ⟨rfl, List.append_cancel_left h⟩

/-! ## 2. Values that a text can have -/

/-- A name. -/
def IsName (text : String) : Prop :=
  ∃ c cs, text.toList = c :: cs ∧ isNameStart c ∧ ∀ d ∈ cs, isNamePart d

/-- A whole number: digits, with a sign perhaps. -/
def IsInt (text : String) : Prop :=
  ∃ c cs, text.toList = c :: cs ∧ ∀ d ∈ c :: cs, d.isDigit ∨ d = '-'

/-- A character of a number. -/
def IsNumberPart (c : Char) : Prop := c.isDigit ∨ c ∈ ['-', '+', '.', 'e', 'E']

/-- A number with a point or an exponent. -/
structure IsFloat (text : String) : Prop where
  start : ∃ c cs, text.toList = c :: cs ∧ (c.isDigit ∨ c = '-')
  parts : ∀ d ∈ text.toList, IsNumberPart d
  mark : ∃ d ∈ text.toList, d ∈ ['.', 'e', 'E']

/-- The values that a text can have. -/
inductive Value.WellFormed : Value → Prop
  | reference {name : String} : IsName name → WellFormed (.variable name)
  | int {text : String} : IsInt text → WellFormed (.int text)
  | float {text : String} : IsFloat text → WellFormed (.float text)
  | string (text : String) : WellFormed (.string text false)
  | block {text : String} : BlockString.IsValue text.toList → WellFormed (.string text true)
  | boolean (value : Bool) : WellFormed (.boolean value)
  | null : WellFormed .null
  | enumeration {name : String} : IsName name → name ∉ ["true", "false", "null"] →
      WellFormed (.enumeration name)
  | list {items : List Value} : (∀ v ∈ items, WellFormed v) → WellFormed (.list items)
  | object {fields : List (String × Value)} : (∀ field ∈ fields, IsName field.1) →
      (∀ field ∈ fields, WellFormed field.2) → WellFormed (.object fields)

/-! ## 3. How a value begins -/

/-- What can be told of a value from its first character. -/
inductive Form where
  | variable
  | number
  | word
  | string
  | list
  | object
  deriving DecidableEq

/-- What a value is that begins with the character. -/
def Form.ofChar (c : Char) : Option Form :=
  if c = '$' then some .variable
  else if c = '"' then some .string
  else if c = '[' then some .list
  else if c = '\x7b' then some .object
  else if c.isDigit || c = '-' then some .number
  else if isNameStart c then some .word
  else none

def Value.form : Value → Form
  | .variable _ => .variable
  | .int _ | .float _ => .number
  | .string _ _ => .string
  | .boolean _ | .null | .enumeration _ => .word
  | .list _ => .list
  | .object _ => .object

/-- Letters stand above digits. -/
theorem le_toNat_of_isNameStart {c : Char} (h : isNameStart c) : 65 ≤ c.toNat := by
  rcases (Bool.or_eq_true _ _).mp h with hletter | hunderscore
  · rcases (Bool.or_eq_true _ _).mp hletter with hupper | hlower
    · exact (of_decide_eq_true hupper).1
    · have hlow := of_decide_eq_true ((Bool.and_eq_true _ _).mp hlower).1
      exact Nat.le_trans (by decide) hlow
  · rw [of_decide_eq_true hunderscore]
    decide

theorem not_isDigit_of_isNameStart {c : Char} (h : isNameStart c) :
    ¬ (c.isDigit || c = '-') = true := by
  have hlow := le_toNat_of_isNameStart h
  intro hdigit
  rcases (Bool.or_eq_true _ _).mp hdigit with hdigit | hminus
  · have hhigh := (Text.toNat_of_isDigit hdigit).2
    omega
  · rw [of_decide_eq_true hminus] at hlow
    exact absurd hlow (by decide)

theorem Form.ofChar_of_isNameStart {c : Char} (h : isNameStart c) :
    Form.ofChar c = some .word := by
  have hmark : ∀ mark, ¬ isNameStart mark → c ≠ mark := fun mark hn he => hn (he ▸ h)
  rw [ofChar, if_neg (hmark _ (by decide)), if_neg (hmark _ (by decide)),
    if_neg (hmark _ (by decide)), if_neg (hmark _ (by decide)),
    if_neg (not_isDigit_of_isNameStart h), if_pos h]

theorem Form.ofChar_of_isDigit {c : Char} (h : c.isDigit ∨ c = '-') :
    Form.ofChar c = some .number := by
  have hmark : ∀ mark, ¬ (mark.isDigit ∨ mark = '-') → c ≠ mark := fun mark hn he => hn (he ▸ h)
  rw [ofChar, if_neg (hmark _ (by decide)), if_neg (hmark _ (by decide)),
    if_neg (hmark _ (by decide)), if_neg (hmark _ (by decide)), if_pos (by simpa using h)]

/-- What is written between two marks begins with the first. -/
theorem toList_enclosing (opening text closing : String) :
    (opening ++ text ++ closing).toList = opening.toList ++ (text.toList ++ closing.toList) := by
  rw [String.toList_append, String.toList_append, List.append_assoc]

/-- A value that a text can have begins as its form says. -/
theorem Value.WellFormed.exists_form {v : Value} (h : v.WellFormed) :
    ∃ c cs, v.print.toList = c :: cs ∧ Form.ofChar c = some v.form := by
  cases h with
  | reference _ => exact ⟨'$', _, by rw [print, String.toList_append]; rfl, rfl⟩
  | int h =>
    obtain ⟨c, cs, htext, hdigits⟩ := h
    exact ⟨c, cs, htext, Form.ofChar_of_isDigit (hdigits c List.mem_cons_self)⟩
  | float h =>
    obtain ⟨c, cs, htext, hc⟩ := h.start
    exact ⟨c, cs, htext, Form.ofChar_of_isDigit hc⟩
  | string text =>
    have hquoted : (Value.string text false).print = quoted text := rfl
    exact ⟨'"', _, by rw [hquoted, quoted, String.toList_ofList]; rfl, rfl⟩
  | block h =>
    obtain ⟨before, after, hwritten, -⟩ := BlockString.exists_written _
    exact ⟨'"', _, hwritten, rfl⟩
  | boolean value => cases value <;> exact ⟨_, _, rfl, by decide⟩
  | null => exact ⟨_, _, rfl, by decide⟩
  | enumeration h _ =>
    obtain ⟨c, cs, htext, hc, -⟩ := h
    exact ⟨c, cs, htext, Form.ofChar_of_isNameStart hc⟩
  | list _ => exact ⟨'[', _, by rw [print, toList_enclosing]; rfl, rfl⟩
  | object _ _ => exact ⟨'\x7b', _, by rw [print, toList_enclosing]; rfl, rfl⟩

/-- Values that begin alike have one form. -/
theorem Value.WellFormed.form_eq {v w : Value} (hv : v.WellFormed) (hw : w.WellFormed)
    {rest rest' : List Char} (h : v.print.toList ++ rest = w.print.toList ++ rest') :
    v.form = w.form := by
  obtain ⟨c, cs, hprint, hform⟩ := hv.exists_form
  obtain ⟨c', cs', hprint', hform'⟩ := hw.exists_form
  rw [hprint, hprint'] at h
  obtain ⟨rfl, -⟩ := List.cons.inj h
  exact Option.some.inj (hform.symm.trans hform')

/-! ## 4. Names and numbers -/

theorem isWordPart_of_isNamePart {c : Char} (h : isNamePart c) : isWordPart c := by
  rw [isWordPart, h, Bool.true_or]

theorem isWordPart_of_isDigit {c : Char} (h : c.isDigit) : isWordPart c := by
  refine isWordPart_of_isNamePart ?_
  simp only [isNamePart, Char.isAlphanum, h, Bool.or_true, Bool.true_or]

theorem IsName.isWordPart {text : String} (h : IsName text) : ∀ c ∈ text.toList, isWordPart c := by
  obtain ⟨c, cs, htext, hc, hcs⟩ := h
  rw [htext]
  intro d hd
  refine isWordPart_of_isNamePart ?_
  rcases List.mem_cons.mp hd with rfl | hd
  · simp only [isNameStart, isNamePart, Char.isAlphanum, Bool.or_eq_true] at hc ⊢
    tauto
  · exact hcs d hd

/-- Names and numbers are words. -/
theorem Value.WellFormed.isWordPart {v : Value} (h : v.WellFormed)
    (hform : v.form = .number ∨ v.form = .word) : ∀ c ∈ v.print.toList, isWordPart c := by
  cases h with
  | int h =>
    obtain ⟨c, cs, htext, hdigits⟩ := h
    rw [print, htext]
    intro d hd
    rcases hdigits d hd with hdigit | rfl
    · exact isWordPart_of_isDigit hdigit
    · decide
  | float h =>
    intro d hd
    rcases h.parts d hd with hdigit | hmark
    · exact isWordPart_of_isDigit hdigit
    · have hmarks : ∀ d ∈ ['-', '+', '.', 'e', 'E'], QueryCompiler.isWordPart d :=
        List.all_iff_forall_prop.mp rfl
      exact hmarks d hmark
  | boolean value => cases value <;> exact List.all_iff_forall_prop.mp rfl
  | null => exact List.all_iff_forall_prop.mp rfl
  | enumeration h _ => exact h.isWordPart
  | reference _ | string _ | block _ | list _ | object _ _ => exact hform.elim nofun nofun

/-- The value that a word is. -/
def Value.ofWord (text : String) : Value :=
  if text = "true" then .boolean true
  else if text = "false" then .boolean false
  else if text = "null" then .null
  else .enumeration text

/-- The value that the text of a number is. -/
def Value.ofNumber (text : String) : Value :=
  if text.toList.any (· ∈ ['.', 'e', 'E']) then .float text else .int text

theorem Value.WellFormed.ofWord_print {v : Value} (h : v.WellFormed) (hform : v.form = .word) :
    Value.ofWord v.print = v := by
  cases h with
  | boolean value => cases value <;> rfl
  | null => rfl
  | enumeration _ hother =>
    simp only [List.mem_cons, List.not_mem_nil, or_false, not_or] at hother
    rw [print, ofWord, if_neg hother.1, if_neg hother.2.1, if_neg hother.2.2]
  | reference _ | int _ | float _ | string _ | block _ | list _ | object _ _ =>
    exact absurd hform nofun

theorem Value.WellFormed.ofNumber_print {v : Value} (h : v.WellFormed)
    (hform : v.form = .number) : Value.ofNumber v.print = v := by
  cases h with
  | int h =>
    obtain ⟨c, cs, htext, hdigits⟩ := h
    have hmarks : ∀ d ∈ ['.', 'e', 'E'], ¬ (d.isDigit ∨ d = '-') :=
      List.all_iff_forall_prop.mp rfl
    rw [print, ofNumber, if_neg]
    rw [List.any_eq_true, htext]
    rintro ⟨d, hd, hmark⟩
    exact hmarks d (of_decide_eq_true hmark) (hdigits d hd)
  | float h =>
    rw [print, ofNumber, if_pos]
    obtain ⟨d, hd, hmark⟩ := h.mark
    exact List.any_eq_true.mpr ⟨d, hd, decide_eq_true hmark⟩
  | reference _ | string _ | block _ | boolean _ | null | enumeration _ _ | list _ | object _ _ =>
    exact absurd hform nofun

/-! ## 5. Series -/

/-- What follows an item of a series: a comma, or what closes the series. -/
def Ends (rest : List Char) : Prop := ∀ c ∈ rest.head?, c ∈ [',', ']', '\x7d', ')']

theorem Ends.apart {rest : List Char} (h : Ends rest) : Apart rest := by
  have hends : ∀ c ∈ [',', ']', '\x7d', ')'], isWordPart c = false :=
    List.all_iff_forall_prop.mp rfl
  exact fun c hc => hends c (h c hc)

theorem Ends.head?_ne_quote {rest : List Char} (h : Ends rest) : rest.head? ≠ some '"' :=
  fun hquote => absurd (h '"' hquote) (by decide)

theorem ends_cons {c : Char} (h : c ∈ [',', ']', '\x7d', ')']) (rest : List Char) :
    Ends (c :: rest) := by
  rintro d hd
  obtain rfl := Option.some.inj hd
  exact h

section Series

variable {α : Type} (text : α → List Char) (P : α → Prop)

/-- The text of a thing is no other thing's, whatever follows. -/
def ReadsAs (a : α) : Prop :=
  ∀ b rest rest', P b → Ends rest → Ends rest' → text a ++ rest = text b ++ rest' →
    a = b ∧ rest = rest'

/-- Things one after the other, with a comma in front of each. -/
def followers (as : List α) : List Char := as.flatMap fun a => ',' :: ' ' :: text a

/-- Things one after the other, with commas between them. -/
def series : List α → List Char
  | [] => []
  | a :: as => text a ++ followers text as

variable {text P}

theorem ends_followers (as : List α) {close : Char} (hclose : close ∈ [']', '\x7d', ')'])
    (rest : List Char) : Ends (followers text as ++ close :: rest) := by
  cases as with
  | nil => exact ends_cons (List.mem_cons_of_mem _ hclose) rest
  | cons a as => exact ends_cons List.mem_cons_self _

theorem followers_inj {close : Char} (hclose : close ∈ [']', '\x7d', ')']) {as bs : List α}
    (has : ∀ a ∈ as, ReadsAs text P a) (hbs : ∀ b ∈ bs, P b) {rest rest' : List Char}
    (h : followers text as ++ close :: rest = followers text bs ++ close :: rest') :
    as = bs ∧ rest = rest' := by
  have hcomma : ∀ c ∈ [']', '\x7d', ')'], c ≠ ',' := List.all_iff_forall_prop.mp rfl
  induction as generalizing bs with
  | nil =>
    cases bs with
    | nil => exact ⟨rfl, (List.cons.inj h).2⟩
    | cons b bs => exact absurd (List.cons.inj h).1 (hcomma close hclose)
  | cons a as ih =>
    cases bs with
    | nil => exact absurd (List.cons.inj h).1.symm (hcomma close hclose)
    | cons b bs =>
      obtain ⟨ha, hothers⟩ := List.forall_mem_cons.mp has
      obtain ⟨hb, hothers'⟩ := List.forall_mem_cons.mp hbs
      simp only [followers, List.flatMap_cons, List.cons_append, List.append_assoc,
        List.cons.injEq, true_and] at h
      obtain ⟨rfl, hrest⟩ := ha b _ _ hb (ends_followers as hclose rest)
        (ends_followers bs hclose rest') h
      obtain ⟨rfl, rfl⟩ := ih hothers hothers' hrest
      exact ⟨rfl, rfl⟩

/-- **A closed series is read in one way** when its items are, and none begins with what closes. -/
theorem series_inj {close : Char} (hclose : close ∈ [']', '\x7d', ')'])
    (hstart : ∀ a, P a → ∀ rest rest', text a ++ rest ≠ close :: rest') {as bs : List α}
    (has : ∀ a ∈ as, ReadsAs text P a) (has' : ∀ a ∈ as, P a) (hbs : ∀ b ∈ bs, P b)
    {rest rest' : List Char}
    (h : series text as ++ close :: rest = series text bs ++ close :: rest') :
    as = bs ∧ rest = rest' := by
  cases as with
  | nil =>
    cases bs with
    | nil => exact ⟨rfl, (List.cons.inj h).2⟩
    | cons b bs =>
      rw [series, series, List.append_assoc] at h
      exact absurd h.symm (hstart b (hbs b List.mem_cons_self) _ _)
  | cons a as =>
    cases bs with
    | nil =>
      rw [series, series, List.append_assoc] at h
      exact absurd h (hstart a (has' a List.mem_cons_self) _ _)
    | cons b bs =>
      obtain ⟨ha, hothers⟩ := List.forall_mem_cons.mp has
      obtain ⟨hb, hothers'⟩ := List.forall_mem_cons.mp hbs
      rw [series, series, List.append_assoc, List.append_assoc] at h
      obtain ⟨rfl, hrest⟩ := ha b _ _ hb (ends_followers as hclose rest)
        (ends_followers bs hclose rest') h
      obtain ⟨rfl, rfl⟩ := followers_inj hclose hothers hothers' hrest
      exact ⟨rfl, rfl⟩

/-- A series is what its items are joined to. -/
theorem toList_intercalate_map (print : α → String) (as : List α) :
    (String.intercalate ", " (as.map print)).toList = series (fun a => (print a).toList) as := by
  rw [String.toList_intercalate, List.map_map]
  cases as with
  | nil => rfl
  | cons a as =>
    rw [series]
    induction as generalizing a with
    | nil => exact (List.intercalate_singleton ..).trans (List.append_nil _).symm
    | cons b as ih =>
      rw [List.map_cons, List.map_cons, List.intercalate_cons_cons, ← List.map_cons, ih,
        List.append_assoc]
      rfl

end Series

/-! ## 6. Values -/

namespace Value

theorem printItems_eq_map : ∀ items : List Value, printItems items = items.map print
  | [] => rfl
  | v :: items => by rw [printItems, printItems_eq_map items, List.map_cons]

theorem printFields_eq_map : ∀ fields : List (String × Value),
    printFields fields = fields.map fun field => field.1 ++ ": " ++ field.2.print
  | [] => rfl
  | (_, _) :: fields => by rw [printFields, printFields_eq_map fields, List.map_cons]

/-- A field of an object, or an argument. -/
def fieldText (field : String × Value) : List Char :=
  (field.1 ++ ": " ++ field.2.print).toList

/-- Nothing is left out of what is joined when nothing is empty. -/
theorem joined_of_ne_nil {parts : List String} (h : ∀ part ∈ parts, part.toList ≠ []) :
    Text.joined ", " parts = String.intercalate ", " parts := by
  rw [Text.joined, List.filter_eq_self.mpr]
  intro part hpart
  rw [Bool.not_eq_true', Bool.eq_false_iff, ne_eq, String.isEmpty_iff]
  rintro rfl
  exact h _ hpart rfl

namespace WellFormed

variable {v w : Value}

/-- No value begins with what closes a series. -/
theorem append_ne (h : v.WellFormed) {close : Char} (hclose : close ∈ [']', '\x7d', ')'])
    (rest rest' : List Char) : v.print.toList ++ rest ≠ close :: rest' := by
  obtain ⟨c, cs, hprint, hform⟩ := h.exists_form
  have hnone : ∀ c ∈ [']', '\x7d', ')'], Form.ofChar c = none :=
    List.all_iff_forall_prop.mp rfl
  rw [hprint]
  intro heq
  obtain ⟨rfl, -⟩ := List.cons.inj heq
  rw [hnone c hclose] at hform
  cases hform

theorem print_ne_nil (h : v.WellFormed) : v.print.toList ≠ [] := by
  obtain ⟨c, cs, hprint, -⟩ := h.exists_form
  rw [hprint]
  exact List.cons_ne_nil c cs

/-- A list is written as the series of its items. -/
theorem print_list {items : List Value} (h : ∀ v ∈ items, v.WellFormed) (rest : List Char) :
    (Value.list items).print.toList ++ rest
      = '[' :: (series (·.print.toList) items ++ ']' :: rest) := by
  have hne : ∀ part ∈ items.map print, part.toList ≠ [] := by
    rintro _ hpart
    obtain ⟨v, hv, rfl⟩ := List.mem_map.mp hpart
    exact (h v hv).print_ne_nil
  rw [print, toList_enclosing, printItems_eq_map, joined_of_ne_nil hne, toList_intercalate_map,
    List.append_assoc, List.append_assoc]
  rfl

/-- An object is written as the series of its fields. -/
theorem print_object (fields : List (String × Value)) (rest : List Char) :
    (Value.object fields).print.toList ++ rest
      = '\x7b' :: (series fieldText fields ++ '\x7d' :: rest) := by
  have hne : ∀ part ∈ fields.map fun field => field.1 ++ ": " ++ field.2.print,
      part.toList ≠ [] := by
    rintro _ hpart
    obtain ⟨field, -, rfl⟩ := List.mem_map.mp hpart
    rw [toList_enclosing]
    exact List.append_ne_nil_of_right_ne_nil _ (List.cons_ne_nil _ _)
  rw [print, toList_enclosing, printFields_eq_map, joined_of_ne_nil hne, toList_intercalate_map,
    List.append_assoc, List.append_assoc]
  rfl

/-- Names and numbers are told apart by their texts. -/
theorem readsAs_of_form (h : v.WellFormed) (hform : v.form = .number ∨ v.form = .word) :
    ReadsAs (·.print.toList) WellFormed v := by
  intro w rest rest' hw hrest hrest' heq
  have hsame := h.form_eq hw heq
  -- The other value is a word too, so the texts are the same, and each text is that of one value.
  obtain ⟨hprint, rfl⟩ := word_inj (h.isWordPart hform) (hw.isWordPart (hsame ▸ hform))
    hrest.apart hrest'.apart heq
  refine ⟨?_, rfl⟩
  rcases hform with hnumber | hword
  · rw [← h.ofNumber_print hnumber, String.toList_inj.mp hprint,
      hw.ofNumber_print (hsame ▸ hnumber)]
  · rw [← h.ofWord_print hword, String.toList_inj.mp hprint, hw.ofWord_print (hsame ▸ hword)]

/-- A field is read as its name and its value. -/
theorem readsAs_field {field : String × Value} (hname : IsName field.1)
    (hvalue : ReadsAs (·.print.toList) WellFormed field.2) :
    ReadsAs fieldText (fun field => IsName field.1 ∧ field.2.WellFormed) field := by
  intro field' rest rest' hfield' hrest hrest' heq
  simp only [fieldText, String.toList_append, List.append_assoc] at heq
  have hcolon : ∀ rest, Apart (": ".toList ++ rest) := by
    rintro rest c hc
    obtain rfl := Option.some.inj hc
    decide
  obtain ⟨hnames, heq⟩ := word_inj hname.isWordPart hfield'.1.isWordPart (hcolon _) (hcolon _) heq
  obtain ⟨hvalues, rfl⟩ := hvalue _ rest rest' hfield'.2 hrest hrest' (List.append_cancel_left heq)
  exact ⟨Prod.ext (String.toList_inj.mp hnames) hvalues, rfl⟩

/-- A field begins with a name. -/
theorem fieldText_append_ne {field : String × Value}
    (h : IsName field.1 ∧ field.2.WellFormed) {close : Char} (hclose : close ∈ [']', '\x7d', ')'])
    (rest rest' : List Char) : fieldText field ++ rest ≠ close :: rest' := by
  obtain ⟨c, cs, hname, hc, -⟩ := h.1
  have hnone : ∀ c ∈ [']', '\x7d', ')'], ¬ isNameStart c := List.all_iff_forall_prop.mp rfl
  rw [fieldText, toList_enclosing, hname]
  intro heq
  obtain ⟨rfl, -⟩ := List.cons.inj heq
  exact hnone c hclose hc

/-- **The text of a value is read in one way.** -/
theorem readsAs (h : v.WellFormed) : ReadsAs (·.print.toList) WellFormed v := by
  -- The other value begins alike, so it is of the same form: most of its cases are none.
  induction h with
  | reference h =>
    intro w rest rest' hw hrest hrest' heq
    have hform := form_eq (.reference h) hw heq
    cases hw with
    | reference h' =>
      simp only [print, String.toList_append, List.append_assoc] at heq
      obtain ⟨hname, rfl⟩ := word_inj h.isWordPart h'.isWordPart hrest.apart hrest'.apart
        (List.append_cancel_left heq)
      exact ⟨congrArg Value.variable (String.toList_inj.mp hname), rfl⟩
    | _ => exact absurd hform nofun
  | int h => exact readsAs_of_form (.int h) (.inl rfl)
  | float h => exact readsAs_of_form (.float h) (.inl rfl)
  | boolean value => exact readsAs_of_form (.boolean value) (.inr rfl)
  | null => exact readsAs_of_form .null (.inr rfl)
  | enumeration h hother => exact readsAs_of_form (.enumeration h hother) (.inr rfl)
  | string text =>
    intro w rest rest' hw hrest hrest' heq
    have hform := form_eq (.string text) hw heq
    cases hw with
    | string text' =>
      simp only [print, stringLiteral, Bool.false_eq_true, if_false, toList_quoted] at heq
      obtain ⟨htext, rfl⟩ := quotedText_inj (List.cons.inj heq).2
      exact ⟨congrArg (Value.string · false) (String.toList_inj.mp htext), rfl⟩
    | block h' => exact absurd heq (BlockString.quoted_ne_written text _ hrest.head?_ne_quote)
    | _ => exact absurd hform nofun
  | block h =>
    intro w rest rest' hw hrest hrest' heq
    have hform := form_eq (.block h) hw heq
    cases hw with
    | string text' =>
      exact absurd heq.symm (BlockString.quoted_ne_written text' _ hrest'.head?_ne_quote)
    | block h' =>
      obtain ⟨rfl, rfl⟩ := BlockString.written_inj h h' heq
      exact ⟨rfl, rfl⟩
    | _ => exact absurd hform nofun
  | list hitems ih =>
    intro w rest rest' hw hrest hrest' heq
    have hform := form_eq (.list hitems) hw heq
    cases hw with
    | list hitems' =>
      simp only at heq
      rw [print_list hitems, print_list hitems'] at heq
      obtain ⟨rfl, rfl⟩ := series_inj (by decide) (fun v hv => hv.append_ne (by decide)) ih hitems
        hitems' (List.cons.inj heq).2
      exact ⟨rfl, rfl⟩
    | _ => exact absurd hform nofun
  | object hnames hfields ih =>
    intro w rest rest' hw hrest hrest' heq
    have hform := form_eq (.object hnames hfields) hw heq
    cases hw with
    | object hnames' hfields' =>
      simp only at heq
      rw [print_object, print_object] at heq
      obtain ⟨rfl, rfl⟩ := series_inj (by decide)
        (fun field hfield => fieldText_append_ne hfield (by decide))
        (fun field hfield => readsAs_field (hnames field hfield) (ih field hfield))
        (fun field hfield => ⟨hnames field hfield, hfields field hfield⟩)
        (fun field hfield => ⟨hnames' field hfield, hfields' field hfield⟩) (List.cons.inj heq).2
      exact ⟨rfl, rfl⟩
    | _ => exact absurd hform nofun

end WellFormed

end Value

end QueryCompiler
