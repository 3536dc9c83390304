import Mathlib.Data.String.Basic
import QueryCompiler.Calendar.Iso
import QueryCompiler.Proofs.Number.Numeral
/-
# Dates and moments are read as they are written

The reader of moments knows many forms and the writer only one.  Its parts have fixed widths, so
each of them is read back by itself, whatever follows it: digits, then a date, a clock time, the
size of an offset.  That a moment is taken apart where its parts were put together rests on three
characters: the hyphen behind the year, the sign in front of the offset, which is in no clock time,
and the letter `Z`, which is nowhere.

* `Date.read?_write`, `DateTime.read?_write`: what is read from a written date and moment;
* `DateTime.kept_eq_self_iff`: the moments that are read as they were.
-/
namespace QueryCompiler

open Text

/-! ## 1. Digits of a fixed width -/

theorem isDigit_of_mem_zeroPadded {width n : Nat} {ch : Char} (h : ch ∈ zeroPadded width n) :
    ch.isDigit = true := by
  rcases List.mem_append.mp h with h | h
  · rw [List.eq_of_mem_replicate h]
    rfl
  · exact Nat.isDigit_of_mem_toDigits (by decide) (by decide) h

theorem length_zeroPadded {width n : Nat} (hwidth : 0 < width) (h : n < tenTo width) :
    (zeroPadded width n).length = width := by
  have hle : (Nat.toDigits 10 n).length ≤ width :=
    (Nat.length_toDigits_le_iff (by decide) hwidth).mpr h
  rw [zeroPadded, List.length_append, List.length_replicate]
  omega

/-- The zeros in front do not count. -/
theorem ofDigitChars_zeroPadded (width n : Nat) : Nat.ofDigitChars 10 (zeroPadded width n) 0 = n := by
  rw [zeroPadded, Nat.ofDigitChars_append, Nat.ofDigitChars_replicate_zero, Nat.mul_zero,
    Nat.ofDigitChars_ten_toDigits]

/-- **A number of a fixed width is read back**, and so is what follows it. -/
theorem takeDigits?_zeroPadded {width n : Nat} (hwidth : 0 < width) (h : n < tenTo width)
    (rest : List Char) : takeDigits? width (zeroPadded width n ++ rest) = some (n, rest) := by
  have hlength := length_zeroPadded hwidth h
  have hdigits : (zeroPadded width n).all Char.isDigit = true :=
    List.all_eq_true.mpr fun ch => isDigit_of_mem_zeroPadded
  rw [takeDigits?, List.take_left' hlength, List.drop_left' hlength]
  simp only [hlength, hdigits, decide_true, Bool.and_self, if_true]
  rw [← Nat.ofDigitChars_eq_foldl, ofDigitChars_zeroPadded]

theorem takeDigits?_zeroPadded_self {width n : Nat} (hwidth : 0 < width) (h : n < tenTo width) :
    takeDigits? width (zeroPadded width n) = some (n, []) := by
  have hread := takeDigits?_zeroPadded hwidth h []
  rwa [List.append_nil] at hread

theorem zeroPadded_ne_nil (width n : Nat) : zeroPadded width n ≠ [] :=
  List.append_ne_nil_of_right_ne_nil _ Nat.toDigits_ne_nil

/-- A written number begins with a digit. -/
theorem zeroPadded_append_ne (width n : Nat) {c : Char} (hc : c.isDigit = false)
    (rest cs : List Char) : zeroPadded width n ++ rest ≠ c :: cs := by
  intro h
  cases hdigits : zeroPadded width n with
  | nil => exact zeroPadded_ne_nil width n hdigits
  | cons d ds =>
    rw [hdigits, List.cons_append] at h
    have hd : d.isDigit = true :=
      isDigit_of_mem_zeroPadded (hdigits.symm ▸ List.mem_cons_self (l := ds))
    rw [(List.cons.inj h).1, hc] at hd
    exact Bool.false_ne_true hd

theorem utf8Size_of_isDigit {ch : Char} (h : ch.isDigit = true) : ch.utf8Size = 1 :=
  Char.utf8Size_eq_one_iff.mpr (UInt32.le_iff_toNat_le.mpr
    (Nat.le_trans (toNat_of_isDigit h).2 (by decide)))

theorem utf8Len_eq_length : ∀ {cs : List Char}, (∀ ch ∈ cs, ch.utf8Size = 1) →
    String.utf8Len cs = cs.length
  | [], _ => rfl
  | ch :: cs, h => by
    rw [String.utf8Len_cons, h ch List.mem_cons_self, List.length_cons,
      utf8Len_eq_length fun ch hch => h ch (List.mem_cons_of_mem _ hch)]

/-! ## 2. Dates -/

theorem mem_monthLengths_le {year length : Nat} (h : length ∈ monthLengths year) : length ≤ 31 := by
  simp only [monthLengths, List.mem_cons, List.not_mem_nil, or_false] at h
  split at h <;> omega

theorem daysInMonth_le (year month : Nat) : daysInMonth year month ≤ 31 := by
  unfold daysInMonth
  split
  · omega
  · cases hlength : (monthLengths year)[month - 1]? with
    | none => exact Nat.zero_le _
    | some length => exact mem_monthLengths_le (List.mem_of_getElem? hlength)

/-- A month with days is one of the twelve. -/
theorem month_le {year month : Nat} (h : 0 < daysInMonth year month) : month ≤ 12 := by
  unfold daysInMonth at h
  split at h
  · omega
  · by_contra hlate
    have hlength : (monthLengths year).length = 12 := rfl
    rw [List.getElem?_eq_none (by omega)] at h
    exact Nat.lt_irrefl _ h

namespace Date

theorem write_eq (d : Date) : d.write
    = zeroPadded 4 d.year ++ '-' :: (zeroPadded 2 d.month ++ '-' :: zeroPadded 2 d.day) := by
  simp only [write, List.append_assoc, List.cons_append]

theorem year_lt (d : Date) : d.year < tenTo 4 := Nat.lt_succ_of_le d.year_mem.2

theorem month_lt (d : Date) : d.month < tenTo 2 :=
  Nat.lt_of_le_of_lt (month_le (Nat.lt_of_lt_of_le d.day_mem.1 d.day_mem.2)) (by decide)

theorem day_lt (d : Date) : d.day < tenTo 2 :=
  Nat.lt_of_le_of_lt (Nat.le_trans d.day_mem.2 (daysInMonth_le _ _)) (by decide)

theorem length_write (d : Date) : d.write.length = 10 := by
  simp only [write, List.length_append, List.length_cons, length_zeroPadded (by decide) d.year_lt,
    length_zeroPadded (by decide) d.month_lt, length_zeroPadded (by decide) d.day_lt]

theorem of?_self (d : Date) : of? d.year d.month d.day = some d := by
  rw [of?, dif_pos d.year_mem, dif_pos d.day_mem]

/-- **A written date is read back.** -/
theorem readFront?_write (d : Date) : readFront? d.write = some d := by
  rw [write_eq]
  simp only [readFront?, takeDigits?_zeroPadded (by decide) d.year_lt, Option.bind_eq_bind,
    Option.bind_some]
  split
  · -- A week would begin with a letter.
    rename_i heq
    exact absurd heq (zeroPadded_append_ne _ _ rfl _ _)
  · simp only [takeDigits?_zeroPadded (by decide) d.month_lt, Option.bind_some, afterHyphen?,
      if_true, takeDigits?_zeroPadded_self (by decide) d.day_lt, of?_self]

theorem mem_write {d : Date} {ch : Char} (h : ch ∈ d.write) : ch.isDigit = true ∨ ch = '-' := by
  simp only [write, List.mem_append, List.mem_cons] at h
  rcases h with (h | rfl | h) | rfl | h
  · exact .inl (isDigit_of_mem_zeroPadded h)
  · exact .inr rfl
  · exact .inl (isDigit_of_mem_zeroPadded h)
  · exact .inr rfl
  · exact .inl (isDigit_of_mem_zeroPadded h)

/-- A date has one octet for each of its characters. -/
theorem utf8ByteSize_write (d : Date) : (String.ofList d.write).utf8ByteSize = 10 := by
  rw [String.utf8ByteSize_ofList, utf8Len_eq_length, d.length_write]
  intro ch hch
  rcases mem_write hch with hdigit | rfl
  · exact utf8Size_of_isDigit hdigit
  · rfl

theorem read?_write (d : Date) : read? (String.ofList d.write) = some d := by
  rw [read?, utf8ByteSize_write, String.toList_ofList, readFront?_write]
  rfl

end Date

/-! ## 3. Clock times -/

theorem afterField?_colon {cs : List Char} (h : cs ≠ []) :
    afterField? true (':' :: cs) = some (.more cs) := by
  cases cs with
  | nil => exact absurd rfl h
  | cons c cs => rfl

theorem afterField?_point {cs : List Char} (h : cs ≠ []) :
    afterField? true ('.' :: cs) = some (.fraction cs) := by
  cases cs with
  | nil => exact absurd rfl h
  | cons c cs => rfl

theorem readFraction?_zeroPadded {n : Nat} (h : n < 1000000) :
    readFraction? (zeroPadded 6 n) = some (n, true) := by
  rw [readFraction?, length_zeroPadded (by decide) h, Nat.min_self,
    takeDigits?_zeroPadded_self (by decide) h]
  exact congrArg (fun k => some (k, true)) (Nat.mul_one n)

namespace Clock

/-- A clock time without its seconds. -/
def writeMinutes (c : Clock) : List Char := zeroPadded 2 c.hour ++ ':' :: zeroPadded 2 c.minute

theorem write_eq (c : Clock) :
    c.write = zeroPadded 2 c.hour ++ ':' :: (zeroPadded 2 c.minute ++ ':' ::
      (zeroPadded 2 c.second ++ writeFraction c.microsecond)) := by
  simp only [write, List.append_assoc, List.cons_append]

theorem write_eq_writeMinutes (c : Clock) : c.write
    = c.writeMinutes ++ (':' :: zeroPadded 2 c.second ++ writeFraction c.microsecond) :=
  List.append_assoc _ _ _

/-- **A written clock time is read back**, as a complete one. -/
theorem read?_write {c : Clock} (h : c.InDay) : read? c.write = some (c, true) := by
  obtain ⟨hour, minute, second, microsecond⟩ := c
  have hhour : hour < tenTo 2 := Nat.lt_trans h.1 (by decide)
  have hminute : minute < tenTo 2 := Nat.lt_trans h.2.1 (by decide)
  have hsecond : second < tenTo 2 := Nat.lt_trans h.2.2.1 (by decide)
  have hcolon : ∀ cs : List Char, ((':' :: cs).head? == some ':') = true := fun _ => rfl
  have hmore : ∀ n cs, afterField? true (':' :: (zeroPadded 2 n ++ cs))
      = some (.more (zeroPadded 2 n ++ cs)) := fun n cs =>
    afterField?_colon (List.append_ne_nil_of_left_ne_nil (zeroPadded_ne_nil 2 n) cs)
  rw [write_eq]
  simp only [read?, takeDigits?_zeroPadded (by decide) hhour, Option.bind_eq_bind,
    Option.bind_some, hcolon, hmore, takeDigits?_zeroPadded (by decide) hminute,
    takeDigits?_zeroPadded (by decide) hsecond]
  by_cases hzero : microsecond = 0
  · subst hzero
    rfl
  · rw [writeFraction, if_neg hzero]
    simp only [afterField?_point (zeroPadded_ne_nil 6 microsecond),
      readFraction?_zeroPadded h.2.2.2, Option.bind_some]
    rfl

/-- A full minute is read back without its seconds. -/
theorem read?_writeMinutes {c : Clock} (h : c.InDay) (hzero : c.second = 0 ∧ c.microsecond = 0) :
    read? c.writeMinutes = some (c, true) := by
  obtain ⟨hour, minute, second, microsecond⟩ := c
  obtain ⟨rfl, rfl⟩ := hzero
  have hhour : hour < tenTo 2 := Nat.lt_trans h.1 (by decide)
  have hminute : minute < tenTo 2 := Nat.lt_trans h.2.1 (by decide)
  have hcolon : ∀ cs : List Char, ((':' :: cs).head? == some ':') = true := fun _ => rfl
  simp only [writeMinutes, read?, takeDigits?_zeroPadded (by decide) hhour, Option.bind_eq_bind,
    Option.bind_some, hcolon, afterField?_colon (zeroPadded_ne_nil 2 minute),
    takeDigits?_zeroPadded_self (by decide) hminute]
  rfl

theorem mem_write {c : Clock} {ch : Char} (h : ch ∈ c.write) :
    ch.isDigit = true ∨ ch = ':' ∨ ch = '.' := by
  have hfraction : ∀ {n : Nat}, ch ∈ writeFraction n → ch.isDigit = true ∨ ch = '.' := by
    intro n hn
    unfold writeFraction at hn
    split at hn
    · exact absurd hn List.not_mem_nil
    · exact (List.mem_cons.mp hn).symm.imp isDigit_of_mem_zeroPadded id
  simp only [write, List.mem_append, List.mem_cons] at h
  rcases h with ((h | rfl | h) | rfl | h) | h
  · exact .inl (isDigit_of_mem_zeroPadded h)
  · exact .inr (.inl rfl)
  · exact .inl (isDigit_of_mem_zeroPadded h)
  · exact .inr (.inl rfl)
  · exact .inl (isDigit_of_mem_zeroPadded h)
  · exact (hfraction h).imp_right .inr

end Clock

/-! ## 4. Offsets -/

namespace Offset

/-- The size of an offset, on a clock. -/
def size (o : Offset) : Clock :=
  let whole := o.microseconds.natAbs / 1000000
  ⟨whole / 3600, whole / 60 % 60, whole % 60, o.microseconds.natAbs % 1000000⟩

theorem size_inDay (o : Offset) : o.size.InDay := by
  have hlt := o.lt_day
  simp only [Clock.InDay, size]
  omega

theorem seconds_size (o : Offset) : o.size.seconds = o.microseconds.natAbs / 1000000 := by
  simp only [Clock.seconds, size]
  omega

theorem microseconds_size (o : Offset) : o.size.microseconds = o.microseconds.natAbs := by
  rw [Clock.microseconds, seconds_size]
  exact Nat.div_add_mod' _ _

/-- What is written of an offset behind its sign. -/
def writeSize (o : Offset) : List Char :=
  if o.size.second = 0 ∧ o.size.microsecond = 0 then o.size.writeMinutes else o.size.write

theorem write_eq (o : Offset) :
    o.write = (if o.microseconds < 0 then '-' else '+') :: o.writeSize := by
  have hsize : o.writeSize = o.size.writeMinutes ++
      if o.size.second = 0 && o.size.microsecond = 0 then []
      else ':' :: zeroPadded 2 o.size.second ++ Clock.writeFraction o.size.microsecond := by
    simp only [writeSize, Bool.and_eq_true, decide_eq_true_eq]
    split
    · rw [List.append_nil]
    · exact Clock.write_eq_writeMinutes _
  rw [hsize]
  rfl

theorem mem_writeSize {o : Offset} {ch : Char} (h : ch ∈ o.writeSize) : ch ∈ o.size.write := by
  unfold writeSize at h
  split at h
  · rw [Clock.write_eq_writeMinutes]
    exact List.mem_append_left _ h
  · exact h

theorem read?_writeSize (o : Offset) : Clock.read? o.writeSize = some (o.size, true) := by
  unfold writeSize
  split
  · rename_i hzero
    exact Clock.read?_writeMinutes o.size_inDay hzero
  · exact Clock.read?_write o.size_inDay

/-- The offset of universal time itself. -/
def zero : Offset := ⟨0, by decide⟩

/-- The offset that is read from a written one: zero for one of less than a second. -/
def kept (o : Offset) : Offset := if o.microseconds.natAbs < 1000000 then zero else o

theorem microseconds_kept (o : Offset) : o.kept.microseconds
    = if o.microseconds.natAbs < 1000000 then 0 else o.microseconds := apply_ite microseconds _ _ _

theorem kept_eq_self_iff (o : Offset) :
    o.kept = o ↔ o.microseconds = 0 ∨ 1000000 ≤ o.microseconds.natAbs := by
  obtain ⟨microseconds, hlt⟩ := o
  unfold kept
  split
  · rename_i hsmall
    rw [zero, Offset.mk.injEq, eq_comm, or_iff_left (Nat.not_le.mpr hsmall)]
  · rename_i hlarge
    exact iff_of_true rfl (.inr (Nat.not_lt.mp hlarge))

theorem of?_eq_some {n : Int} {o : Offset} : of? n = some o ↔ n = o.microseconds := by
  unfold of?
  split
  · rw [Option.some.injEq, Offset.mk.injEq]
  · rename_i hlt
    exact iff_of_false nofun fun h => hlt (h ▸ o.lt_day)

/-- **A written offset is read back** if it has at least a second. -/
theorem read?_write (o : Offset) :
    read? (o.microseconds < 0) o.writeSize = some o.kept := by
  simp only [read?, read?_writeSize, Option.bind_eq_bind, Option.bind_some, seconds_size,
    microseconds_size, Bool.not_true, Bool.false_eq_true, if_false, decide_eq_true_eq,
    of?_eq_some, microseconds_kept]
  split_ifs <;> omega

/-- An offset that was read has at least a second, or is none at all. -/
theorem kept_of_read? {negative : Bool} {cs : List Char} {o : Offset}
    (h : read? negative cs = some o) : o.kept = o := by
  simp only [read?, Option.bind_eq_bind, Option.bind_eq_some_iff] at h
  obtain ⟨⟨size, complete⟩, -, h⟩ := h
  have hsize : size.microseconds = size.seconds * 1000000 + size.microsecond := rfl
  rw [kept_eq_self_iff]
  cases complete with
  | false => exact absurd h nofun
  | true =>
    simp only [Bool.not_true, Bool.false_eq_true, if_false, of?_eq_some] at h
    split_ifs at h <;> omega

end Offset

/-! ## 5. Moments -/

theorem isSign_eq_false_of_mem_write {c : Clock} {ch : Char} (h : ch ∈ c.write) :
    isSign ch = false := by
  rcases Clock.mem_write h with hdigit | rfl | rfl
  · simp only [isSign, Bool.or_eq_false_iff, decide_eq_false_iff_not]
    constructor <;> rintro rfl <;> exact absurd hdigit (by decide)
  · rfl
  · rfl

/-- **A written time is read back**, with its offset. -/
theorem readTime?_write {c : Clock} (h : c.InDay) (offset : Option Offset) :
    readTime? (c.write ++ (offset.map Offset.write).getD []) = some (c, offset.map Offset.kept) := by
  -- The first sign is that of the offset: there is none in the clock time.
  have hclock : ∀ ch ∈ c.write, (!isSign ch) = true := fun ch hch => by
    rw [isSign_eq_false_of_mem_write hch, Bool.not_false]
  rw [readTime?, List.takeWhile_append_of_pos hclock, List.dropWhile_append_of_pos hclock]
  cases offset with
  | none =>
    simp only [Option.map_none, Option.getD_none, List.takeWhile_nil, List.append_nil,
      List.dropWhile_nil, Clock.read?_write h]
    rfl
  | some o =>
    have hsign : isSign (if o.microseconds < 0 then '-' else '+') = true := by split <;> rfl
    have hnegative : decide ((if o.microseconds < 0 then '-' else '+') = '-')
        = decide (o.microseconds < 0) := by split <;> simp [*]
    simp only [Option.map_some, Option.getD_some, Offset.write_eq]
    rw [List.takeWhile_cons_of_neg (by simp [hsign]), List.dropWhile_cons_of_neg (by simp [hsign]),
      List.append_nil, Clock.read?_write h]
    simp only [Option.bind_eq_bind, Option.bind_some, hnegative, Offset.read?_write]
    rfl

/-- Where a date is written, the time begins behind ten characters. -/
theorem dateLength?_write (d : Date) (rest : List Char) :
    dateLength? (d.write ++ rest) = some 10 := by
  have hlength : (d.write ++ rest).length ≠ 7 := by
    rw [List.length_append, d.length_write]
    omega
  have hyear := length_zeroPadded (by decide) d.year_lt
  have hwrite : d.write ++ rest = zeroPadded 4 d.year ++ '-' :: (zeroPadded 2 d.month ++
      ('-' :: zeroPadded 2 d.day ++ rest)) := by
    simp only [d.write_eq, List.append_assoc, List.cons_append]
  have hhyphen : (d.write ++ rest)[4]? = some '-' := by
    rw [hwrite, List.getElem?_append_right (Nat.le_of_eq hyear), hyear]
    rfl
  -- The month begins with a digit, so it is no week.
  have hmonth : (d.write ++ rest)[5]? ≠ some 'W' := by
    rw [hwrite, List.getElem?_append_right (by rw [hyear]; decide), hyear,
      List.getElem?_cons_succ, ← List.head?_eq_getElem?, Ne, List.head?_eq_some_iff]
    rintro ⟨cs, hcs⟩
    exact zeroPadded_append_ne _ _ rfl _ _ hcs
  rw [dateLength?, if_neg hlength, if_pos hhyphen, if_neg hmonth]

theorem spelledOut_of_not_mem {cs : List Char} (h : 'Z' ∉ cs) : spelledOut cs = cs := by
  have hself : ∀ c ∈ cs, (if c = 'Z' then ['+', '0', '0', ':', '0', '0'] else [c]) = [c] :=
    fun c hc => if_neg fun hz : c = 'Z' => h (hz ▸ hc)
  rw [spelledOut, List.flatMap_congr hself, List.flatMap_singleton']

/-- The offset of a time that was read is read back. -/
theorem kept_of_readTime? {cs : List Char} {c : Clock} {offset : Option Offset}
    (h : readTime? cs = some (c, offset)) : offset.map Offset.kept = offset := by
  simp only [readTime?, Option.bind_eq_bind, Option.bind_eq_some_iff] at h
  obtain ⟨⟨clock, complete⟩, -, h⟩ := h
  split at h
  · cases complete with
    | false => exact absurd h nofun
    | true =>
      obtain ⟨-, rfl⟩ := Prod.mk.inj (Option.some.inj h)
      rfl
  · obtain ⟨o, ho, h⟩ := Option.bind_eq_some_iff.mp h
    obtain ⟨-, rfl⟩ := Prod.mk.inj (Option.some.inj h)
    rw [Option.map_some, Offset.kept_of_read? ho]

namespace DateTime

/-- The moment that is read from a written one. -/
def kept (t : DateTime) : DateTime := { t with offset := t.offset.map Offset.kept }

theorem kept_eq_self_iff (t : DateTime) : t.kept = t ↔
    ∀ o, t.offset = some o → o.microseconds = 0 ∨ 1000000 ≤ o.microseconds.natAbs := by
  obtain ⟨date, clock, offset, hinDay⟩ := t
  simp only [kept, DateTime.mk.injEq, true_and, ← Offset.kept_eq_self_iff]
  cases offset with
  | none => exact iff_of_true rfl nofun
  | some o => simp only [Option.map_some, Option.some.injEq, forall_eq']

theorem of?_eq_some {date : Date} {clock : Clock} {offset : Option Offset} {t : DateTime} :
    of? date clock offset = some t ↔ date = t.date ∧ clock = t.clock ∧ offset = t.offset := by
  constructor
  · intro h
    unfold of? at h
    split at h
    · obtain rfl := Option.some.inj h
      exact ⟨rfl, rfl, rfl⟩
    · exact absurd h nofun
  · rintro ⟨rfl, rfl, rfl⟩
    exact dif_pos t.inDay

theorem not_mem_write (t : DateTime) {separator : Char} (h : separator ≠ 'Z') :
    'Z' ∉ t.write separator := by
  have hclock : ∀ {c : Clock}, 'Z' ∉ c.write := fun hc => by
    rcases Clock.mem_write hc with hdigit | hcolon | hpoint
    · exact absurd hdigit (by decide)
    · exact absurd hcolon (by decide)
    · exact absurd hpoint (by decide)
  have hoffset : ∀ {o : Offset}, 'Z' ∉ o.write := fun {o} hc => by
    rw [o.write_eq, List.mem_cons] at hc
    rcases hc with hsign | hsize
    · split at hsign <;> exact absurd hsign (by decide)
    · exact hclock (Offset.mem_writeSize hsize)
  intro hc
  simp only [write, List.mem_append, List.mem_cons] at hc
  rcases hc with (hdate | hseparator | htime) | hrest
  · rcases Date.mem_write hdate with hdigit | hhyphen
    · exact absurd hdigit (by decide)
    · exact absurd hhyphen (by decide)
  · exact h hseparator.symm
  · exact hclock htime
  · cases ho : t.offset with
    | none => exact absurd (ho ▸ hrest) List.not_mem_nil
    | some o => exact hoffset (o := o) (by rwa [ho] at hrest)

/-- **A written moment is read back**, if its offset is. -/
theorem read?_write (t : DateTime) {separator : Char} (h : separator ≠ 'Z') :
    read? (String.ofList (t.write separator)) = some t.kept := by
  have hdate := t.date.length_write
  have hwrite : t.write separator = t.date.write ++ separator :: (t.clock.write
      ++ (t.offset.map Offset.write).getD []) := by
    simp only [write, List.append_assoc, List.cons_append]
  rw [read?, String.toList_ofList, spelledOut_of_not_mem (t.not_mem_write h), hwrite]
  simp only [dateLength?_write, Option.bind_eq_bind, Option.bind_some, List.take_left' hdate,
    List.drop_left' hdate, Date.readFront?_write, readTime?_write t.inDay, of?_eq_some]
  exact ⟨rfl, rfl, rfl⟩

/-- A moment that was read has no offset, one of at least a second, or the offset zero. -/
theorem kept_of_read? {text : String} {t : DateTime} (h : read? text = some t) : t.kept = t := by
  have hkept : t.offset.map Offset.kept = t.offset := by
    simp only [read?, Option.bind_eq_bind, Option.bind_eq_some_iff] at h
    obtain ⟨n, -, date, -, h⟩ := h
    split at h
    · obtain ⟨-, -, hoffset⟩ := of?_eq_some.mp h
      rw [← hoffset]
      rfl
    · obtain ⟨⟨clock, offset⟩, htime, h⟩ := Option.bind_eq_some_iff.mp h
      obtain ⟨-, -, rfl⟩ := of?_eq_some.mp h
      exact kept_of_readTime? htime
  cases t
  exact congrArg (DateTime.mk _ _ · _) hkept

end DateTime

end QueryCompiler
