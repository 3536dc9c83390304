import QueryCompiler.Proofs.Language.Readable
import QueryCompiler.Proofs.Parsing
/-
# What the tokens of a text hold

A name that is read is a name, a number a number, and the value of a block string begins and ends
within a line.

* `BlockString.isValue_value`: the value of a block string, whatever its lines;
* `Token.wellFormed_of_scan?`: every token of a text.
-/
namespace QueryCompiler

/-! ## 1. Block strings -/

theorem Text.newline_notMem_lines (cs : List Char) : ∀ line ∈ Text.lines cs, '\n' ∉ line := by
  fun_induction Text.lines cs with
  | case1 => simp
  | case2 rest ih | case3 rest _ ih | case4 rest ih =>
    exact List.forall_mem_cons.mpr ⟨List.not_mem_nil, ih⟩
  | case5 c rest _ _ hnewline _ _ =>
    rintro line hline hmem
    obtain rfl := List.mem_singleton.mp hline
    exact hnewline (List.mem_singleton.mp hmem).symm
  | case6 c rest _ _ hnewline line more hlines ih =>
    rw [hlines, List.forall_mem_cons] at ih
    refine List.forall_mem_cons.mpr ⟨fun hmem => ?_, ih.2⟩
    rcases List.mem_cons.mp hmem with hc | hmem
    · exact hnewline hc.symm
    · exact ih.1 hmem

namespace BlockString

/-- A line that is not blank and does not go on in another one. -/
def IsLine (line : List Char) : Prop := isBlank line = false ∧ '\n' ∉ line

theorem IsLine.ne_nil {line : List Char} (h : IsLine line) : line ≠ [] := by
  rintro rfl
  exact absurd h.1 nofun

theorem IsLine.isValue {line : List Char} (h : IsLine line) : IsValue line where
  start hstart := h.2 (List.mem_of_mem_head? hstart)
  stop hstop := h.2 (List.mem_of_getLast? hstop)

/-- Lines end as the last of them does. -/
theorem getLast?_intercalate {lines : List (List Char)} (hne : lines ≠ [])
    (hlast : ∀ line ∈ lines.getLast?, IsLine line) :
    ∃ c, (['\n'].intercalate lines).getLast? = some c ∧ c ≠ '\n' := by
  induction lines with
  | nil => exact absurd rfl hne
  | cons line lines ih =>
    cases lines with
    | nil =>
      have hline := hlast line rfl
      rw [List.intercalate_singleton]
      obtain ⟨c, hc⟩ := Option.ne_none_iff_exists'.mp
        (mt List.getLast?_eq_none_iff.mp hline.ne_nil)
      exact ⟨c, hc, fun he => hline.isValue.stop (he ▸ hc)⟩
    | cons next lines =>
      obtain ⟨c, hc, hne⟩ := ih (List.cons_ne_nil _ _) hlast
      refine ⟨c, ?_, hne⟩
      rw [List.intercalate_cons_cons, List.append_assoc, List.getLast?_append, List.getLast?_append,
        hc]
      rfl

/-- Lines begin as the first of them does, and end as the last of them does. -/
theorem isValue_intercalate {lines : List (List Char)}
    (hfirst : ∀ line ∈ lines.head?, IsLine line) (hlast : ∀ line ∈ lines.getLast?, IsLine line) :
    IsValue (['\n'].intercalate lines) := by
  cases lines with
  | nil => exact ⟨nofun, nofun⟩
  | cons line lines =>
    obtain ⟨c, hc, hne⟩ := getLast?_intercalate (List.cons_ne_nil line lines) hlast
    refine ⟨?_, fun hstop => hne (Option.some.inj (hc.symm.trans hstop))⟩
    have hline := hfirst line rfl
    cases lines with
    | nil =>
      rw [List.intercalate_singleton]
      exact hline.isValue.start
    | cons next lines =>
      rw [List.intercalate_cons_cons, List.append_assoc, List.head?_append_of_ne_nil _ hline.ne_nil]
      exact hline.isValue.start

/-- What is left of lines that end nowhere else begins and ends with lines that are not blank. -/
theorem isValue_trimmed {lines : List (List Char)} (h : ∀ line ∈ lines, '\n' ∉ line) :
    IsValue (['\n'].intercalate (trimmed lines)) := by
  -- Blank lines go from the front first; without those at the end the front is what it was.
  have htrimmed : trimmed lines = (lines.dropWhile isBlank).rdropWhile isBlank := rfl
  have hleft : trimmed lines <+: lines.dropWhile isBlank := List.rdropWhile_prefix _ _
  have hmem : ∀ line ∈ trimmed lines, '\n' ∉ line := fun line hline =>
    h line ((List.dropWhile_sublist _).subset (hleft.subset hline))
  refine isValue_intercalate (fun line hline => ?_) fun line hline => ?_
  · refine ⟨?_, hmem line (List.mem_of_mem_head? hline)⟩
    obtain ⟨more, hmore⟩ := hleft
    have hhead := List.head?_dropWhile_not isBlank lines
    rw [← hmore, List.head?_append, hline, Option.some_or] at hhead
    exact hhead
  · refine ⟨?_, hmem line (List.mem_of_getLast? hline)⟩
    have hne : (lines.dropWhile isBlank).rdropWhile isBlank ≠ [] := by
      rintro hnil
      rw [htrimmed, hnil] at hline
      cases hline
    have hlast := List.rdropWhile_last_not isBlank _ hne
    rw [htrimmed, List.getLast?_eq_some_getLast hne] at hline
    rw [Option.some.inj hline] at hlast
    exact Bool.eq_false_iff.mpr hlast

theorem isValue_value (cs : List Char) : IsValue (value (Text.lines cs)) := by
  have hlines := Text.newline_notMem_lines cs
  cases hcs : Text.lines cs with
  | nil => exact ⟨nofun, nofun⟩
  | cons first others =>
    rw [hcs, List.forall_mem_cons] at hlines
    refine isValue_trimmed (List.forall_mem_cons.mpr ⟨hlines.1, fun line hline => ?_⟩)
    obtain ⟨other, hother, rfl⟩ := List.mem_map.mp hline
    exact fun hmem => hlines.2 other hother (List.mem_of_mem_drop hmem)

end BlockString

/-! ## 2. Numbers -/

namespace Token

/-- What a token holds is what its kind says. -/
def WellFormed : Token → Prop
  | .name text => IsName text
  | .int text => IsInt text
  | .float text => IsFloat text
  | .blockString text => BlockString.IsValue text.toList
  | .mark _ | .at _ | .spread | .string _ => True

/-- Any characters will do. -/
abbrev AnyChar : Char → Prop := fun _ => True

theorem gives_digits : Parser.Gives AnyChar digits fun ds => ds ≠ [] ∧ ∀ d ∈ ds, d.isDigit := by
  intro cs ds rest _ h
  rw [digits] at h
  split at h
  · rename_i hhead
    obtain ⟨rfl, rfl⟩ := Prod.mk.inj (Option.some.inj h)
    refine ⟨⟨fun hnil => ?_, fun d hd => List.mem_takeWhile_imp hd⟩, fun _ _ => trivial⟩
    cases cs with
    | nil => exact absurd hhead nofun
    | cons c cs =>
      have hdigit : c.isDigit := hhead
      rw [List.takeWhile_cons_of_pos hdigit] at hnil
      cases hnil
  · exact absurd h nofun

theorem gives_wholePart :
    Parser.Gives AnyChar wholePart fun ds => ds ≠ [] ∧ ∀ d ∈ ds, d.isDigit := by
  intro cs ds rest hcs h
  rw [wholePart.eq_def] at h
  split at h
  · split at h
    · exact absurd h nofun
    · obtain ⟨rfl, rfl⟩ := Prod.mk.inj (Option.some.inj h)
      exact ⟨⟨List.cons_ne_nil _ _, List.all_iff_forall_prop.mp rfl⟩, fun _ _ => trivial⟩
  · exact gives_digits hcs h

/-- What stands behind the whole part of a number: nothing, or something with a mark. -/
structure IsMarked (part : List Char) : Prop where
  parts : ∀ d ∈ part, IsNumberPart d
  mark : part ≠ [] → ∃ d ∈ part, d ∈ ['.', 'e', 'E']

theorem isMarked_nil : IsMarked [] := ⟨nofun, fun h => absurd rfl h⟩

theorem isMarked_cons {c : Char} {cs : List Char} (hc : c ∈ ['.', 'e', 'E'])
    (hcs : ∀ d ∈ cs, IsNumberPart d) : IsMarked (c :: cs) := by
  have hmarks : ∀ d ∈ ['.', 'e', 'E'], d ∈ ['-', '+', '.', 'e', 'E'] :=
    List.all_iff_forall_prop.mp rfl
  exact ⟨List.forall_mem_cons.mpr ⟨.inr (hmarks c hc), hcs⟩, fun _ => ⟨c, List.mem_cons_self, hc⟩⟩

/-- A mark, perhaps a sign, and digits. -/
theorem isMarked_of_digits {c : Char} (hc : c ∈ ['.', 'e', 'E']) (sign : List Char)
    (hsign : ∀ d ∈ sign, IsNumberPart d) {cs part rest : List Char}
    (h : ((digits cs).map fun (ds, left) => (c :: (sign ++ ds), left)) = some (part, rest)) :
    IsMarked part := by
  obtain ⟨⟨ds, left⟩, hds, heq⟩ := Option.map_eq_some_iff.mp h
  obtain ⟨rfl, rfl⟩ := Prod.mk.inj heq
  have hdigits := (gives_digits (fun _ _ => trivial) hds).1.2
  exact isMarked_cons hc fun d hd =>
    (List.mem_append.mp hd).elim (hsign d) fun hd => .inl (hdigits d hd)

theorem gives_fraction : Parser.Gives AnyChar fraction IsMarked := by
  intro cs part rest hcs h
  refine ⟨?_, fun _ _ => trivial⟩
  rw [fraction.eq_def] at h
  split at h
  · exact isMarked_of_digits (by decide) [] nofun h
  · exact (Prod.mk.inj (Option.some.inj h)).1 ▸ isMarked_nil

theorem gives_exponent : Parser.Gives AnyChar exponent IsMarked := by
  intro cs power rest _ h
  refine ⟨?_, fun _ _ => trivial⟩
  cases cs with
  | nil => exact (Prod.mk.inj (Option.some.inj h)).1 ▸ isMarked_nil
  | cons c more =>
    unfold exponent at h
    dsimp only at h
    split at h
    · rename_i hletter
      have hc : c ∈ ['.', 'e', 'E'] := List.mem_cons_of_mem _ (by simpa using hletter)
      cases more with
      | nil => exact absurd h nofun
      | cons s more =>
        dsimp only at h
        split at h
        · rename_i hsign
          have hs : IsNumberPart s := by
            simp only [Bool.or_eq_true, decide_eq_true_eq] at hsign
            rcases hsign with rfl | rfl <;> exact .inr (by decide)
          exact isMarked_of_digits hc [s] (List.forall_mem_singleton.mpr hs) h
        · exact isMarked_of_digits hc [] nofun h
    · exact (Prod.mk.inj (Option.some.inj h)).1 ▸ isMarked_nil

/-- The parts of a number make up a number of its kind. -/
theorem wellFormed_number {sign whole part power : List Char} (hsign : sign = [] ∨ sign = ['-'])
    (hwhole : whole ≠ [] ∧ ∀ d ∈ whole, d.isDigit) (hpart : IsMarked part)
    (hpower : IsMarked power) :
    (if part.isEmpty && power.isEmpty
      then Token.int (String.ofList (sign ++ whole ++ part ++ power))
      else .float (String.ofList (sign ++ whole ++ part ++ power))).WellFormed := by
  obtain ⟨c, cs, hcs⟩ :=
    List.exists_cons_of_ne_nil (List.append_ne_nil_of_right_ne_nil sign hwhole.1)
  have hstart : ∀ d ∈ c :: cs, d.isDigit ∨ d = '-' := by
    rw [← hcs]
    intro d hd
    rcases List.mem_append.mp hd with hd | hd
    · rcases hsign with rfl | rfl
      · cases hd
      · exact .inr (List.mem_singleton.mp hd)
    · exact .inl (hwhole.2 d hd)
  split
  · rename_i hempty
    simp only [Bool.and_eq_true, List.isEmpty_iff] at hempty
    obtain ⟨rfl, rfl⟩ := hempty
    exact ⟨c, cs, by rw [String.toList_ofList, List.append_nil, List.append_nil, hcs], hstart⟩
  · rename_i hempty
    have hmark : ∃ d ∈ part ++ power, d ∈ ['.', 'e', 'E'] := by
      by_cases hnil : part = []
      · have hpower' : power ≠ [] := by
          rintro rfl
          exact hempty (by rw [hnil]; rfl)
        obtain ⟨d, hd, hmark⟩ := hpower.mark hpower'
        exact ⟨d, List.mem_append_right _ hd, hmark⟩
      · obtain ⟨d, hd, hmark⟩ := hpart.mark hnil
        exact ⟨d, List.mem_append_left _ hd, hmark⟩
    have htext : (String.ofList (sign ++ whole ++ part ++ power)).toList
        = c :: cs ++ (part ++ power) := by
      rw [String.toList_ofList, hcs, List.append_assoc]
    refine ⟨⟨c, cs ++ (part ++ power), htext, hstart c List.mem_cons_self⟩, ?_, ?_⟩
    · rw [htext]
      intro d hd
      rcases List.mem_append.mp hd with hd | hd
      · exact (hstart d hd).imp_right fun (he : d = '-') => he ▸ List.mem_cons_self
      · exact (List.mem_append.mp hd).elim (hpart.parts d) (hpower.parts d)
    · obtain ⟨d, hd, hmark⟩ := hmark
      exact ⟨d, htext ▸ List.mem_append_right _ hd, hmark⟩

/-- A number is whole when it has neither a point nor an exponent. -/
theorem gives_number : Parser.Gives AnyChar number WellFormed := by
  refine .bind (P := fun sign => sign = [] ∨ sign = ['-']) ?_ fun sign hsign =>
    gives_wholePart.bind fun whole hwhole => gives_fraction.bind fun part hpart =>
    gives_exponent.bind fun power hpower => Parser.Gives.peek.bind fun runsOn _ => ?_
  · intro cs sign rest _ h
    refine ⟨?_, fun _ _ => trivial⟩
    dsimp only at h
    split at h
    · exact .inr (Prod.mk.inj (Option.some.inj h)).1.symm
    · exact .inl (Prod.mk.inj (Option.some.inj h)).1.symm
  · cases runsOn with
    | true =>
      exact .bind (P := fun _ => True) .failure fun _ _ =>
        .pure (wellFormed_number hsign hwhole hpart hpower)
    | false => exact .pure (wellFormed_number hsign hwhole hpart hpower)

theorem gives_one (total : Nat) :
    Parser.Gives AnyChar (one total) fun t => ∀ t' ∈ t, t'.WellFormed := by
  intro cs t rest _ h
  refine ⟨?_, fun _ _ => trivial⟩
  cases cs with
  | nil => exact absurd h nofun
  | cons c more =>
    unfold one at h
    dsimp only at h
    split_ifs at h with hignored hcomment hat hmark hname hnumber
    · obtain ⟨rfl, -⟩ := Prod.mk.inj (Option.some.inj h)
      exact nofun
    · obtain ⟨rfl, -⟩ := Prod.mk.inj (Option.some.inj h)
      exact nofun
    · obtain ⟨rfl, -⟩ := Prod.mk.inj (Option.some.inj h)
      rintro _ ⟨⟩
      trivial
    · obtain ⟨rfl, -⟩ := Prod.mk.inj (Option.some.inj h)
      rintro _ ⟨⟩
      trivial
    · obtain ⟨rfl, -⟩ := Prod.mk.inj (Option.some.inj h)
      rintro _ ⟨⟩
      exact ⟨c, _, String.toList_ofList, hname, fun d hd => List.mem_takeWhile_imp hd⟩
    · obtain ⟨⟨number, left⟩, hread, heq⟩ := Option.map_eq_some_iff.mp h
      obtain ⟨rfl, -⟩ := Prod.mk.inj heq
      rintro _ ⟨⟩
      exact (gives_number (fun _ _ => trivial) hread).1
    · split at h
      · obtain ⟨rfl, -⟩ := Prod.mk.inj (Option.some.inj h)
        rintro _ ⟨⟩
        trivial
      · obtain ⟨⟨cs, left⟩, -, heq⟩ := Option.map_eq_some_iff.mp h
        obtain ⟨rfl, -⟩ := Prod.mk.inj heq
        rintro _ ⟨⟩
        rw [WellFormed, String.toList_ofList]
        exact BlockString.isValue_value cs
      · obtain ⟨⟨cs, left⟩, -, heq⟩ := Option.map_eq_some_iff.mp h
        obtain ⟨rfl, -⟩ := Prod.mk.inj heq
        rintro _ ⟨⟩
        trivial
      · exact absurd h nofun

theorem wellFormed_of_scan? {source : String} {ts : List Token} (h : scan? source = some ts) :
    ∀ t ∈ ts, t.WellFormed := by
  simp only [scan?, Option.map_eq_some_iff] at h
  obtain ⟨found, hfound, rfl⟩ := h
  have hall := (gives_one source.toList.length).repeatWhile.run? (fun _ _ => trivial) hfound
  intro t ht
  obtain ⟨t', ht', heq⟩ := List.mem_filterMap.mp ht
  exact hall t' ht' t heq

end Token

end QueryCompiler
