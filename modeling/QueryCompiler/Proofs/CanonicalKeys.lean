import QueryCompiler.Proofs.CacheKeys
import QueryCompiler.Proofs.Language.Parsed
/-
# Cache keys are canonical

Two calls of a field have one cache key if and only if they say the same: the same name, and the
same values under the same names, in whatever order.  In one direction the arguments are brought
into one order before they are printed.  In the other the text is read in one way, though a string
may hold all that separates arguments, items and fields.

* `callText_inj`: the text of a call is that of no other call;
* `cacheKey_eq_iff`: when two calls that stand in texts have one cache key.
-/
namespace QueryCompiler

/-! ## 1. The text of a call -/

/-- A name with its arguments in parentheses, if there are any. -/
def callText (name : String) (arguments : List Argument) : String :=
  if arguments = [] then name else printedCall name arguments

/-- An argument is read as its name and its value. -/
theorem Argument.WellFormed.readsAs {a : Argument} (h : a.WellFormed) :
    ReadsAs (·.print.toList) Argument.WellFormed a := by
  intro b rest rest' hb hrest hrest' heq
  have hfield : ReadsAs Value.fieldText _ (a.name, a.value) :=
    Value.WellFormed.readsAs_field h.1 h.2.readsAs
  obtain ⟨hab, rfl⟩ := hfield (b.name, b.value) rest rest' hb hrest hrest' heq
  obtain ⟨hname, hvalue⟩ := Prod.mk.inj hab
  exact ⟨congrArg₂ Argument.mk hname hvalue, rfl⟩

/-- An argument begins with a name. -/
theorem Argument.WellFormed.append_ne {a : Argument} (h : a.WellFormed) (rest rest' : List Char) :
    a.print.toList ++ rest ≠ ')' :: rest' := by
  have hfield : IsName (a.name, a.value).1 ∧ (a.name, a.value).2.WellFormed := h
  exact Value.WellFormed.fieldText_append_ne hfield (by decide) rest rest'

/-- A call is written as its name and the series of its arguments. -/
theorem toList_printedCall (name : String) (arguments : List Argument) :
    (printedCall name arguments).toList
      = name.toList ++ '(' :: (series (·.print.toList) arguments ++ [')']) := by
  rw [printedCall, String.toList_append, String.toList_append, String.toList_append,
    toList_intercalate_map, List.append_assoc, List.append_assoc]
  rfl

/-- What follows the name of a call. -/
theorem toList_callText (name : String) (arguments : List Argument) :
    ∃ rest, (callText name arguments).toList = name.toList ++ rest ∧ Apart rest ∧
      rest = if arguments = [] then []
        else '(' :: (series (·.print.toList) arguments ++ [')']) := by
  by_cases h : arguments = []
  · refine ⟨[], ?_, nofun, (if_pos h).symm⟩
    rw [callText, if_pos h, List.append_nil]
  · refine ⟨_, ?_, ?_, (if_neg h).symm⟩
    · rw [callText, if_neg h, toList_printedCall]
    · rintro c hc
      obtain rfl := Option.some.inj hc
      decide

/-- **The text of a call is that of no other call.** -/
theorem callText_inj {name name' : String} {arguments arguments' : List Argument}
    (hname : IsName name) (hname' : IsName name') (h : ∀ a ∈ arguments, a.WellFormed)
    (h' : ∀ a ∈ arguments', a.WellFormed)
    (heq : callText name arguments = callText name' arguments') :
    name = name' ∧ arguments = arguments' := by
  obtain ⟨rest, htext, hapart, hrest⟩ := toList_callText name arguments
  obtain ⟨rest', htext', hapart', hrest'⟩ := toList_callText name' arguments'
  rw [heq, htext'] at htext
  obtain ⟨hnames, rfl⟩ := word_inj hname'.isWordPart hname.isWordPart hapart' hapart htext
  refine ⟨(String.toList_inj.mp hnames).symm, ?_⟩
  rw [hrest] at hrest'
  split at hrest'
  · rename_i hnil
    split at hrest'
    · rename_i hnil'
      rw [hnil, hnil']
    · exact absurd hrest' nofun
  · split at hrest'
    · exact absurd hrest' nofun
    · exact (series_inj (P := Argument.WellFormed) (by decide) (fun a ha => ha.append_ne)
        (fun a ha => (h a ha).readsAs) h h' (List.cons.inj hrest').2).1

/-! ## 2. Keys -/

/-- The names of the arguments of a field as its definition declares them. -/
def SchemaField.argumentNames (f : SchemaField) : List String :=
  (f.arguments.map Table.keys).getD []

/-- A call of a field: each argument is given once, and is one of those that are declared. -/
structure FieldHead.Calls (head : FieldHead) (f : SchemaField) : Prop where
  distinct : (head.arguments.map (·.name)).Nodup
  declared : ∀ a ∈ head.arguments, a.name ∈ f.argumentNames

/-- A field stands somewhere in a text. -/
def FieldHead.IsParsed (head : FieldHead) : Prop :=
  ∃ source definitions, parseDocument? source = some definitions ∧
    ∃ d ∈ definitions, head ∈ d.fieldHeads

theorem FieldHead.IsParsed.wellFormed {head : FieldHead} (h : head.IsParsed) :
    head.WellFormed := by
  obtain ⟨source, definitions, hparse, d, hd, hhead⟩ := h
  exact wellFormed_of_parseDocument? hparse d hd head hhead

/-- Sorting arguments loses none of them. -/
theorem perm_inOrder (order : List String) (arguments : List Argument) :
    (inOrder order arguments).Perm arguments :=
  List.mergeSort_perm arguments _

namespace FieldHead.Calls

variable {f : SchemaField} {head head' : FieldHead}

/-- A call has the text of its arguments in the order in which they are declared for a key. -/
theorem cacheKey_eq (h : head.Calls f) :
    cacheKey head (some f) = .ok (callText head.name (inOrder f.argumentNames head.arguments)) := by
  unfold cacheKey
  cases harguments : head.arguments with
  | nil =>
    rw [inOrder, List.mergeSort_nil]
    rfl
  | cons a arguments =>
    have hne : inOrder f.argumentNames (a :: arguments) ≠ [] := by
      intro hnil
      have hperm := perm_inOrder f.argumentNames (a :: arguments)
      rw [hnil] at hperm
      exact List.cons_ne_nil a arguments hperm.symm.eq_nil
    have hdeclared := h.declared a (harguments ▸ List.mem_cons_self)
    rw [callText, if_neg hne]
    rw [SchemaField.argumentNames] at hdeclared ⊢
    dsimp only
    cases hf : f.arguments with
    | none => rw [hf] at hdeclared; cases hdeclared
    | some declared => rfl

/-- The same arguments come in one order. -/
theorem inOrder_eq_iff (h : head.Calls f) (h' : head'.Calls f) :
    inOrder f.argumentNames head.arguments = inOrder f.argumentNames head'.arguments ↔
      ∀ a, a ∈ head.arguments ↔ a ∈ head'.arguments := by
  constructor
  · intro hsame a
    rw [← (perm_inOrder f.argumentNames head.arguments).mem_iff, hsame,
      (perm_inOrder f.argumentNames head'.arguments).mem_iff]
  · intro hmem
    exact inOrder_perm ((List.perm_ext_iff_of_nodup h.distinct.of_map h'.distinct.of_map).mpr hmem)
      h.distinct h.declared fun _ _ _ _ => Iff.rfl

end FieldHead.Calls

/-- **Cache keys are canonical.**  Two calls of a field that stand in texts have one key if and only
if they have the same name and the same arguments. -/
theorem cacheKey_eq_iff {f : SchemaField} {head head' : FieldHead} (hparsed : head.IsParsed)
    (hparsed' : head'.IsParsed) (h : head.Calls f) (h' : head'.Calls f) :
    ∃ key key', cacheKey head (some f) = .ok key ∧ cacheKey head' (some f) = .ok key' ∧
      (key = key' ↔ head.name = head'.name ∧ ∀ a, a ∈ head.arguments ↔ a ∈ head'.arguments) := by
  refine ⟨_, _, h.cacheKey_eq, h'.cacheKey_eq, ?_⟩
  -- What is printed is the arguments in order: these say the same as the arguments.
  rw [← h.inOrder_eq_iff h']
  refine ⟨fun hkey => ?_, fun ⟨hname, harguments⟩ => by rw [hname, harguments]⟩
  have hordered {head : FieldHead} (hparsed : head.IsParsed) :
      ∀ a ∈ inOrder f.argumentNames head.arguments, a.WellFormed := fun a ha =>
    hparsed.wellFormed.arguments a ((perm_inOrder f.argumentNames head.arguments).mem_iff.mp ha)
  exact callText_inj hparsed.wellFormed.name hparsed'.wellFormed.name (hordered hparsed)
    (hordered hparsed') hkey

namespace Sample

/-- The first field of a text. -/
def firstField (source : String) : FieldHead :=
  (((parseDocument? source).getD []).flatMap Definition.fieldHeads).headD (.plain "")

/-- The first field of a text that has one stands in that text. -/
theorem isParsed_firstField {source : String}
    (h : (((parseDocument? source).getD []).flatMap Definition.fieldHeads).isEmpty = false) :
    (firstField source).IsParsed := by
  cases hparse : parseDocument? source with
  | none => rw [hparse] at h; cases h
  | some definitions =>
    rw [hparse, Option.getD_some] at h
    have hmem : firstField source ∈ definitions.flatMap Definition.fieldHeads := by
      rw [firstField, hparse, Option.getD_some]
      cases hheads : definitions.flatMap Definition.fieldHeads with
      | nil => rw [hheads] at h; cases h
      | cons head heads => exact List.mem_cons_self
    obtain ⟨d, hd, hhead⟩ := List.mem_flatMap.mp hmem
    exact ⟨source, definitions, hparse, d, hd, hhead⟩

/-- The definition of `users(first: Int, filter: Filter): [User]`. -/
def usersDefinition : SchemaField :=
  ⟨"users", some [("first", .named "Int"), ("filter", .named "Filter")], .list (.named "User")⟩

/-- One call, with what separates arguments, items and fields inside a string. -/
def filterFirst : FieldHead :=
  firstField ("\x7b users(filter: \x7bnames: [\"a\", $name, "
    ++ "\"b, c\x7d]) d: \"]\x7d, first: 1) \x7b id \x7d \x7d")

/-- The same call in another order. -/
def filterLast : FieldHead :=
  firstField ("query \x7b users(first: 1, filter: \x7bnames: [\"a\", $name, "
    ++ "\"b, c\x7d]) d: \"]\x7d) \x7b id \x7d \x7d")

end Sample

open Sample in
/-- Two calls of one field, which both have a key: it is the same if they say the same. -/
theorem users_cacheKey :
    ∃ key key', filterFirst.Calls usersDefinition ∧ filterLast.Calls usersDefinition ∧
      cacheKey filterFirst (some usersDefinition) = .ok key ∧
      cacheKey filterLast (some usersDefinition) = .ok key' ∧
      (key = key' ↔ filterFirst.name = filterLast.name ∧
        ∀ a, a ∈ filterFirst.arguments ↔ a ∈ filterLast.arguments) := by
  have hparsed : filterFirst.IsParsed := isParsed_firstField (by decide +kernel)
  have hparsed' : filterLast.IsParsed := isParsed_firstField (by decide +kernel)
  have h : filterFirst.Calls usersDefinition := ⟨by decide +kernel, by decide +kernel⟩
  have h' : filterLast.Calls usersDefinition := ⟨by decide +kernel, by decide +kernel⟩
  obtain ⟨key, key', hkeys⟩ := cacheKey_eq_iff hparsed hparsed' h h'
  exact ⟨key, key', h, h', hkeys⟩

end QueryCompiler
