import QueryCompiler.Proofs.Selection.Compiled
import QueryCompiler.Proofs.Selection.Failures
import QueryCompiler.Proofs.Selection.Fields
/-
# Fields that a type does not have

A selection is made against a type, and compiling it looks up every field that it comes to.  When a
type lacks the field, or when there is no type to look into, the compilation fails and names the
field.  Which fields are amiss can be told from the text alone (`Schema.fieldErrors`): the type
above each field is known from the definition down.

A compilation follows spreads into fragments, so it may fail for a field of its own selections or of
any fragment that it is compiled with; and for no other (`Compilation.compile_lacksOnly`).  Keys,
list directives and operations are made after a field was found, and fail for reasons of their own.
-/
namespace QueryCompiler

/-! ## 1. What is amiss -/

/-- An error that says that a field was not found. -/
def Error.LacksField : Error → Prop
  | .noField _ _ => True
  | .fieldBelowUnknownType _ => True
  | _ => False

/-- What is wrong with a field of this name below a type.  Every type can be asked for its name. -/
def fieldError? (above : Option NamedType) (name : String) : Option Error :=
  if name = typenameField then none
  else match Compilation.definition above name with
    | .error e => some e
    | .ok _ => none

/-- What is wrong with some fields. -/
def errorsOf (fs : List Schema.TypedField) : List Error :=
  fs.filterMap fun (name, above, _) => fieldError? above name

/-- What is wrong with the fields of some selections below these ancestors. -/
def Schema.fieldErrors (s : Schema) (ancestors : List Ancestor) (ss : List Selection) :
    List Error :=
  errorsOf (s.typedFieldsOf ancestors ss)

/-- All that is wrong with the field satisfies `E`. -/
def Missing (s : Schema) (E : Error → Prop) : FieldProperty := fun ancestors head _ =>
  ∀ e, fieldError? (s.typeAt ancestors) head.name = some e → E e

section Fields

variable {s : Schema} {E : Error → Prop}

theorem forall_errorsOf_cons {f : Schema.TypedField} {fs : List Schema.TypedField} :
    (∀ e ∈ errorsOf (f :: fs), E e) ↔
      (∀ e, fieldError? f.2.1 f.1 = some e → E e) ∧ ∀ e ∈ errorsOf fs, E e := by
  obtain ⟨name, above, below⟩ := f
  rw [errorsOf, List.filterMap_cons]
  cases herror : fieldError? above name with
  | none => simp [herror, errorsOf]
  | some e => simp [herror, errorsOf]

theorem forall_errorsOf_append {fs others : List Schema.TypedField} :
    (∀ e ∈ errorsOf (fs ++ others), E e) ↔
      (∀ e ∈ errorsOf fs, E e) ∧ ∀ e ∈ errorsOf others, E e := by
  rw [errorsOf, List.filterMap_append, List.forall_mem_append, errorsOf, errorsOf]

mutual

theorem every_missing_iff : ∀ (selection : Selection) (ancestors : List Ancestor),
    selection.Every (Missing s E) ancestors ↔
      ∀ e ∈ errorsOf (s.typedFields ancestors selection), E e
  | .field head ss, ancestors => by
    rw [Selection.Every, Schema.typedFields, forall_errorsOf_cons, everyIn_missing_iff ss]
    rfl
  | .spread _ _, _ => by
    rw [Selection.Every, Schema.typedFields]
    exact iff_of_true trivial fun _ he => absurd he List.not_mem_nil
  | .inline condition _ ss, ancestors => by
    rw [Selection.Every, Schema.typedFields]
    exact everyIn_missing_iff ss _

/-- What is wrong with some selections is wrong with some field in them. -/
theorem everyIn_missing_iff : ∀ (ss : List Selection) (ancestors : List Ancestor),
    EveryIn (Missing s E) ancestors ss ↔ ∀ e ∈ s.fieldErrors ancestors ss, E e
  | [], ancestors => iff_of_true (everyIn_nil ancestors) fun _ he => absurd he List.not_mem_nil
  | selection :: ss, ancestors => by
    rw [EveryIn, every_missing_iff selection, everyIn_missing_iff ss, Schema.fieldErrors,
      Schema.fieldErrors, Schema.typedFieldsOf, forall_errorsOf_append]

end

theorem everyIn_missing_of_nil {ss : List Selection} {ancestors : List Ancestor}
    (h : s.fieldErrors ancestors ss = []) : EveryIn (Missing s E) ancestors ss := by
  rw [everyIn_missing_iff, h]
  exact fun e he => absurd he List.not_mem_nil

/-- Nothing is wrong with selections in which no field can be missing. -/
theorem everyIn_missing_false {ss : List Selection} {ancestors : List Ancestor} :
    EveryIn (Missing s fun _ => False) ancestors ss ↔ s.fieldErrors ancestors ss = [] := by
  rw [everyIn_missing_iff, List.eq_nil_iff_forall_not_mem]

mutual

theorem typedFields_congr : ∀ (selection : Selection) {ancestors others : List Ancestor},
    (∀ rest, s.typeAt (ancestors ++ rest) = s.typeAt (others ++ rest)) →
      s.typedFields ancestors selection = s.typedFields others selection
  | .field head ss, ancestors, others, h => by
    have habove := h []
    have hbelow (rest : List Ancestor) : s.typeAt (ancestors ++ [.field head] ++ rest)
        = s.typeAt (others ++ [.field head] ++ rest) := by
      simpa using h (.field head :: rest)
    rw [List.append_nil, List.append_nil] at habove
    rw [Schema.typedFields, Schema.typedFields, habove, h [.field head],
      typedFieldsOf_congr ss hbelow]
  | .spread _ _, _, _, _ => rfl
  | .inline condition _ ss, ancestors, others, h =>
    typedFieldsOf_congr ss fun rest => by simpa using h (.inline condition :: rest)

theorem typedFieldsOf_congr : ∀ (ss : List Selection) {ancestors others : List Ancestor},
    (∀ rest, s.typeAt (ancestors ++ rest) = s.typeAt (others ++ rest)) →
      s.typedFieldsOf ancestors ss = s.typedFieldsOf others ss
  | [], _, _, _ => rfl
  | selection :: ss, _, _, h => by
    rw [Schema.typedFieldsOf, Schema.typedFieldsOf, typedFields_congr selection h,
      typedFieldsOf_congr ss h]

end

/-- Of what selections stand under only the type matters that it leads to. -/
theorem fieldErrors_of_leads {ancestors others : List Ancestor} {type : Option NamedType}
    (h : s.Leads ancestors type) (h' : s.Leads others type) (ss : List Selection) :
    s.fieldErrors ancestors ss = s.fieldErrors others ss :=
  congrArg errorsOf (typedFieldsOf_congr ss fun rest => (h rest).trans (h' rest).symm)

end Fields

/-! ## 2. Failures of other kinds -/

/-- When the computation fails for want of a field, the error satisfies `E`. -/
def LacksOnly (E : Error → Prop) {α : Type} (m : Except Error α) : Prop :=
  ∀ e, m = .error e → e.LacksField → E e

section LacksOnly

variable {α β : Type} {E : Error → Prop} {m : Except Error α}

theorem LacksOnly.ok (a : α) : LacksOnly E (.ok a : Except Error α) := nofun

theorem LacksOnly.error {e : Error} (h : e.LacksField → E e) :
    LacksOnly E (.error e : Except Error α) := FailsOnly.error h

theorem LacksOnly.bind {f : α → Except Error β} (hm : LacksOnly E m)
    (hf : ∀ a, m = .ok a → LacksOnly E (f a)) : LacksOnly E (m >>= f) := FailsOnly.bind hm hf

/-- A field that fails of itself lacks nothing. -/
theorem FailsOnly.lacksOnly (hm : FailsOnly Error.OfEntry m) : LacksOnly E m := by
  intro e he hlacks
  have hentry := hm e he
  cases e <;> first | exact hentry.elim | exact hlacks.elim

end LacksOnly

/-! ## 3. Failures for want of a field -/

namespace Compilation

variable {x : Compilation} {E : Error → Prop} {follow : Follow}

theorem lacksOnly_definition {type : Option NamedType} {name : String}
    (hname : name ≠ typenameField) (h : ∀ e, fieldError? type name = some e → E e) :
    LacksOnly E (definition type name) := by
  intro e he _
  refine h e ?_
  rw [fieldError?, if_neg hname, he]

mutual

theorem lacksOnly_tree (hfollow : ∀ name, LacksOnly E (follow name)) :
    ∀ (s : Selection) {ancestors : List Ancestor} {parent : Option NamedType} (masked : Bool),
      x.config.schema.Leads ancestors parent → s.Every (Missing x.config.schema E) ancestors →
        LacksOnly E (x.tree follow parent masked s)
  | .field head ss, ancestors, parent, masked, hleads, h => by
    rw [Selection.Every] at h
    obtain ⟨hfield, hbelow⟩ := h
    rw [Missing, hleads.typeAt] at hfield
    rw [tree]
    split
    · exact .ok _
    · rename_i hname
      refine (lacksOnly_definition hname hfield).bind fun f hf => ?_
      refine (failsOnly_cacheKey head (some f)).lacksOnly.bind fun key _ => ?_
      have hunder : x.config.schema.Leads (ancestors ++ [.field head])
          (x.config.schema.fieldType? f) := hleads.field (definition_eq_ok hf)
      refine (lacksOnly_forest hfollow ss masked [] hunder hbelow).bind fun below _ => ?_
      exact (failsOnly_entryHead head ss f key masked).lacksOnly.bind fun _ _ => .ok _
  | .spread name _, _, _, _, _, _ => by
    rw [tree]
    exact hfollow name
  | .inline condition _ ss, ancestors, parent, masked, hleads, h => by
    rw [Selection.Every] at h
    rw [tree]
    exact lacksOnly_forest hfollow ss masked [] (leads_narrowed hleads condition) h

theorem lacksOnly_forest (hfollow : ∀ name, LacksOnly E (follow name)) :
    ∀ (ss : List Selection) {ancestors : List Ancestor} {parent : Option NamedType}
      (masked : Bool) (merged : SelectionTree),
      x.config.schema.Leads ancestors parent →
        EveryIn (Missing x.config.schema E) ancestors ss →
          LacksOnly E (x.forest follow parent masked merged ss)
  | [], _, _, _, _, _, _ => by
    rw [forest]
    exact .ok _
  | s :: ss, _, _, masked, merged, hleads, h => by
    rw [EveryIn] at h
    rw [forest]
    exact (lacksOnly_tree hfollow s masked hleads h.1).bind fun _ _ =>
      lacksOnly_forest hfollow ss masked _ hleads h.2

end

/-- A fragment that is followed lacks what the fragments of the table lack. -/
theorem lacksOnly_follow (hfragments : ∀ name f, Table.get? x.fragments name = some f →
      EveryIn (Missing x.config.schema E) [.fragment f.condition] f.selections) :
    ∀ (depth : Nat) (name : String), LacksOnly E (x.follow depth name) := by
  intro depth
  induction depth with
  | zero =>
    intro name
    unfold follow
    cases Table.get? x.fragments name with
    | none => exact .error False.elim
    | some f => exact .error False.elim
  | succ depth ih =>
    intro name
    unfold follow
    cases hf : Table.get? x.fragments name with
    | none => exact .error False.elim
    | some f =>
      exact lacksOnly_forest ih f.selections true [] (x.config.schema.leads_fragment f.condition)
        (hfragments name f hf)

/-- **A compilation lacks only fields** that its own selections or the fragments in its table
lack. -/
theorem compile_lacksOnly {type : NamedType} {ss : List Selection} {ancestors : List Ancestor}
    (hleads : x.config.schema.Leads ancestors (some type))
    (hss : EveryIn (Missing x.config.schema E) ancestors ss)
    (hfragments : ∀ name f, Table.get? x.fragments name = some f →
      EveryIn (Missing x.config.schema E) [.fragment f.condition] f.selections) :
    LacksOnly E (x.compile type ss) :=
  lacksOnly_forest (lacksOnly_follow hfragments _) ss false [] hleads hss

/-! ## 4. Fields that have to be there -/

/-- Selections that compile have compiled one by one. -/
theorem exists_tree_of_forest {parent : Option NamedType} {masked : Bool} :
    ∀ {ss : List Selection} {merged t : SelectionTree},
      x.forest follow parent masked merged ss = .ok t →
        ∀ s ∈ ss, ∃ entries, x.tree follow parent masked s = .ok entries
  | [], _, _, _, _, hs => absurd hs List.not_mem_nil
  | s :: ss, merged, t, h, s', hs' => by
    rw [forest, bind_eq_ok] at h
    obtain ⟨entries, hentries, hrest⟩ := h
    rcases List.mem_cons.mp hs' with rfl | hs'
    · exact ⟨entries, hentries⟩
    · exact exists_tree_of_forest hrest s' hs'

/-- Selections with a field that the type lacks do not compile. -/
theorem exists_error_of_lacking {type : NamedType} {ss : List Selection} {head : FieldHead}
    {below : List Selection} (hmem : .field head below ∈ ss) (hname : head.name ≠ typenameField)
    (hlacks : type.field? head.name = none) : ∃ e, x.compile type ss = .error e := by
  cases hcompile : x.compile type ss with
  | error e => exact ⟨e, rfl⟩
  | ok t =>
    obtain ⟨entries, htree⟩ := exists_tree_of_forest hcompile _ hmem
    rw [tree, if_neg hname, bind_eq_ok] at htree
    obtain ⟨f, hf, -⟩ := htree
    rw [definition, hlacks] at hf
    exact absurd hf error_ne_ok

end Compilation

end QueryCompiler
