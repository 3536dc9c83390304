import Mathlib.Data.List.Forall2
import QueryCompiler.Schema.Ancestor
/-
# Ancestors, one at a time

`Schema.typeAt` replays all ancestors of a selection from the definition down.  A pass that goes
through a document has the type at hand and steps from it to the next one.  `Schema.Leads` says
that the two agree, now and for everything further down; every step that a pass takes keeps it.

A field without a definition has no step: nothing below it has a type.

Of the fields among the ancestors only the names matter (`AlikeAncestors.typeAt`).
-/
namespace QueryCompiler

/-! ## 1. Leading to a type -/

namespace Schema

/-- The ancestors lead to a type: whatever comes below them is replayed from there. -/
def Leads (s : Schema) (ancestors : List Ancestor) (type : Option NamedType) : Prop :=
  ∀ rest, s.typeAt (ancestors ++ rest) = s.typeBelow type rest

variable {s : Schema} {ancestors : List Ancestor} {type : Option NamedType}

theorem Leads.typeAt (h : s.Leads ancestors type) : s.typeAt ancestors = type := by
  have := h []
  rwa [List.append_nil, typeBelow] at this

theorem leads_operation (s : Schema) (kind : OperationKind) :
    s.Leads [.operation kind] (s.root? kind) := fun _ => rfl

theorem leads_fragment (s : Schema) (condition : String) :
    s.Leads [.fragment condition] (s.type? condition) := fun _ => rfl

theorem Leads.field (h : s.Leads ancestors type) {head : FieldHead} {f : SchemaField}
    (hf : type.bind (·.field? head.name) = some f) :
    s.Leads (ancestors ++ [.field head]) (s.fieldType? f) := by
  intro rest
  rw [List.append_assoc, h, List.singleton_append, typeBelow, hf]

theorem Leads.inline_none (h : s.Leads ancestors type) :
    s.Leads (ancestors ++ [.inline none]) type := by
  intro rest
  rw [List.append_assoc, h, List.singleton_append, typeBelow]

theorem Leads.inline_some (h : s.Leads ancestors type) (condition : String) :
    s.Leads (ancestors ++ [.inline (some condition)]) (s.type? condition) := by
  intro rest
  rw [List.append_assoc, h, List.singleton_append, typeBelow]

theorem typeBelow_append (s : Schema) {t : NamedType} (rest : List Ancestor) :
    ∀ {ancestors : List Ancestor} {current : Option NamedType},
      s.typeBelow current ancestors = some t →
      s.typeBelow current (ancestors ++ rest) = s.typeBelow (some t) rest
  | [], _, h => by rw [typeBelow] at h; rw [h, List.nil_append]
  | .operation _ :: _, _, h | .fragment _ :: _, _, h | .inline none :: _, _, h
  | .inline (some _) :: _, _, h => by
    rw [typeBelow] at h
    rw [List.cons_append, typeBelow, typeBelow_append s rest h]
  | .field head :: _, current, h => by
    rw [typeBelow] at h
    rw [List.cons_append, typeBelow]
    split at h
    · exact typeBelow_append s rest h
    · exact absurd h nofun

/-- Where the type is known, it is what the ancestors lead to. -/
theorem leads_typeAt {t : NamedType} (h : s.typeAt ancestors = some t) :
    s.Leads ancestors (some t) := fun rest => s.typeBelow_append rest h

end Schema

/-! ## 2. Leading to the same type -/

/-- Ancestors that differ in what is said of a field besides its name. -/
inductive Ancestor.Alike : Ancestor → Ancestor → Prop
  | operation (kind : OperationKind) : Alike (.operation kind) (.operation kind)
  | fragment (condition : String) : Alike (.fragment condition) (.fragment condition)
  | inline (condition : Option String) : Alike (.inline condition) (.inline condition)
  | field {head head' : FieldHead} (hname : head'.name = head.name) :
      Alike (.field head) (.field head')

abbrev AlikeAncestors : List Ancestor → List Ancestor → Prop := List.Forall₂ Ancestor.Alike

theorem Ancestor.Alike.refl : ∀ a : Ancestor, a.Alike a
  | .operation kind => .operation kind
  | .fragment condition => .fragment condition
  | .inline condition => .inline condition
  | .field _ => .field rfl

theorem alikeAncestors_refl (ancestors : List Ancestor) : AlikeAncestors ancestors ancestors :=
  List.forall₂_same.mpr fun a _ => .refl a

theorem Schema.typeBelow_congr (s : Schema) {ancestors others : List Ancestor}
    (h : AlikeAncestors ancestors others) (current : Option NamedType) :
    s.typeBelow current others = s.typeBelow current ancestors := by
  induction h generalizing current with
  | nil => rfl
  | cons ha _ ih =>
    cases ha with
    | operation kind => exact ih (s.root? kind)
    | fragment condition => exact ih (s.type? condition)
    | inline condition =>
      cases condition with
      | none => exact ih current
      | some condition => exact ih (s.type? condition)
    | field hname =>
      rw [typeBelow, typeBelow, hname]
      split
      · exact ih _
      · rfl

namespace AlikeAncestors

variable {ancestors others : List Ancestor}

/-- **They lead to the same type.** -/
theorem typeAt (h : AlikeAncestors ancestors others) (s : Schema) :
    s.typeAt others = s.typeAt ancestors := s.typeBelow_congr h none

theorem under (h : AlikeAncestors ancestors others) {a b : Ancestor} (hab : a.Alike b) :
    AlikeAncestors (ancestors ++ [a]) (others ++ [b]) :=
  List.rel_append h (.cons hab .nil)

end AlikeAncestors

end QueryCompiler
