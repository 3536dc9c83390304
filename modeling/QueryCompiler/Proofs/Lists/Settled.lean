import QueryCompiler.Lists.Documents
import QueryCompiler.Proofs.Lists.Marks
/-
# What the list pass leaves

What the list pass leaves of selections that it goes through without a fault is a function of these
selections alone (`settledAll`): directives that make connections gain their mark, fields that are
connections gain the page information, and nothing else changes.
-/
namespace QueryCompiler

/-! ## 1. Marks of the pass -/

namespace Directive

/-- A directive with the mark of the pass, if it gets one. -/
def mark (marked : Bool) (d : Directive) : Directive :=
  if marked then { d with arguments := d.arguments ++ [Tagging.connectionMark] } else d

/-- What a directive has of its own: all but the mark, if it has got one. -/
def unmark (marked : Bool) (d : Directive) : Directive :=
  if marked then { d with arguments := d.arguments.dropLast } else d

theorem unmark_mark (marked : Bool) (d : Directive) : (d.mark marked).unmark marked = d := by
  cases marked with
  | false => rfl
  | true => exact congrArg (fun arguments => { d with arguments }) List.dropLast_concat

@[simp]
theorem name_mark (marked : Bool) (d : Directive) : (d.mark marked).name = d.name := by
  cases marked <;> rfl

/-- The mark does not hide the name of the list. -/
theorem argument?_mark (marked : Bool) (d : Directive) :
    argument? (d.mark marked).arguments "name" = argument? d.arguments "name" := by
  cases marked with
  | false => rfl
  | true =>
    change argument? (d.arguments ++ _) _ = _
    rw [argument?, argument?, List.find?_append]
    cases List.find? (fun a : Argument => decide (a.name = "name")) d.arguments <;> rfl

end Directive

/-! ## 2. What is left of a definition -/

namespace Tagging

/-- Whether a field with these selections is a connection. -/
def connected (c : Config) (ancestors : List Ancestor) (name : String)
    (selections : List Selection) : Bool :=
  match membersAt c.schema ancestors name selections with
  | .ok (some (_, m)) => m.connection
  | _ => false

/-- What a field gains. -/
def gains (c : Config) (ancestors : List Ancestor) (head : FieldHead)
    (selections : List Selection) : List Selection :=
  if hasDirective head.directives c.listDirective && connected c ancestors head.name selections then
    pageInfo
  else []

/-- The directive of a field, with the mark if it makes a connection. -/
def settledDirective (c : Config) (ancestors : List Ancestor) (target : Target) (d : Directive) :
    Directive :=
  d.mark ((c.listName? d).isSome && connected c ancestors target.1.name target.2)

/-- The field with its directives as the pass leaves them. -/
def settledHead (c : Config) (ancestors : List Ancestor) (head : FieldHead)
    (selections : List Selection) : FieldHead :=
  { head with directives := head.directives.map (settledDirective c ancestors (head, selections)) }

mutual

/-- What the pass leaves of a selection. -/
def settled (c : Config) (ancestors : List Ancestor) : Selection → Selection
  | .field head selections =>
    let extra := gains c ancestors head selections
    .field (settledHead c ancestors head (selections ++ extra))
      (settledAll c (ancestors ++ [.field head]) selections ++ extra)
  | .spread name directives => .spread name directives
  | .inline condition directives selections =>
    .inline condition directives (settledAll c (ancestors ++ [.inline condition]) selections)

def settledAll (c : Config) (ancestors : List Ancestor) : List Selection → List Selection
  | [] => []
  | s :: selections => settled c ancestors s :: settledAll c ancestors selections

end

end Tagging

/-- What the pass leaves of a definition. -/
def Executable.settled (c : Config) (e : Executable) : Executable :=
  e.withSelections (Tagging.settledAll c [e.ancestor] e.selections)

/-! ## 3. What settled fields have -/

namespace Tagging

variable {c : Config} {P P' Q : FieldProperty}

/-- A property `Q` of what the pass leaves of a field with the properties `P` and `P'`. -/
def SettlesTo (c : Config) (P P' Q : FieldProperty) : Prop :=
  ∀ ancestors others head ss, SameAncestors ancestors others → P ancestors head ss →
    P' ancestors head ss →
      Q others (settledHead c ancestors head (ss ++ gains c ancestors head ss))
        (settledAll c (ancestors ++ [.field head]) ss ++ gains c ancestors head ss)

/-- A property `Q` of all fields that a field with the property `P` gains. -/
def GainsTo (c : Config) (P Q : FieldProperty) : Prop :=
  ∀ ancestors others head ss, SameAncestors (ancestors ++ [.field head]) others →
    P ancestors head ss → EveryIn Q others (gains c ancestors head ss)

/-- Fields gain nothing but plain fields. -/
theorem GainsTo.of_plain (hplain : ∀ ancestors name ss, Q ancestors (.plain name) ss) :
    GainsTo c P Q := by
  intro ancestors others head ss _ _
  rw [gains]
  split
  · exact everyIn_pageInfo hplain others
  · exact everyIn_nil others

mutual

theorem every_settled (hgains : GainsTo c P Q) (hfield : SettlesTo c P P' Q) :
    ∀ {s : Selection} {ancestors others : List Ancestor}, SameAncestors ancestors others →
      s.Every P ancestors → s.Every P' ancestors → (settled c ancestors s).Every Q others
  | .field head ss, ancestors, others, hsame, h, h' => by
    rw [Selection.Every] at h h'
    rw [settled, Selection.Every, everyIn_append]
    exact ⟨hfield _ _ _ _ hsame h.1 h'.1,
      everyIn_settledAll hgains hfield (hsame.under rfl) h.2 h'.2,
      hgains _ _ _ _ (hsame.under rfl) h.1⟩
  | .spread _ _, _, _, _, _, _ => by
    rw [settled, Selection.Every]
    trivial
  | .inline condition ds ss, ancestors, others, hsame, h, h' => by
    rw [Selection.Every] at h h'
    rw [settled, Selection.Every]
    exact everyIn_settledAll hgains hfield (hsame.under rfl) h h'

/-- What settled fields have is said field by field, and of what fields gain. -/
theorem everyIn_settledAll (hgains : GainsTo c P Q) (hfield : SettlesTo c P P' Q) :
    ∀ {ss : List Selection} {ancestors others : List Ancestor}, SameAncestors ancestors others →
      EveryIn P ancestors ss → EveryIn P' ancestors ss →
        EveryIn Q others (settledAll c ancestors ss)
  | [], _, others, _, _, _ => everyIn_nil others
  | s :: ss, _, _, hsame, h, h' => by
    rw [EveryIn] at h h'
    rw [settledAll, EveryIn]
    exact ⟨every_settled hgains hfield hsame h.1 h'.1,
      everyIn_settledAll hgains hfield hsame h.2 h'.2⟩

end

end Tagging

end QueryCompiler
