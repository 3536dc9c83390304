import QueryCompiler.Calendar.DateTime
import QueryCompiler.Uuid
import QueryCompiler.Table
/-
# Data

What flows through a request at run time: the values of variables and of responses, before and
after the conversion of scalars.  Objects are tables in the order of insertion; their keys may
be any datum that is no list and no object.
-/
namespace QueryCompiler

inductive Datum where
  | null
  /-- The value of a variable that nothing defines. -/
  | undefined
  | bool (value : Bool)
  | int (value : Int)
  | float (value : Binary64)
  | text (value : String)
  | moment (value : DateTime)
  | date (value : Date)
  | uuid (value : Uuid)
  | list (items : List Datum)
  | object (rows : List (Datum × Datum))
  deriving Repr, Inhabited

namespace Datum

/-- Whether a datum can be a key: lists and objects cannot. -/
def isKey : Datum → Bool
  | .list _ => false
  | .object _ => false
  | _ => true

/-- The number a datum counts as; true and false count as one and zero. -/
def number? : Datum → Option (Int ⊕ Binary64)
  | .bool value => some (.inl (if value then 1 else 0))
  | .int value => some (.inl value)
  | .float value => some (.inr value)
  | _ => none

/-- Whether two data are one key.  Numbers are compared by value, across their kinds. -/
def sameKey (a b : Datum) : Bool :=
  match a.number?, b.number? with
  | some (.inl m), some (.inl n) => m == n
  | some (.inl m), some (.inr x) => x.isInt m
  | some (.inr x), some (.inl n) => x.isInt n
  | some (.inr x), some (.inr y) => x.sameNumber y
  | _, _ =>
    match a, b with
    | .null, .null => true
    | .undefined, .undefined => true
    | .text s, .text t => s == t
    | .moment s, .moment t => s.sameMoment t
    | .date s, .date t => s == t
    | .uuid s, .uuid t => s == t
    | _, _ => false

instance : BEq Datum := ⟨sameKey⟩

/-- Whether a datum counts as true: nothing, zero and everything empty does not. -/
def isTrue : Datum → Bool
  | .null => false
  | .undefined => false
  | .bool value => value
  | .int value => value != 0
  | .float value => !value.isZero
  | .text value => !value.isEmpty
  | .moment _ => true
  | .date _ => true
  | .uuid _ => true
  | .list items => !items.isEmpty
  | .object rows => !rows.isEmpty

/-- An object with texts for keys. -/
def record (rows : List (String × Datum)) : Datum := .object (rows.map fun (k, v) => (.text k, v))

/-- The row of a record for a part that may be missing. -/
def optionalRow {α : Type} (name : String) (write : α → Datum) : Option α → List (String × Datum)
  | none => []
  | some a => [(name, write a)]

/-- The value an object has under a text. -/
def field? (rows : List (Datum × Datum)) (name : String) : Option Datum :=
  Table.get? rows (.text name)

/-- The first of two data that counts as false, or the second. -/
def both (a b : Datum) : Datum := if a.isTrue then b else a

/-- The first of two data that counts as true, or the second. -/
def either (a b : Datum) : Datum := if a.isTrue then a else b

/-- A datum that is there: null stands for nothing. -/
def given : Datum → Option Datum
  | .null => none
  | d => some d

end Datum

end QueryCompiler
