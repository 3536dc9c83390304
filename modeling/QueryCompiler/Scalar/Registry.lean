import QueryCompiler.Datum.Display
import QueryCompiler.Calendar.Iso
import QueryCompiler.Error
/-
# Scalars

A scalar is converted by the handler registered under its name: from what a program works with
to what is sent (`marshal`), and back (`unmarshal`).  Either function may be missing.
-/
namespace QueryCompiler

/-- The conversion of one datum. -/
abbrev Convert := Datum → Except Error Datum

structure Handler where
  marshal : Option Convert
  unmarshal : Option Convert

namespace Handler

def both (marshal unmarshal : Convert) : Handler := ⟨some marshal, some unmarshal⟩

def convert? (h : Handler) : Direction → Option Convert
  | .marshal => h.marshal
  | .unmarshal => h.unmarshal

end Handler

/-- The handlers by the names of their scalars. -/
abbrev ScalarRegistry := Table String Handler

/-! ## 1. Moments, dates and identifiers -/

/-- Writes a moment with `T` between its date and its time. -/
def marshalMoment : Convert
  | .moment t => .ok (.text (String.ofList (t.write 'T')))
  | _ => .error .wrongOperand

/-- The error of reading something else than a text.  Dates and moments know the operation that
texts are read with, with other operands. -/
def unreadText : Datum → Error
  | .moment _ => .wrongOperand
  | .date _ => .wrongOperand
  | _ => .notText

def unmarshalMoment : Convert
  | .text text =>
    match DateTime.read? text with
    | some t => .ok (.moment t)
    | none => .error .badText
  | d => .error (unreadText d)

/-- Writes a date; of a moment only its date. -/
def marshalDate : Convert
  | .date d => .ok (.text (String.ofList d.write))
  | .moment t => .ok (.text (String.ofList t.date.write))
  | _ => .error .wrongOperand

def unmarshalDate : Convert
  | .text text =>
    match Date.read? text with
    | some d => .ok (.date d)
    | none => .error .badText
  | _ => .error .wrongOperand

/-- Writes an identifier; anything else becomes its text. -/
def marshalUuid : Convert := fun d => .ok (.text d.display)

def unmarshalUuid : Convert
  | .text text =>
    match Uuid.read? text with
    | some u => .ok (.uuid u)
    | none => .error .badText
  | d => .error (unreadText d)

/-! ## 2. The handlers every registry starts with -/

def momentHandler : Handler := .both marshalMoment unmarshalMoment

def dateHandler : Handler := .both marshalDate unmarshalDate

def uuidHandler : Handler := .both marshalUuid unmarshalUuid

/-- The handler of data that are sent as they are. -/
def plainHandler : Handler := .both .ok .ok

namespace ScalarRegistry

def default : ScalarRegistry :=
  [("DateTime", momentHandler), ("Date", dateHandler), ("UUID", uuidHandler),
   ("JSON", plainHandler), ("JSONObject", plainHandler)]

/-- The conversion of one datum by a handler. -/
def converter (scalar : String) (h : Handler) (direction : Direction) : Except Error Convert :=
  match h.convert? direction with
  | some convert => .ok convert
  | none => .error (.missingConverter scalar direction)

/-- Converts an item of a list; null stays null. -/
def convertItem (convert : Convert) : Convert
  | .null => .ok .null
  | d => convert d

/-- Converts the value of a scalar by its handler: a list item by item, null not at all. -/
def convertWith (scalar : String) (h : Handler) (direction : Direction) : Convert
  | .null => .ok .null
  | .list items => do
    let f ← converter scalar h direction
    return .list (← items.mapM (convertItem f))
  | d => do (← converter scalar h direction) d

/-- The scalar that a datum names, with its handler, if one is registered.  Lists and objects
cannot be looked up. -/
def handler? (r : ScalarRegistry) : Datum → Except Error (Option (String × Handler))
  | .text scalar => .ok ((Table.get? r scalar).map (scalar, ·))
  | d => if d.isKey then .ok none else .error .notAKey

/-- Converts the value of a type, which stays as it is where no handler is registered. -/
def convert (r : ScalarRegistry) (type : Datum) (direction : Direction) (d : Datum) :
    Except Error Datum := do
  match ← r.handler? type with
  | some (scalar, h) => convertWith scalar h direction d
  | none => return d

end ScalarRegistry

end QueryCompiler
