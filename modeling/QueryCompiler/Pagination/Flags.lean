import QueryCompiler.Language.Build
/-
# Pagination arguments

Six arguments page through a list: `first` and `after` forward by cursor, `last` and `before`
backward by cursor, `limit` and `offset` by position.  A table of flags says which of them are
in use and what their default values are.

* `Strategy.choose` picks at most one way to page, from the arguments that a field declares and
  those that a call passes;
* `replaceArguments` turns the arguments in use into variables and keeps the values that were
  written as defaults.
-/
namespace QueryCompiler

inductive PageArgument where
  | first
  | after
  | last
  | before
  | limit
  | offset
  deriving DecidableEq, Repr

namespace PageArgument

/-- All arguments, in the order in which they are declared and added. -/
def all : List PageArgument := [.first, .after, .last, .before, .limit, .offset]

def name : PageArgument → String
  | .first => "first"
  | .after => "after"
  | .last => "last"
  | .before => "before"
  | .limit => "limit"
  | .offset => "offset"

/-- The argument of a name. -/
def ofName? (name : String) : Option PageArgument := all.find? (·.name = name)

/-- Cursors are texts, everything else is a count. -/
def isCount : PageArgument → Bool
  | .after => false
  | .before => false
  | _ => true

def typeName (a : PageArgument) : String := if a.isCount then "Int" else "String"

theorem mem_all (a : PageArgument) : a ∈ all := by cases a <;> decide

theorem ofName?_name (a : PageArgument) : ofName? a.name = some a := by cases a <;> decide

theorem name_injective {a b : PageArgument} (h : a.name = b.name) : a = b :=
  Option.some.inj (by rw [← ofName?_name a, h, ofName?_name])

end PageArgument

/-- Whether an argument is in use, and its default value. -/
structure Flag where
  enabled : Bool
  defaultValue : Datum
  deriving Repr

/-- The flags of all arguments. -/
abbrev Flags := PageArgument → Flag

namespace Flags

/-- No argument in use, no defaults. -/
def disabled : Flags := fun _ => { enabled := false, defaultValue := .null }

/-- The arguments in use, in their order. -/
def enabled (flags : Flags) : List PageArgument :=
  PageArgument.all.filter fun a => (flags a).enabled

/-- The flags with the default of one argument set. -/
def remember (flags : Flags) (a : PageArgument) (d : Datum) : Flags :=
  fun b => if b = a then { flags b with defaultValue := d } else flags b

end Flags

/-! ## 1. Ways to page -/

inductive Strategy where
  | forward
  | backward
  | byOffset
  deriving DecidableEq, Repr

namespace Strategy

/-- The arguments of a way to page. -/
def uses : Strategy → PageArgument → Bool
  | .forward, a => a = .first || a = .after
  | .backward, a => a = .last || a = .before
  | .byOffset, a => a = .limit || a = .offset

/-- All arguments of a way to page are among the declared ones. -/
def isDeclared (s : Strategy) (declared : List String) : Bool :=
  PageArgument.all.all fun a => !s.uses a || a.name ∈ declared

/-- At most one way to page.  Forward wins when the call does not say; by position only when no
cursor applies. -/
def choose (declared passed : List String) : Option Strategy :=
  if "last" ∉ passed ∧ isDeclared .forward declared then some .forward
  else if "first" ∉ passed ∧ isDeclared .backward declared then some .backward
  else if isDeclared .byOffset declared then some .byOffset
  else none

end Strategy

/-- The flags with exactly the arguments of a way to page in use.  Defaults stay. -/
def Flags.use (flags : Flags) (strategy : Option Strategy) : Flags :=
  fun a => { flags a with enabled := strategy.any (·.uses a) }

/-! ## 2. Arguments of a call -/

/-- A datum as a count: the number a text writes; true is one and false is zero. -/
def toCount : Datum → Except Error Datum
  | .text text => intDatum text
  | .bool value => .ok (.int (if value then 1 else 0))
  | d => .ok d

/-- The default that a value passed for an argument becomes. -/
def passedDefault (a : PageArgument) (v : Value) : Except Error Datum :=
  match v.single? with
  | none => .error .noSingleValue
  | some d => if a.isCount then toCount d else .ok d

/-- The argument in use that a name means. -/
def Flags.inUse? (flags : Flags) (name : String) : Option PageArgument :=
  (PageArgument.ofName? name).filter fun a => (flags a).enabled

/-- The arguments of a call with those in use turned into variables; the flags with the values
that were written; and which arguments were there. -/
def replacePassed (flags : Flags) :
    List Argument → Except Error (List Argument × Flags × List PageArgument)
  | [] => .ok ([], flags, [])
  | argument :: rest =>
    match flags.inUse? argument.name with
    | none => do
      let (arguments, flags, seen) ← replacePassed flags rest
      return (argument :: arguments, flags, seen)
    | some a => do
      let flags ← match argument.value with
        | .variable _ => pure flags
        | value => pure (flags.remember a (← passedDefault a value))
      let (arguments, flags, seen) ← replacePassed flags rest
      return (variableArgument a.name :: arguments, flags, a :: seen)

/-- Arguments of one direction never go on a field that pages in the other. -/
def Flags.excludes (flags : Flags) (a : PageArgument) : Bool :=
  (Strategy.uses .forward a && (flags .before).enabled)
    || (Strategy.uses .backward a && (flags .first).enabled)

/-- The arguments in use that a call lacks.  One whose default is known is not added. -/
def Flags.lacking (flags : Flags) (seen : List PageArgument) : List PageArgument :=
  PageArgument.all.filter fun a =>
    (flags a).enabled && !(flags a).defaultValue.isTrue && a ∉ seen && !flags.excludes a

/-- The arguments of a call with all those in use as variables. -/
def replaceArguments (flags : Flags) (arguments : List Argument) :
    Except Error (List Argument × Flags) := do
  let (arguments, flags, seen) ← replacePassed flags arguments
  return (arguments ++ (flags.lacking seen).map fun a => variableArgument a.name, flags)

end QueryCompiler
