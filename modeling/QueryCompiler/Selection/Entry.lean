import QueryCompiler.Selection.Operation
import QueryCompiler.Selection.Tree
/-
# Compiled selections

A compiled selection has an entry for every key of the response.  Its head has the type of the
field, the key under which the field is cached, and what the field is as a list.
-/
namespace QueryCompiler

/-- What an entry says about its own field. -/
structure EntryHead where
  /-- The name of the field's type. -/
  type : Option String
  cacheKey : String
  /-- True when the field is only reached through a fragment. -/
  masked : Bool
  /-- Whether the type may stand for several object types. -/
  abstract : Bool
  operations : List ListOperation
  /-- The name of the list that the field is. -/
  list : Option String
  /-- Whether the list is a connection. -/
  connection : Bool
  /-- The arguments of a list field, described. -/
  filters : Option (Table String ValueDescriptor)
  deriving Repr

namespace EntryHead

/-- The head of a field with nothing but a type and a cache key. -/
def plain (type cacheKey : String) (masked : Bool) : EntryHead :=
  { type := some type, cacheKey, masked, abstract := false, operations := [], list := none,
    connection := false, filters := none }

/-- The first of two texts that is there and not empty, or the second. -/
def firstText (a b : Option String) : Option String :=
  match a with
  | some text => if text.isEmpty then b else some text
  | none => b

/-- Two occurrences of one key.  The cache key is that of the first; a field is masked only if
all its occurrences are. -/
def merge (a b : EntryHead) : EntryHead where
  type := firstText a.type b.type
  cacheKey := a.cacheKey
  masked := a.masked && b.masked
  abstract := a.abstract || b.abstract
  operations := a.operations ++ b.operations
  list := firstText a.list b.list
  connection := a.connection || b.connection
  filters := a.filters.or b.filters

instance : MergeHead EntryHead := ⟨merge⟩

end EntryHead

/-- A compiled selection. -/
abbrev SelectionTree := EntryTree String EntryHead

end QueryCompiler
