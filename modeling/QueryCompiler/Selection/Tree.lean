import QueryCompiler.Table
/-
# Trees of entries

A selection is a table from keys to entries, which nest.  A key may be selected several times;
its occurrences are merged into one entry at the place of the first (`Entry.merge`,
`Entry.mergeInto`).

What an entry says about its own field is its head.  Keys and heads are parameters, because the
same trees describe a compiled selection and the records that one is read back from.
-/
namespace QueryCompiler

/-- Heads of which two, found under one key, make one. -/
class MergeHead (α : Type) where
  mergeHead : α → α → α

/-- An entry of a selection, with the entries below it if its field has selections. -/
inductive Entry (κ α : Type) where
  | node (head : α) (fields : Option (List (κ × Entry κ α)))
  deriving Repr

/-- Entries by the keys of the response. -/
abbrev EntryTree (κ α : Type) := Table κ (Entry κ α)

namespace Entry

variable {κ α : Type}

def head : Entry κ α → α
  | .node head _ => head

def fields : Entry κ α → Option (EntryTree κ α)
  | .node _ fields => fields

/-! ## 1. Merging -/

section Merging

variable [BEq κ] [MergeHead α]

mutual

/-- The entry for two occurrences of one key. -/
def merge (a : Entry κ α) : Entry κ α → Entry κ α
  | .node head fields => .node (MergeHead.mergeHead a.head head) (mergeFields a.fields fields)

/-- What is below the two occurrences.  Without selections in the second, that is what is below
the first. -/
def mergeFields (target : Option (List (κ × Entry κ α))) :
    Option (List (κ × Entry κ α)) → Option (List (κ × Entry κ α))
  | none => target
  | some source => some (mergeInto (target.getD []) source)

/-- A selection with the entries of another one merged into it, one by one. -/
def mergeInto (target : List (κ × Entry κ α)) : List (κ × Entry κ α) → List (κ × Entry κ α)
  | [] => target
  | (key, entry) :: source =>
    mergeInto (Table.upsert target key (fun first => first.merge entry) entry) source

end

end Merging

/-! ## 2. Changing keys and heads -/

section Mapping

variable {κ' α' : Type} (key : κ → κ') (head : α → α')

mutual

/-- The entry with all keys and heads changed. -/
def map : Entry κ α → Entry κ' α'
  | .node h fields => .node (head h) (mapFields fields)

def mapFields : Option (List (κ × Entry κ α)) → Option (List (κ' × Entry κ' α'))
  | none => none
  | some tree => some (mapTree tree)

def mapTree : List (κ × Entry κ α) → List (κ' × Entry κ' α')
  | [] => []
  | (k, entry) :: tree => (key k, entry.map) :: mapTree tree

end

end Mapping

end Entry

end QueryCompiler
