import QueryCompiler.Scalar.Walk
import QueryCompiler.Proofs.Outcome
import QueryCompiler.Proofs.Scalar.RoundTrip
/-
# Persisted selections are read back

The record of a selection leaves out what has its default, and what only means something beside
something else: an entry without a type has no row for it, a field that is no list none for its
filters.  Reading a record fills the defaults in.  So what is read is not what was written, but it
says the same wherever anyone looks:

* `StoredHead.reread`: what comes back of an entry, in full;
* `Persisted.entry_record`: reading the record of an entry gives that, and the selection below it;
* `ScalarRegistry.walk_congr`: a walk through data looks at the types in a selection only;
* `SelectionTree.persists`: written again, what was read gives the same record without the
  operations, and it converts data like the selection that was written.
-/
namespace QueryCompiler

/-! ## 1. Records without operations -/

namespace Persisted

mutual

/-- The record of an entry without its operations, and without those of the entries below it.  Only
the row of the entry itself goes: a field or an argument may have that name too. -/
def stillEntry : Datum → Datum
  | .object rows => .object (stillParts rows)
  | d => d

def stillParts : List (Datum × Datum) → List (Datum × Datum)
  | [] => []
  | (key, value) :: rows =>
    if key == .text "operations" then stillParts rows
    else if key == .text "fields" then (key, still value) :: stillParts rows
    else (key, value) :: stillParts rows

/-- The record of a selection without the operations of its entries, at every depth. -/
def still : Datum → Datum
  | .object rows => .object (stillEntries rows)
  | d => d

def stillEntries : List (Datum × Datum) → List (Datum × Datum)
  | [] => []
  | (key, entry) :: rows => (key, stillEntry entry) :: stillEntries rows

end

/-! ### Reading does not look at operations -/

theorem eq_text_of_beq {d : Datum} {name : String} (h : (d == .text name) = true) :
    d = .text name := by
  cases d with
  | text text => exact congrArg Datum.text (eq_of_beq (h : (text == name) = true))
  | _ => simp [BEq.beq, Datum.sameKey, Datum.number?] at h

theorem field?_stillParts {name : String} (hoperations : name ≠ "operations")
    (hfields : name ≠ "fields") : ∀ rows : List (Datum × Datum),
      Datum.field? (stillParts rows) name = Datum.field? rows name
  | [] => rfl
  | (key, value) :: rows => by
    have ih := field?_stillParts hoperations hfields rows
    have hother {other : String} (hne : name ≠ other) (h : (key == .text other) = true) :
        (key == .text name) = false := by
      rw [eq_text_of_beq h]
      exact (beq_eq_false_iff_ne.mpr fun he => hne he.symm : (other == name) = false)
    rw [Datum.field?, Datum.field?] at ih ⊢
    rw [stillParts, Table.get?]
    split
    · rename_i h
      rw [hother hoperations h, ih]
      rfl
    · split
      · rename_i h
        rw [Table.get?, hother hfields h, ih]
        rfl
      · rw [Table.get?, ih]

theorem head_stillParts (rows : List (Datum × Datum)) : head (stillParts rows) = head rows := by
  simp [head, field?_stillParts]

mutual

theorem entry_still : ∀ d : Datum, entry (stillEntry d) = entry d
  | .object rows => by
    rw [stillEntry, entry, entry, head_stillParts, fieldsRow_still rows]
  | .null | .undefined | .bool _ | .int _ | .float _ | .text _ | .moment _ | .date _ | .uuid _
  | .list _ => rfl

theorem fieldsRow_still : ∀ rows : List (Datum × Datum),
    fieldsRow (stillParts rows) = fieldsRow rows
  | [] => rfl
  | (key, value) :: rows => by
    rw [stillParts, fieldsRow]
    split
    · rename_i h
      rw [eq_text_of_beq h, fieldsRow_still rows]
      rfl
    · split
      · rename_i h
        rw [fieldsRow, if_pos h, below_still value]
      · rename_i h
        rw [fieldsRow, if_neg h, fieldsRow_still rows]

theorem below_still : ∀ d : Datum, below (still d) = below d
  | .object rows => by rw [still, below, below, entries_still rows]
  | .null | .undefined | .bool _ | .int _ | .float _ | .text _ | .moment _ | .date _ | .uuid _
  | .list _ => rfl

theorem entries_still : ∀ rows : List (Datum × Datum), entries (stillEntries rows) = entries rows
  | [] => rfl
  | (key, value) :: rows => by
    rw [stillEntries, entries, entries, entry_still value, entries_still rows]

end

end Persisted

/-- **Reading a record does not look at operations.** -/
theorem StoredTree.ofDatum?_still (d : Datum) : ofDatum? (Persisted.still d) = ofDatum? d := by
  cases d with
  | object rows => exact Persisted.entries_still rows
  | _ => rfl

namespace Persisted

theorem stillParts_append : ∀ rows others : List (Datum × Datum),
    stillParts (rows ++ others) = stillParts rows ++ stillParts others
  | [], _ => rfl
  | (key, value) :: rows, others => by
    rw [List.cons_append, stillParts, stillParts, stillParts_append rows others]
    split
    · rfl
    · split <;> rfl

/-- Rows with other names stay as they are. -/
theorem stillParts_record : ∀ {rows : Table String Datum},
    (∀ row ∈ rows, row.1 ≠ "operations" ∧ row.1 ≠ "fields") →
      stillParts (rows.map fun (k, v) => (.text k, v)) = rows.map fun (k, v) => (.text k, v)
  | [], _ => rfl
  | (k, v) :: rows, h => by
    obtain ⟨⟨hoperations, hfields⟩, hrows⟩ := List.forall_mem_cons.mp h
    have hkey (name : String) : ((.text k : Datum) == .text name) = (k == name) := rfl
    rw [List.map_cons, stillParts, hkey, hkey, if_neg (by simpa using hoperations),
      if_neg (by simpa using hfields), stillParts_record hrows]

end Persisted

/-! ## 2. The record of one entry -/

/-- The rows of a record are found by their names. -/
theorem Datum.field?_record (name : String) : ∀ rows : Table String Datum,
    Datum.field? (rows.map fun (k, v) => (.text k, v)) name = Table.get? rows name
  | [] => rfl
  | (k, v) :: rows => by
    rw [List.map_cons, Datum.field?, Table.get?, Table.get?]
    exact if_congr Iff.rfl rfl (field?_record name rows)

theorem Datum.getD_given (d : Datum) : d.given.getD .null = d := by
  cases d <;> rfl

theorem Datum.isTrue_bool (b : Bool) : (Datum.bool b).isTrue = b := rfl

theorem Datum.stillParts_optionalRow {α : Type} (name : String)
    (hname : name ≠ "operations" ∧ name ≠ "fields") (write : α → Datum) (a : Option α) :
    Persisted.stillParts ((optionalRow name write a).map fun (k, v) => (.text k, v))
      = (optionalRow name write a).map fun (k, v) => (.text k, v) := by
  refine Persisted.stillParts_record fun row hrow => ?_
  cases a with
  | none => exact absurd hrow List.not_mem_nil
  | some a => exact List.mem_singleton.mp hrow ▸ hname

theorem Datum.get?_optionalRow {α : Type} (name k : String) (write : α → Datum) (a : Option α) :
    Table.get? (Datum.optionalRow name write a) k = if name = k then a.map write else none := by
  cases a with
  | none => rw [optionalRow, Table.get?_nil, Option.map_none, ite_self]
  | some a => rw [optionalRow, Table.get?_cons, Table.get?_nil, Option.map_some]

namespace StoredHead

theorem markRow_bool (name : String) (b : Bool) :
    markRow name (.bool b) = if b then [(name, .bool true)] else [] := rfl

theorem get?_markRow (name k : String) (d : Datum) :
    Table.get? (markRow name d) k = if name = k ∧ d.isTrue then some (.bool true) else none := by
  unfold markRow
  split <;> simp [Table.get?_cons, *]

/-- A mark that is missing is false. -/
theorem getD_mark (b : Bool) :
    (if b then some (Datum.bool true) else none).getD (.bool false) = .bool b := by
  cases b <;> rfl

theorem stillParts_markRow (name : String) (hname : name ≠ "operations" ∧ name ≠ "fields")
    (d : Datum) : Persisted.stillParts ((markRow name d).map fun (k, v) => (.text k, v))
      = (markRow name d).map fun (k, v) => (.text k, v) := by
  refine Persisted.stillParts_record fun row hrow => ?_
  rw [markRow] at hrow
  split at hrow
  · exact List.mem_singleton.mp hrow ▸ hname
  · exact absurd hrow List.not_mem_nil

/-- What is read of an entry from its record with these filters. -/
def reread (h : StoredHead) (filters : Datum) : StoredHead :=
  { h with
    abstract := .bool h.abstract.isTrue
    connection := .bool (h.list.given.isSome && h.connection.isTrue)
    filters := (h.list.given.map fun _ => filters).getD .null }

variable (h : StoredHead) (below : Option (List (Datum × Datum))) (operations : List ListOperation)
  (filters : Datum)

/-- The rows of the record of an entry, each of them there or not on its own account. -/
def rows : Table String Datum :=
  Datum.optionalRow "type" id h.type.given
    ++ [("keyRaw", h.cacheKey), ("masked", h.masked)]
    ++ Datum.optionalRow "fields" .object below
    ++ markRow "abstract" h.abstract
    ++ Datum.optionalRow "operations" (fun os => .list (os.map ListOperation.toDatum))
        (if operations.isEmpty then none else some operations)
    ++ Datum.optionalRow "list" id h.list.given
    ++ markRow "connection" (h.reread filters).connection
    ++ Datum.optionalRow "filters" (fun _ => filters) h.list.given

theorem record_eq : h.record (Datum.optionalRow "fields" .object below) operations filters
    = .record (h.rows below operations filters) := by
  unfold record rows reread
  rw [markRow_bool]
  cases h.list.given <;> cases operations <;> simp [Datum.optionalRow, markRow]

/-- **What a record says of its own entry.** -/
theorem head_rows :
    Persisted.head ((h.rows below operations filters).map fun (k, v) => (.text k, v))
      = h.reread filters := by
  simp only [Persisted.head, Datum.field?_record, rows, Table.get?_append, Datum.get?_optionalRow,
    get?_markRow, Table.get?_cons]
  have hconnection := getD_mark (h.list.given.isSome && h.connection.isTrue)
  simp only [Bool.and_eq_true] at hconnection
  simp [reread, Datum.isTrue_bool, Datum.getD_given, getD_mark, hconnection]

theorem reread_reread : (h.reread filters).reread filters = h.reread filters := by
  simp [reread, Datum.isTrue_bool]

/-- Written again, an entry that was read has the record that it was read from. -/
theorem rows_reread : (h.reread filters).rows below [] filters = h.rows below [] filters := by
  rw [rows, rows, reread_reread]
  rfl

/-- Without its operations, and without those below it, the record has the other rows. -/
theorem stillParts_rows :
    Persisted.stillParts ((h.rows below operations filters).map fun (k, v) => (.text k, v))
      = (h.rows (below.map Persisted.stillEntries) [] filters).map fun (k, v) => (.text k, v) := by
  have hown : Persisted.stillParts (([("keyRaw", h.cacheKey), ("masked", h.masked)] :
      Table String Datum).map fun (k, v) => (.text k, v)) = _ :=
    Persisted.stillParts_record (by simp)
  simp only [rows, List.map_append, Persisted.stillParts_append, hown]
  rw [Datum.stillParts_optionalRow "type" (by simp), stillParts_markRow "abstract" (by simp),
    Datum.stillParts_optionalRow "list" (by simp), stillParts_markRow "connection" (by simp),
    Datum.stillParts_optionalRow "filters" (by simp)]
  cases operations <;> cases below <;> rfl

end StoredHead

namespace Persisted

/-- The selection below an entry is under its name. -/
theorem fieldsRow_record : ∀ rows : Table String Datum,
    fieldsRow (rows.map fun (k, v) => (.text k, v))
      = match Table.get? rows "fields" with
        | none => .ok none
        | some d => below d
  | [] => rfl
  | (k, v) :: rows => by
    have hkey : ((.text k : Datum) == .text "fields") = (k == "fields") := rfl
    rw [List.map_cons, fieldsRow, Table.get?, hkey, fieldsRow_record rows]
    split <;> rfl

/-- **Reading the record of an entry** gives its head, and what is read of the record of the
selection below it. -/
theorem entry_record (h : StoredHead) {inner : Option (List (Datum × Datum))}
    {t : Option StoredTree} (ht : inner.map entries = t.map .ok) (operations : List ListOperation)
    (filters : Datum) :
    entry (h.record (Datum.optionalRow "fields" .object inner) operations filters)
      = .ok (.node (h.reread filters) t) := by
  have hfields : Table.get? (h.rows inner operations filters) "fields" = inner.map .object := by
    simp [StoredHead.rows, Table.get?_append, Datum.get?_optionalRow, StoredHead.get?_markRow,
      Table.get?_cons]
  rw [h.record_eq, Datum.record, entry, fieldsRow_record, hfields, h.head_rows]
  cases inner with
  | none =>
    cases t with
    | none => rfl
    | some t => cases ht
  | some rows =>
    cases t with
    | none => cases ht
    | some t =>
      have hentries : entries rows = .ok t := Option.some.inj ht
      simp only [Option.map_some, below, hentries]
      rfl

end Persisted

/-! ## 3. Selections that are written and read -/

/-- The types that a selection says its fields have. -/
def StoredTree.types (t : StoredTree) : EntryTree Datum Datum := Entry.mapTree id StoredHead.type t

namespace StoredHead

/-- The filters that the record of an entry has; only that of a list field has any. -/
def Writes (h : StoredHead) (filters : Datum) : Prop :=
  if h.list.given.isSome then h.filterDatum = .ok filters else filters = .null

/-- Filters that were written once are written as they are. -/
theorem filterDatum_filterDatum {h other : StoredHead} {filters : Datum}
    (hf : h.filterDatum = .ok filters) (hother : other.filters = filters) :
    other.filterDatum = .ok filters := by
  unfold filterDatum at hf
  split at hf
  · simp only [bind_eq_ok, pure_eq_ok] at hf
    obtain ⟨written, hwritten, rfl⟩ := hf
    have hall : ∀ row ∈ written, ∃ rows, row.2 = .object rows := by
      intro row hrow
      obtain ⟨⟨name, d⟩, -, hrow⟩ := exists_of_forall₂ (mapM_eq_ok.mp hwritten) hrow
      simp only [bind_eq_ok, pure_eq_ok] at hrow
      obtain ⟨rows, -, rfl⟩ := hrow
      exact ⟨rows, rfl⟩
    rw [filterDatum, hother]
    simp only [bind_eq_ok, pure_eq_ok, mapM_eq_ok]
    refine ⟨written, List.forall₂_same.mpr fun row hrow => ?_, rfl⟩
    obtain ⟨name, d⟩ := row
    obtain ⟨rows, hd⟩ := hall _ hrow
    obtain rfl : d = .object rows := hd
    exact ⟨rows, rfl, rfl⟩
  · split at hf
    · cases hf
    · obtain rfl := Except.ok.inj hf
      rw [filterDatum, hother]
      rfl

theorem Writes.reread {h : StoredHead} {filters : Datum} (hf : h.Writes filters) :
    (h.reread filters).Writes filters := by
  unfold Writes at hf ⊢
  split at hf
  · rename_i hl
    have hlist : h.list.given.isSome = true := hl
    rw [if_pos (show (h.reread filters).list.given.isSome = true from hl)]
    refine filterDatum_filterDatum hf ?_
    obtain ⟨list, hlist⟩ := Option.isSome_iff_exists.mp hl
    rw [StoredHead.reread, hlist]
    rfl
  · rename_i hl
    rw [if_neg (show ¬ (h.reread filters).list.given.isSome = true from hl)]
    exact hf

end StoredHead

namespace Entry

/-- What it takes to write an entry. -/
theorem storedDatum_eq_ok {head : StoredHead} {fields : Option StoredTree} {d : Datum} :
    (node head fields).storedDatum = .ok d ↔ ∃ below filters, storedFieldsRow fields = .ok below ∧
      head.Writes filters ∧ head.record below [] filters = d := by
  by_cases hl : head.list.given.isSome = true
  · simp only [storedDatum, StoredHead.Writes, bind_eq_ok, if_pos hl, pure_eq_ok]
    constructor
    · rintro ⟨below, hbelow, filters, hfilters, rfl⟩
      exact ⟨below, filters, hbelow, hfilters, rfl⟩
    · rintro ⟨below, filters, hbelow, hfilters, rfl⟩
      exact ⟨below, hbelow, filters, hfilters, rfl⟩
  · simp only [storedDatum, StoredHead.Writes, bind_eq_ok, if_neg hl, pure_eq_ok]
    constructor
    · rintro ⟨below, hbelow, filters, hfilters, rfl⟩
      exact ⟨below, filters, hbelow, (Except.ok.inj hfilters).symm, rfl⟩
    · rintro ⟨below, filters, hbelow, rfl, rfl⟩
      exact ⟨below, hbelow, _, rfl, rfl⟩

mutual

/-- **An entry is read back from its record.**  What is read has the same record, and the same
types. -/
theorem storedDatum_read : ∀ {e : Entry Datum StoredHead} {d : Datum}, e.storedDatum = .ok d →
    ∃ e', Persisted.entry d = .ok e' ∧ e'.storedDatum = .ok d ∧
      e'.map id StoredHead.type = e.map id StoredHead.type
  | .node head fields, d, h => by
    obtain ⟨below, filters, hbelow, hfilters, rfl⟩ := storedDatum_eq_ok.mp h
    obtain ⟨inner, fields', rfl, hread, hwritten, htypes⟩ := storedFieldsRow_read hbelow
    refine ⟨_, Persisted.entry_record head hread [] filters, ?_, ?_⟩
    · refine storedDatum_eq_ok.mpr ⟨_, filters, hwritten, hfilters.reread, ?_⟩
      rw [StoredHead.record_eq, StoredHead.record_eq, StoredHead.rows_reread]
    · rw [Entry.map, Entry.map, htypes]
      rfl

theorem storedFieldsRow_read : ∀ {fields : Option StoredTree} {below : List (String × Datum)},
    storedFieldsRow fields = .ok below →
    ∃ (inner : Option (List (Datum × Datum))) (fields' : Option StoredTree),
      below = Datum.optionalRow "fields" .object inner ∧
      inner.map Persisted.entries = fields'.map .ok ∧ storedFieldsRow fields' = .ok below ∧
      mapFields id StoredHead.type fields' = mapFields id StoredHead.type fields
  | none, below, h => by
    rw [storedFieldsRow, Except.ok.injEq] at h
    subst h
    exact ⟨none, none, rfl, rfl, rfl, rfl⟩
  | some fields, below, h => by
    simp only [storedFieldsRow, bind_eq_ok, pure_eq_ok] at h
    obtain ⟨rows, hrows, rfl⟩ := h
    obtain ⟨fields', hread, hwritten, htypes⟩ := storedRows_read hrows
    refine ⟨some rows, some fields', rfl, congrArg some hread, ?_, ?_⟩
    · simp only [storedFieldsRow, bind_eq_ok, pure_eq_ok]
      exact ⟨rows, hwritten, rfl⟩
    · rw [mapFields, mapFields, htypes]

theorem storedRows_read : ∀ {t : StoredTree} {rows : List (Datum × Datum)},
    storedRows t = .ok rows →
    ∃ t', Persisted.entries rows = .ok t' ∧ storedRows t' = .ok rows ∧
      mapTree id StoredHead.type t' = mapTree id StoredHead.type t
  | [], rows, h => by
    rw [storedRows, Except.ok.injEq] at h
    subst h
    exact ⟨[], rfl, rfl, rfl⟩
  | (key, e) :: t, rows, h => by
    simp only [storedRows, bind_eq_ok, pure_eq_ok] at h
    obtain ⟨d, hd, rest, hrest, rfl⟩ := h
    obtain ⟨e', he, hed, hetypes⟩ := storedDatum_read hd
    obtain ⟨t', ht, htd, httypes⟩ := storedRows_read hrest
    refine ⟨(key, e') :: t', ?_, ?_, ?_⟩
    · simp only [Persisted.entries, bind_eq_ok, pure_eq_ok]
      exact ⟨e', he, t', ht, rfl⟩
    · simp only [storedRows, bind_eq_ok, pure_eq_ok]
      exact ⟨d, hed, rest, htd, rfl⟩
    · rw [mapTree, mapTree, hetypes, httypes]

end

end Entry

/-! ## 4. Compiled selections -/

namespace EntryHead

theorem given_list (h : EntryHead) : h.stored.list.given = h.list.map .text := by
  cases hl : h.list <;> simp [stored, hl, Datum.given]

/-- The filters of a list field are described by records, and written as they are. -/
theorem filterDatum_stored (h : EntryHead) :
    h.stored.filterDatum = .ok (filtersDatum (h.filters.getD [])) := by
  cases hf : h.filters with
  | none => simp [StoredHead.filterDatum, stored, hf, filtersDatum, Datum.record, Datum.isTrue]
  | some filters =>
    simp only [StoredHead.filterDatum, stored, hf, Option.map_some, Option.getD_some, filtersDatum,
      Datum.record, bind_eq_ok, pure_eq_ok, mapM_eq_ok, List.map_map]
    refine ⟨_, List.forall₂_same.mpr fun row hrow => ?_, rfl⟩
    obtain ⟨⟨name, value⟩, -, rfl⟩ := List.mem_map.mp hrow
    exact ⟨_, rfl, rfl⟩

/-- The record of an entry in memory has no operations, and is the same otherwise. -/
theorem exists_writes (h : EntryHead) (below : Option (List (Datum × Datum))) :
    ∃ filters, h.stored.Writes filters ∧ h.stored.rows below [] filters
      = h.stored.rows below [] (filtersDatum (h.filters.getD [])) := by
  cases hl : h.list with
  | none =>
    refine ⟨.null, ?_, ?_⟩
    · rw [StoredHead.Writes, h.given_list, hl]
      rfl
    · rw [StoredHead.rows, StoredHead.rows, StoredHead.reread, StoredHead.reread, h.given_list, hl]
      rfl
  | some list =>
    refine ⟨_, ?_, rfl⟩
    rw [StoredHead.Writes, h.given_list, hl]
    exact h.filterDatum_stored

end EntryHead

namespace Entry

theorem fieldsRow_eq (fields : Option SelectionTree) :
    fieldsRow fields = Datum.optionalRow "fields" .object (fields.map treeRows) := by
  cases fields <;> rfl

mutual

/-- **In memory and in its record**, an entry says the same, its operations apart. -/
theorem storedDatum_map : ∀ e : Entry String EntryHead,
    (e.map .text EntryHead.stored).storedDatum = .ok (Persisted.stillEntry e.toDatum)
  | .node head fields => by
    obtain ⟨filters, hwrites, hrows⟩ :=
      head.exists_writes ((fields.map treeRows).map Persisted.stillEntries)
    rw [Entry.map, toDatum, fieldsRow_eq, StoredHead.record_eq, Datum.record, Persisted.stillEntry,
      StoredHead.stillParts_rows, ← hrows]
    exact storedDatum_eq_ok.mpr ⟨_, filters, storedFieldsRow_map fields, hwrites,
      head.stored.record_eq _ _ _⟩

theorem storedFieldsRow_map : ∀ fields : Option SelectionTree,
    storedFieldsRow (mapFields .text EntryHead.stored fields)
      = .ok (Datum.optionalRow "fields" .object
          ((fields.map treeRows).map Persisted.stillEntries))
  | none => rfl
  | some fields => by
    rw [mapFields, storedFieldsRow, storedRows_map fields]
    rfl

theorem storedRows_map : ∀ t : SelectionTree,
    storedRows (mapTree .text EntryHead.stored t) = .ok (Persisted.stillEntries (treeRows t))
  | [] => rfl
  | (key, e) :: t => by
    rw [mapTree, storedRows, storedDatum_map e, storedRows_map t]
    rfl

end

end Entry

/-! ## 5. Walks -/

namespace ScalarRegistry

variable {r : ScalarRegistry} {direction : Direction}

/-- Selections with the same types have the same types under each key. -/
theorem types_get? (key : Datum) : ∀ {t t' : StoredTree}, t.types = t'.types →
    (Table.get? t key).map (Entry.map id StoredHead.type)
      = (Table.get? t' key).map (Entry.map id StoredHead.type)
  | [], [], _ => rfl
  | [], (_, _) :: _, h => by
    rw [StoredTree.types, StoredTree.types, Entry.mapTree, Entry.mapTree] at h
    cases h
  | (_, _) :: _, [], h => by
    rw [StoredTree.types, StoredTree.types, Entry.mapTree, Entry.mapTree] at h
    cases h
  | (k, e) :: t, (k', e') :: t', h => by
    rw [StoredTree.types, StoredTree.types, Entry.mapTree, Entry.mapTree, List.cons.injEq,
      Prod.mk.injEq] at h
    obtain ⟨⟨hk, he⟩, ht⟩ := h
    obtain rfl : k = k' := hk
    rw [Table.get?, Table.get?]
    split
    · exact congrArg some he
    · exact types_get? key ht

/-- What is made of the value under a key depends on the type and on what is below it. -/
theorem convertAt_congr {t t' : StoredTree} (h : t.types = t'.types) {value : Datum}
    (hbelow : ∀ below below' : StoredTree, below.types = below'.types →
      r.walk direction below value = r.walk direction below' value) (key : Datum) :
    r.convertAt direction t key value = r.convertAt direction t' key value := by
  have hget := types_get? key h
  unfold convertAt
  cases he : Table.get? t key with
  | none =>
    rw [he, Option.map_none, eq_comm, Option.map_eq_none_iff] at hget
    rw [hget]
  | some e =>
    rw [he, Option.map_some, eq_comm, Option.map_eq_some_iff] at hget
    obtain ⟨e', he', heq⟩ := hget
    obtain ⟨head, fields⟩ := e
    obtain ⟨head', fields'⟩ := e'
    rw [Entry.map, Entry.map, Entry.node.injEq] at heq
    obtain ⟨htype, hfields⟩ := heq
    rw [he']
    dsimp only
    rw [htype]
    cases head.type.given with
    | none => rfl
    | some type =>
      cases fields with
      | none =>
        cases fields' with
        | none => rfl
        | some below' => rw [Entry.mapFields, Entry.mapFields] at hfields; cases hfields
      | some below =>
        cases fields' with
        | none => rw [Entry.mapFields, Entry.mapFields] at hfields; cases hfields
        | some below' =>
          rw [Entry.mapFields, Entry.mapFields, Option.some.injEq] at hfields
          exact hbelow below below' hfields.symm

mutual

/-- **A walk looks at types only.**  The induction is on the data. -/
theorem walk_congr : ∀ (d : Datum) {t t' : StoredTree}, t.types = t'.types →
    r.walk direction t d = r.walk direction t' d
  | .list items, t, t', h => by rw [walk, walk, walkItems_congr items h]
  | .object rows, t, t', h => by rw [walk, walk, walkRows_congr rows h]
  | .null, _, _, _ | .undefined, _, _, _ | .bool _, _, _, _ | .int _, _, _, _ | .float _, _, _, _
  | .text _, _, _, _ | .moment _, _, _, _ | .date _, _, _, _ | .uuid _, _, _, _ => rfl

theorem walkItems_congr : ∀ (items : List Datum) {t t' : StoredTree}, t.types = t'.types →
    r.walkItems direction t items = r.walkItems direction t' items
  | [], _, _, _ => rfl
  | d :: items, t, t', h => by
    rw [walkItems, walkItems, walk_congr d h, walkItems_congr items h]

theorem walkRows_congr : ∀ (rows : List (Datum × Datum)) {t t' : StoredTree}, t.types = t'.types →
    r.walkRows direction t rows = r.walkRows direction t' rows
  | [], _, _, _ => rfl
  | (key, value) :: rows, t, t', h => by
    rw [walkRows_cons, walkRows_cons, convertAt_congr h (fun _ _ => walk_congr value) key,
      walkRows_congr rows h]

end

end ScalarRegistry

/-! ## 6. What a record keeps -/

namespace StoredTree

/-- Whatever the handlers, data are converted along one selection as along the other, or not at all
for the same reason. -/
def ConvertsLike (t s : StoredTree) : Prop :=
  ∀ (r : ScalarRegistry) (d : Datum),
    r.marshal t d = r.marshal s d ∧ r.unmarshal t d = r.unmarshal s d

theorem toDatum_eq_ok {t : StoredTree} {d : Datum} :
    t.toDatum = .ok d ↔ ∃ rows, Entry.storedRows t = .ok rows ∧ .object rows = d := by
  simp only [toDatum, bind_eq_ok, pure_eq_ok]

/-- A selection is read back from its record, whatever data it holds. -/
theorem exists_ofDatum? {s : StoredTree} {d : Datum} (h : s.toDatum = .ok d) :
    ∃ t, ofDatum? d = .ok t ∧ t.toDatum = .ok d ∧ t.ConvertsLike s := by
  obtain ⟨rows, hrows, rfl⟩ := toDatum_eq_ok.mp h
  obtain ⟨t, hread, hwritten, htypes⟩ := Entry.storedRows_read hrows
  refine ⟨t, hread, toDatum_eq_ok.mpr ⟨rows, hwritten, rfl⟩, fun r data => ⟨?_, ?_⟩⟩
  · exact ScalarRegistry.walk_congr data htypes
  · exact ScalarRegistry.walk_congr data htypes

end StoredTree

/-- In memory a compiled selection has what its record has, the operations apart. -/
theorem SelectionTree.toDatum_stored (s : SelectionTree) :
    StoredTree.toDatum s.stored = .ok (Persisted.still s.toDatum) :=
  StoredTree.toDatum_eq_ok.mpr ⟨_, Entry.storedRows_map s, rfl⟩

/-- **A record keeps all of a selection but its operations.**  Every compiled selection is read back
from its record; written again, what was read has that record without the operations at any depth,
and data are converted along it as along the selection itself.  The same goes for a selection that
was read from some record, with any data in it: as far as it can be written, nothing of its record
is lost. -/
theorem SelectionTree.persists :
    (∀ s : SelectionTree, ∃ t, StoredTree.ofDatum? s.toDatum = .ok t ∧
      t.toDatum = .ok (Persisted.still s.toDatum) ∧ t.ConvertsLike s.stored) ∧
    (∀ (s : StoredTree) (d : Datum), s.toDatum = .ok d →
      ∃ t, StoredTree.ofDatum? d = .ok t ∧ t.toDatum = .ok d ∧ t.ConvertsLike s) := by
  refine ⟨fun s => ?_, fun s d => StoredTree.exists_ofDatum?⟩
  obtain ⟨t, hread, hwritten, hlike⟩ := StoredTree.exists_ofDatum? s.toDatum_stored
  rw [StoredTree.ofDatum?_still] at hread
  exact ⟨t, hread, hwritten, hlike⟩

namespace Sample

/-- Posts as some program stored them: its filters are a list of pairs, the mark of the connection
is a number, and one entry says nothing of its type. -/
def loosePosts : StoredTree :=
  [(.text "posts", .node
    { type := .text "Post", cacheKey := .text "posts(first: 2)", masked := .null,
      abstract := .undefined, list := .text "Posts", connection := .int 1,
      filters := .object [(.text "first", .list [.list [.text "kind", .text "Int"],
        .list [.text "value", .int 2]])] }
    (some [(.text "operations", .node
      { type := .null, cacheKey := .text "operations", masked := .bool true,
        abstract := .bool false, list := .null, connection := .bool true, filters := .null }
      none)]))]

end Sample

open Sample in
theorem loosePosts_persists : ∃ d, loosePosts.toDatum = .ok d ∧
    ∃ t, StoredTree.ofDatum? d = .ok t ∧ t.toDatum = .ok d ∧ t.ConvertsLike loosePosts := by
  obtain ⟨d, hd⟩ : ∃ d, loosePosts.toDatum = .ok d := ⟨_, rfl⟩
  exact ⟨d, hd, SelectionTree.persists.2 loosePosts d hd⟩

/-- The operations of an entry go, and the field that is called so stays. -/
example : Persisted.still (.object [(.text "like", .object [(.text "operations", .list []),
      (.text "fields", .object [(.text "operations", .object [])])])])
    = .object [(.text "like", .object [(.text "fields",
      .object [(.text "operations", .object [])])])] := rfl

end QueryCompiler
