import QueryCompiler.Proofs.Scalar.RoundTrip
/-
# Paths into data, and what a selection says of them

A walk through data meets values at any depth, and what becomes of one of them depends on how it is
reached.  A value is known by its path: the steps into lists and objects that lead to it
(`Datum.Has`).  A selection says nothing of lists, so it is asked with the keys of a path alone
(`DataStep.keys`).

Of a key a selection says one of three things, and the walk does accordingly:

* a typed entry with nested fields (`StoredTree.Nested`): the walk goes on along these
  (`convertAt_nested`);
* a typed entry without nested fields that names a registered scalar (`ScalarRegistry.IsScalar`):
  the value is converted (`convertAt_scalar`);
* anything else (`ScalarRegistry.Keeps`): the value stays as it is (`convertAt_keeps`).
-/
namespace QueryCompiler

/-! ## 1. Paths -/

/-- A step into data: to an item of a list, or to the value of a row.  Rows are told apart by their
place in the object, because two rows of a datum may have keys that are the same. -/
inductive DataStep where
  | item (index : Nat)
  | row (index : Nat) (key : Datum)

/-- The keys on a path.  Places in lists are dropped. -/
def DataStep.keys (p : List DataStep) : List Datum :=
  p.filterMap fun
    | .item _ => none
    | .row _ key => some key

namespace Datum

/-- A path leads to a value inside a datum. -/
inductive Has : Datum → List DataStep → Datum → Prop
  | here {d : Datum} : Has d [] d
  | item {items : List Datum} {i : Nat} {d v : Datum} {p : List DataStep} :
      items[i]? = some d → Has d p v → Has (.list items) (.item i :: p) v
  | row {rows : List (Datum × Datum)} {i : Nat} {key d v : Datum} {p : List DataStep} :
      rows[i]? = some (key, d) → Has d p v → Has (.object rows) (.row i key :: p) v

theorem has_nil {d v : Datum} : d.Has [] v ↔ v = d :=
  ⟨fun h => by cases h; rfl, fun h => h ▸ .here⟩

theorem has_item {items : List Datum} {i : Nat} {d : Datum} (hi : items[i]? = some d)
    {p : List DataStep} {v : Datum} : (Datum.list items).Has (.item i :: p) v ↔ d.Has p v := by
  refine ⟨fun h => ?_, .item hi⟩
  cases h with
  | item hi' hv => exact Option.some.inj (hi.symm.trans hi') ▸ hv

theorem has_row {rows : List (Datum × Datum)} {i : Nat} {key d : Datum}
    (hi : rows[i]? = some (key, d)) {p : List DataStep} {v : Datum} :
    (Datum.object rows).Has (.row i key :: p) v ↔ d.Has p v := by
  refine ⟨fun h => ?_, .row hi⟩
  cases h with
  | row hi' hv =>
    obtain ⟨-, rfl⟩ := Prod.mk.inj (Option.some.inj (hi.symm.trans hi'))
    exact hv

theorem given_of_ne_null {d : Datum} (h : d ≠ .null) : d.given = some d := by
  cases d with
  | null => exact absurd rfl h
  | _ => rfl

end Datum

/-! ## 2. What a selection says of keys -/

/-- The entry under a key is typed and has nested fields, the selection `below`. -/
def StoredTree.Nested (t : StoredTree) (key : Datum) (below : StoredTree) : Prop :=
  ∃ head, Table.get? t key = some (.node head (some below)) ∧ head.type ≠ .null

/-- Keys lead from one selection to another, all of them through typed entries with nested
fields. -/
inductive StoredTree.Nests : StoredTree → List Datum → StoredTree → Prop
  | root {t : StoredTree} : Nests t [] t
  | nested {t below t' : StoredTree} {key : Datum} {keys : List Datum} :
      t.Nested key below → Nests below keys t' → Nests t (key :: keys) t'

theorem StoredTree.Nested.unique {t below below' : StoredTree} {key : Datum}
    (h : t.Nested key below) (h' : t.Nested key below') : below' = below := by
  obtain ⟨head, hget, -⟩ := h
  obtain ⟨head', hget', -⟩ := h'
  rw [hget, Option.some.injEq, Entry.node.injEq, Option.some.injEq] at hget'
  exact hget'.2.symm

namespace ScalarRegistry

/-- The entry under a key is typed, has no nested fields, and names a scalar with this handler. -/
def IsScalar (r : ScalarRegistry) (t : StoredTree) (key : Datum) (scalar : String) (h : Handler) :
    Prop :=
  ∃ head, Table.get? t key = some (.node head none) ∧ head.type = .text scalar ∧
    Table.get? r scalar = some h

/-- Keys lead through typed entries with nested fields to a typed entry without, which names a
registered scalar. -/
def LeadsTo (r : ScalarRegistry) (t : StoredTree) (keys : List Datum) (scalar : String)
    (h : Handler) : Prop :=
  ∃ above key below, keys = above ++ [key] ∧ t.Nests above below ∧ r.IsScalar below key scalar h

/-- Neither is there a selection below a key, nor does it name a registered scalar. -/
structure Keeps (r : ScalarRegistry) (t : StoredTree) (key : Datum) : Prop where
  no_scalar : ∀ scalar h, ¬ r.IsScalar t key scalar h
  no_nested : ∀ below, ¬ t.Nested key below

variable {r : ScalarRegistry} {t below : StoredTree} {key : Datum} {keys : List Datum}
  {scalar : String} {h : Handler}

/-- There are no other keys than these three kinds. -/
theorem key_cases (r : ScalarRegistry) (t : StoredTree) (key : Datum) :
    (∃ scalar h, r.IsScalar t key scalar h) ∨ (∃ below, t.Nested key below) ∨ r.Keeps t key := by
  by_cases hs : ∃ scalar h, r.IsScalar t key scalar h
  · exact .inl hs
  · by_cases hn : ∃ below, t.Nested key below
    · exact .inr (.inl hn)
    · exact .inr (.inr ⟨fun scalar h hk => hs ⟨scalar, h, hk⟩, fun below hk => hn ⟨below, hk⟩⟩)

theorem IsScalar.not_nested (hs : r.IsScalar t key scalar h) (below : StoredTree) :
    ¬ t.Nested key below := by
  rintro ⟨head, hget, -⟩
  obtain ⟨head', hget', -⟩ := hs
  rw [hget] at hget'
  exact absurd hget' nofun

theorem IsScalar.unique {scalar' : String} {h' : Handler} (hs : r.IsScalar t key scalar h)
    (hs' : r.IsScalar t key scalar' h') : scalar' = scalar ∧ h' = h := by
  obtain ⟨head, hget, htype, hr⟩ := hs
  obtain ⟨head', hget', htype', hr'⟩ := hs'
  rw [hget, Option.some.injEq, Entry.node.injEq] at hget'
  obtain ⟨rfl, -⟩ := hget'
  obtain rfl : scalar = scalar' := Datum.text.inj (htype.symm.trans htype')
  rw [hr, Option.some.injEq] at hr'
  exact ⟨rfl, hr'.symm⟩

theorem not_leadsTo_nil : ¬ r.LeadsTo t [] scalar h := by
  rintro ⟨above, key, below, hkeys, -⟩
  exact List.append_ne_nil_of_right_ne_nil above (List.cons_ne_nil key []) hkeys.symm

/-- The first key is the scalar's own, or it has a selection below it that leads on. -/
theorem leadsTo_cons : r.LeadsTo t (key :: keys) scalar h ↔
    keys = [] ∧ r.IsScalar t key scalar h ∨
      ∃ below, t.Nested key below ∧ r.LeadsTo below keys scalar h := by
  constructor
  · rintro ⟨above, last, below, hkeys, hnests, hs⟩
    cases hnests with
    | root =>
      obtain ⟨rfl, rfl⟩ := List.cons.inj hkeys
      exact .inl ⟨rfl, hs⟩
    | nested hn hnests =>
      obtain ⟨rfl, rfl⟩ := List.cons.inj hkeys
      exact .inr ⟨_, hn, _, last, below, rfl, hnests, hs⟩
  · rintro (⟨rfl, hs⟩ | ⟨first, hn, above, last, below, rfl, hnests, hs⟩)
    · exact ⟨[], key, t, rfl, .root, hs⟩
    · exact ⟨key :: above, last, below, rfl, .nested hn hnests, hs⟩

/-! ## 3. What the walk does under a key -/

variable {direction : Direction} {v w : Datum}

theorem convertAt_scalar (hs : r.IsScalar t key scalar h) :
    r.convertAt direction t key v = convertWith scalar h direction v := by
  obtain ⟨head, hget, htype, hr⟩ := hs
  simp only [convertAt, hget, htype, Datum.given, convert, handler?, hr]
  rfl

theorem convertAt_nested (hn : t.Nested key below) :
    r.convertAt direction t key v = r.walk direction below v := by
  obtain ⟨head, hget, htype⟩ := hn
  simp only [convertAt, hget, Datum.given_of_ne_null htype]

/-- A type that names no registered scalar has no handler, if it can be looked up at all. -/
theorem handler?_unregistered {type : Datum}
    (hn : ∀ scalar h, type = .text scalar → Table.get? r scalar ≠ some h) :
    r.handler? type = .ok none ∨ r.handler? type = .error .notAKey ∧ type.isKey = false := by
  cases type with
  | text scalar =>
    have hget : Table.get? r scalar = none :=
      Option.eq_none_iff_forall_ne_some.mpr (hn scalar · rfl)
    exact .inl (by rw [handler?, hget]; rfl)
  | list _ | object _ => exact .inr ⟨rfl, rfl⟩
  | _ => exact .inl rfl

/-- A type that is no key cannot be looked up; all other values that are kept stay as they are. -/
theorem convertAt_keeps (hk : r.Keeps t key) :
    r.convertAt direction t key v = .ok v ∨
      r.convertAt direction t key v = .error .notAKey ∧
        ∃ e, Table.get? t key = some e ∧ e.head.type.isKey = false := by
  unfold convertAt
  cases hget : Table.get? t key with
  | none => exact .inl rfl
  | some e =>
    obtain ⟨head, fields⟩ := e
    by_cases htype : head.type = .null
    · exact .inl (by simp only [htype, Datum.given])
    · cases fields with
      | some below => exact absurd ⟨head, hget, htype⟩ (hk.no_nested below)
      | none =>
        have hn : ∀ scalar h, head.type = .text scalar → Table.get? r scalar ≠ some h :=
          fun scalar h htext hr => hk.no_scalar scalar h ⟨head, hget, htext, hr⟩
        simp only [Datum.given_of_ne_null htype, convert]
        rcases handler?_unregistered hn with hh | ⟨hh, hkey⟩
        · exact .inl (by rw [hh]; rfl)
        · exact .inr ⟨by rw [hh]; rfl, _, rfl, hkey⟩

theorem convertAt_keeps_eq (hk : r.Keeps t key) (hw : r.convertAt direction t key v = .ok w) :
    w = v := by
  rcases convertAt_keeps hk with h | ⟨h, -⟩
  · exact (Except.ok.inj (h.symm.trans hw)).symm
  · exact absurd (h.symm.trans hw) error_ne_ok

end ScalarRegistry

/-! ## 4. What is selected of a page -/

namespace Sample

/-- An entry of a type, or of none. -/
def entryOf (type : Datum) (below : Option StoredTree) : Entry Datum StoredHead :=
  .node { (EntryHead.plain "" "" false).stored with type := type } below

/-- A link has tags. -/
def links : StoredTree := [(.text "tags", entryOf (.text "Tag") none)]

/-- A page has tags, a title, words without a type, and links. -/
def details : StoredTree :=
  [(.text "tags", entryOf (.text "Tag") none), (.text "title", entryOf (.text "String") none),
    (.text "words", entryOf .null (some links)),
    (.text "links", entryOf (.text "Page") (some links))]

def pages : StoredTree := [(.text "page", entryOf (.text "Page") (some details))]

end Sample

end QueryCompiler
