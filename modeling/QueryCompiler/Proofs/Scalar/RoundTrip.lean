import QueryCompiler.Scalar.Walk
import QueryCompiler.Proofs.Outcome
/-
# Responses survive the way out and back

Data that were converted to be sent and are converted back are the data from before.  The second
walk sees the converted data only, and has to take the same turns as the first one everywhere:
along the fields of an entry, over the items of a list, past a null.  That puts three demands on
the handlers (`Handler.Faithful`), all of them on values other than null:

* what is written can be read, and reading it gives the value that was written;
* no value is written as null, because the walk back passes over a null;
* no single value is written as a list, because the walk back goes into a list.

They are exactly what is needed: `faithful_iff_unmarshal_marshal` also says that a registry under
which every response comes back has only such handlers.
-/
namespace QueryCompiler

/-! ## 1. What is asked of handlers -/

def Datum.isList : Datum → Bool
  | .list _ => true
  | _ => false

theorem Datum.exists_of_isList {d : Datum} (h : d.isList = true) : ∃ items, d = .list items := by
  cases d with
  | list items => exact ⟨items, rfl⟩
  | _ => exact absurd h (by simp [Datum.isList])

/-- What the two functions of a handler owe each other, when there is one for writing.  The
function for reading has to be there even if writing takes no value at all: an empty list asks
for it. -/
structure Convert.Undoes (read write : Convert) : Prop where
  undone : ∀ {v w}, v ≠ .null → write v = .ok w → read w = .ok v
  given : ∀ {v w}, v ≠ .null → write v = .ok w → w ≠ .null
  single : ∀ {v w}, v ≠ .null → v.isList = false → write v = .ok w → w.isList = false

/-- A handler whose function for reading takes back whatever the one for writing does. -/
def Handler.Faithful (h : Handler) : Prop :=
  ∀ write, h.marshal = some write → ∃ read, h.unmarshal = some read ∧ read.Undoes write

namespace ScalarRegistry

/-- All handlers of the registry are faithful. -/
def Faithful (r : ScalarRegistry) : Prop :=
  ∀ scalar h, Table.get? r scalar = some h → h.Faithful

/-! ## 2. One value -/

theorem converter_eq_ok {scalar : String} {h : Handler} {direction : Direction} {f : Convert} :
    converter scalar h direction = .ok f ↔ h.convert? direction = some f := by
  unfold converter
  cases h.convert? direction with
  | none => exact ⟨nofun, nofun⟩
  | some g => rw [Except.ok.injEq, Option.some.injEq]

/-- Away from nulls and lists, a value is converted by the function itself. -/
theorem convertWith_single {scalar : String} {h : Handler} {direction : Direction} {v : Datum}
    (hn : v ≠ .null) (hl : v.isList = false) :
    convertWith scalar h direction v = (do (← converter scalar h direction) v) := by
  cases v with
  | null => exact absurd rfl hn
  | list items => exact absurd hl (by simp [Datum.isList])
  | _ => rfl

theorem convertItem_of_ne_null {f : Convert} {v : Datum} (hn : v ≠ .null) :
    convertItem f v = f v := by
  cases v with
  | null => exact absurd rfl hn
  | _ => rfl

theorem convertItem_undone {read write : Convert} (hu : read.Undoes write) {v w : Datum}
    (h : convertItem write v = .ok w) : convertItem read w = .ok v := by
  by_cases hn : v = .null
  · subst hn
    rw [← Except.ok.inj h]
    rfl
  · rw [convertItem_of_ne_null hn] at h
    rw [convertItem_of_ne_null (hu.given hn h)]
    exact hu.undone hn h

/-- **A faithful handler takes back what it did to a value**, be it null, a list or single. -/
theorem convertWith_undone {scalar : String} {h : Handler} (hf : h.Faithful) {v w : Datum}
    (hw : convertWith scalar h .marshal v = .ok w) :
    convertWith scalar h .unmarshal w = .ok v := by
  by_cases hn : v = .null
  · subst hn
    rw [← Except.ok.inj hw]
    rfl
  · cases hl : v.isList with
    | false =>
      rw [convertWith_single hn hl, bind_eq_ok] at hw
      obtain ⟨write, hwrite, hvw⟩ := hw
      obtain ⟨read, hread, hu⟩ := hf write (converter_eq_ok.mp hwrite)
      rw [convertWith_single (hu.given hn hvw) (hu.single hn hl hvw), bind_eq_ok]
      exact ⟨read, converter_eq_ok.mpr hread, hu.undone hn hvw⟩
    | true =>
      obtain ⟨items, rfl⟩ := Datum.exists_of_isList hl
      simp only [convertWith, bind_eq_ok, pure_eq_ok] at hw
      obtain ⟨write, hwrite, converted, hitems, rfl⟩ := hw
      obtain ⟨read, hread, hu⟩ := hf write (converter_eq_ok.mp hwrite)
      simp only [convertWith, bind_eq_ok, pure_eq_ok]
      refine ⟨read, converter_eq_ok.mpr hread, items, ?_, rfl⟩
      rw [mapM_eq_ok] at hitems ⊢
      exact List.Forall₂.flip (hitems.imp fun _ _ => convertItem_undone hu)

theorem handler?_registered {r : ScalarRegistry} {type : Datum} {scalar : String} {h : Handler}
    (hr : r.handler? type = .ok (some (scalar, h))) : Table.get? r scalar = some h := by
  cases type with
  | text name =>
    simp only [handler?, Except.ok.injEq, Option.map_eq_some_iff, Prod.mk.injEq] at hr
    obtain ⟨found, hfound, rfl, rfl⟩ := hr
    exact hfound
  | _ => simp [handler?, Datum.isKey] at hr

theorem convert_undone {r : ScalarRegistry} (hf : r.Faithful) {type v w : Datum}
    (hw : r.convert type .marshal v = .ok w) : r.convert type .unmarshal w = .ok v := by
  unfold convert at hw ⊢
  rw [bind_eq_ok] at hw ⊢
  obtain ⟨found, hfound, hvw⟩ := hw
  refine ⟨found, hfound, ?_⟩
  cases found with
  | none => rw [pure_eq_ok] at hvw ⊢; exact hvw.symm
  | some row =>
    obtain ⟨scalar, h⟩ := row
    exact convertWith_undone (hf scalar h (handler?_registered hfound)) hvw

/-! ## 3. The walk -/

/-- What a walk makes of the value under a key. -/
def convertAt (r : ScalarRegistry) (direction : Direction) (t : StoredTree) (key value : Datum) :
    Except Error Datum :=
  match Table.get? t key with
  | none => .ok value
  | some (.node head fields) =>
    match head.type.given, fields with
    | none, _ => .ok value
    | some _, some below => r.walk direction below value
    | some type, none => r.convert type direction value

theorem walkRows_cons (r : ScalarRegistry) (direction : Direction) (t : StoredTree)
    (key value : Datum) (rows : List (Datum × Datum)) :
    r.walkRows direction t ((key, value) :: rows) =
      (do return (key, ← r.convertAt direction t key value)
            :: (← r.walkRows direction t rows)) := by
  rw [walkRows, convertAt]
  cases Table.get? t key with
  | none => rfl
  | some e =>
    obtain ⟨head, fields⟩ := e
    dsimp only
    cases head.type.given with
    | none => rfl
    | some type => cases fields <;> rfl

/-- The value under a key comes back, if values that the walk goes into do. -/
theorem convertAt_undone {r : ScalarRegistry} (hf : r.Faithful) {t : StoredTree}
    {key v w : Datum}
    (below : ∀ t' : StoredTree, r.walk .marshal t' v = .ok w → r.walk .unmarshal t' w = .ok v)
    (hw : r.convertAt .marshal t key v = .ok w) : r.convertAt .unmarshal t key w = .ok v := by
  unfold convertAt at hw ⊢
  cases hget : Table.get? t key with
  | none =>
    rw [hget] at hw
    exact congrArg Except.ok (Except.ok.inj hw).symm
  | some e =>
    obtain ⟨head, fields⟩ := e
    rw [hget] at hw
    dsimp only at hw ⊢
    cases hg : head.type.given with
    | none =>
      rw [hg] at hw
      exact congrArg Except.ok (Except.ok.inj hw).symm
    | some type =>
      rw [hg] at hw
      cases fields with
      | none => exact convert_undone hf hw
      | some t' => exact below t' hw

mutual

/-- **The walk back undoes the walk out**, whatever the selection.  The induction is on the data
from before; each step of the walk back sees what the step out made of them. -/
theorem walk_undone {r : ScalarRegistry} (hf : r.Faithful) : ∀ (t : StoredTree) (d w : Datum),
    r.walk .marshal t d = .ok w → r.walk .unmarshal t w = .ok d
  | t, .null, w, h => by
    rw [walk] at h
    rw [← Except.ok.inj h, walk]
  | t, .list items, w, h => by
    simp only [walk, bind_eq_ok, pure_eq_ok] at h
    obtain ⟨converted, hitems, rfl⟩ := h
    simp only [walk, bind_eq_ok, pure_eq_ok]
    exact ⟨items, walkItems_undone hf t items converted hitems, rfl⟩
  | t, .object rows, w, h => by
    simp only [walk, bind_eq_ok, pure_eq_ok] at h
    obtain ⟨converted, hrows, rfl⟩ := h
    simp only [walk, bind_eq_ok, pure_eq_ok]
    exact ⟨rows, walkRows_undone hf t rows converted hrows, rfl⟩
  | t, .undefined, w, h | t, .bool _, w, h | t, .int _, w, h | t, .float _, w, h
  | t, .text _, w, h | t, .moment _, w, h | t, .date _, w, h | t, .uuid _, w, h => by
    simp [walk] at h

theorem walkItems_undone {r : ScalarRegistry} (hf : r.Faithful) (t : StoredTree) :
    ∀ items converted : List Datum, r.walkItems .marshal t items = .ok converted →
      r.walkItems .unmarshal t converted = .ok items
  | [], converted, h => by
    rw [walkItems] at h
    rw [← Except.ok.inj h, walkItems]
  | d :: items, converted, h => by
    simp only [walkItems, bind_eq_ok, pure_eq_ok] at h
    obtain ⟨w, hw, rest, hrest, rfl⟩ := h
    simp only [walkItems, bind_eq_ok, pure_eq_ok]
    exact ⟨d, walk_undone hf t d w hw, items, walkItems_undone hf t items rest hrest, rfl⟩

theorem walkRows_undone {r : ScalarRegistry} (hf : r.Faithful) (t : StoredTree) :
    ∀ rows converted : List (Datum × Datum), r.walkRows .marshal t rows = .ok converted →
      r.walkRows .unmarshal t converted = .ok rows
  | [], converted, h => by
    rw [walkRows] at h
    rw [← Except.ok.inj h, walkRows]
  | (key, d) :: rows, converted, h => by
    simp only [walkRows_cons, bind_eq_ok, pure_eq_ok] at h
    obtain ⟨w, hw, rest, hrest, rfl⟩ := h
    simp only [walkRows_cons, bind_eq_ok, pure_eq_ok]
    exact ⟨d, convertAt_undone hf (fun t' => walk_undone hf t' d w) hw, rows,
      walkRows_undone hf t rows rest hrest, rfl⟩

end

/-! ## 4. No less will do

A registry is probed with a selection of one scalar and an object of one value. -/

/-- The selection of a field of a scalar. -/
def probe (scalar : String) : StoredTree :=
  [(.text "value", .node (EntryHead.plain scalar "value" false).stored none)]

theorem walk_probe {r : ScalarRegistry} {scalar : String} {h : Handler}
    (hr : Table.get? r scalar = some h) (direction : Direction) (v : Datum) :
    r.walk direction (probe scalar) (.object [(.text "value", v)])
      = (do return .object [(.text "value", ← convertWith scalar h direction v)]) := by
  have hget : Table.get? (probe scalar) (.text "value")
      = some (.node (EntryHead.plain scalar "value" false).stored none) := by
    simp [probe, Table.get?, BEq.beq, Datum.sameKey, Datum.number?]
  have hat : r.convertAt direction (probe scalar) (.text "value") v
      = convertWith scalar h direction v := by
    simp only [convertAt, hget, EntryHead.stored, EntryHead.plain, Option.map_some,
      Option.getD_some, Datum.given, convert, handler?, hr]
    rfl
  rw [walk, walkRows_cons, hat, walkRows]
  cases convertWith scalar h direction v <;> rfl

/-- If every response comes back, so does every value that a handler converts. -/
theorem convertWith_undone_of_walk {r : ScalarRegistry} {scalar : String} {h : Handler}
    (hr : Table.get? r scalar = some h)
    (back : ∀ (t : StoredTree) (d w : Datum), r.marshal t d = .ok w → r.unmarshal t w = .ok d)
    {v w : Datum} (hw : convertWith scalar h .marshal v = .ok w) :
    convertWith scalar h .unmarshal w = .ok v := by
  have hout : r.walk .marshal (probe scalar) (.object [(.text "value", v)])
      = .ok (.object [(.text "value", w)]) := by
    rw [walk_probe hr, hw]
    rfl
  have hback : r.walk .unmarshal (probe scalar) (.object [(.text "value", w)])
      = .ok (.object [(.text "value", v)]) := back _ _ _ hout
  rw [walk_probe hr, bind_eq_ok] at hback
  obtain ⟨v', hv', heq⟩ := hback
  simp only [pure_eq_ok, Datum.object.injEq, List.cons.injEq, Prod.mk.injEq, and_true,
    true_and] at heq
  rw [hv', heq]

theorem convertWith_list {scalar : String} {h : Handler} {direction : Direction} {f : Convert}
    (hf : h.convert? direction = some f) (items : List Datum) :
    convertWith scalar h direction (.list items)
      = (do return .list (← items.mapM (convertItem f))) := by
  rw [convertWith, converter_eq_ok.mpr hf]
  rfl

/-- **A handler is faithful if all that it converts comes back.**  An empty list shows that it
can read, a list of one value that it reads what it wrote, and a single value that it writes no
list. -/
theorem faithful_of_convertWith_undone {scalar : String} {h : Handler}
    (back : ∀ v w, convertWith scalar h .marshal v = .ok w →
      convertWith scalar h .unmarshal w = .ok v) : h.Faithful := by
  intro write hm
  have hwrite : h.convert? .marshal = some write := hm
  obtain ⟨read, hread⟩ : ∃ read, h.convert? .unmarshal = some read := by
    have hnil : convertWith scalar h .marshal (.list []) = .ok (.list []) := by
      rw [convertWith_list hwrite]
      rfl
    have := back _ _ hnil
    simp only [convertWith, bind_eq_ok] at this
    obtain ⟨read, hread, -⟩ := this
    exact ⟨read, converter_eq_ok.mp hread⟩
  have hitem : ∀ {v w}, v ≠ .null → write v = .ok w → convertItem read w = .ok v := by
    intro v w hn hvw
    have hout : convertWith scalar h .marshal (.list [v]) = .ok (.list [w]) := by
      simp only [convertWith_list hwrite, bind_eq_ok, pure_eq_ok, mapM_eq_ok]
      exact ⟨[w], .cons (by rw [convertItem_of_ne_null hn, hvw]) .nil, rfl⟩
    have hback := back _ _ hout
    simp only [convertWith_list hread, bind_eq_ok, pure_eq_ok, mapM_eq_ok,
      Datum.list.injEq] at hback
    obtain ⟨items, hitems, rfl⟩ := hback
    cases hitems with
    | cons hw _ => exact hw
  have hgiven : ∀ {v w}, v ≠ .null → write v = .ok w → w ≠ .null := by
    rintro v w hn hvw rfl
    exact hn (Except.ok.inj (hitem hn hvw)).symm
  refine ⟨read, hread, ?_, hgiven, ?_⟩
  · intro v w hn hvw
    rw [← convertItem_of_ne_null (f := read) (hgiven hn hvw)]
    exact hitem hn hvw
  · intro v w hn hl hvw
    have hout : convertWith scalar h .marshal v = .ok w := by
      rw [convertWith_single hn hl, converter_eq_ok.mpr hwrite]
      exact hvw
    cases w with
    | list items =>
      have hback := back _ _ hout
      simp only [convertWith_list hread, bind_eq_ok, pure_eq_ok] at hback
      obtain ⟨items', -, rfl⟩ := hback
      exact absurd hl (by simp [Datum.isList])
    | _ => rfl

/-- **Round trip.**  Under a registry of faithful handlers, data that can be sent at all are read
back as they were: for every selection, at any depth of objects, lists and nulls.  And no
registry with any other handler has this property. -/
theorem faithful_iff_unmarshal_marshal (r : ScalarRegistry) :
    r.Faithful ↔ ∀ (t : StoredTree) (d w : Datum),
      r.marshal t d = .ok w → r.unmarshal t w = .ok d :=
  ⟨fun hf => walk_undone hf, fun back _ _ hr =>
    faithful_of_convertWith_undone fun _ _ => convertWith_undone_of_walk hr back⟩

end ScalarRegistry

end QueryCompiler
