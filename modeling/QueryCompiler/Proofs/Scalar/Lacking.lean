import QueryCompiler.Proofs.Scalar.Paths
/-
# A missing function is reported when it is needed

A handler may lack the function for one of the two directions, and nothing is said of it before a
walk needs the function.  It is needed for every value that is not null: an empty list needs it, and
so does a list that holds nothing but nulls, although the function is applied to nothing there.

`ScalarRegistry.Lacks` says that somewhere in the data a function is needed that is not there,
and `walk_raises_iff` that a walk reports just this.  What else can go wrong is kept out by three
assumptions: the functions that are there never fail, the data have the shape of the selection
(`StoredTree.Takes`), and types can be looked up (`Entry.typesAreKeys`), as those of a compiled
selection can (`typesAreKeys_stored`).
-/
namespace QueryCompiler

/-! ## 1. What is assumed -/

/-- The functions of the registry for a direction never fail. -/
def ScalarRegistry.NeverFails (r : ScalarRegistry) (direction : Direction) : Prop :=
  ∀ scalar h f, Table.get? r scalar = some h → h.convert? direction = some f →
    ∀ v, ∃ w, f v = .ok w

/-- Data that a walk along a selection can go through: null, objects, or lists of such data, at the
root and wherever there is a selection below a key. -/
inductive StoredTree.Takes : StoredTree → Datum → Prop
  | null {t : StoredTree} : Takes t .null
  | list {t : StoredTree} {items : List Datum} : (∀ d ∈ items, Takes t d) → Takes t (.list items)
  | object {t : StoredTree} {rows : List (Datum × Datum)} :
      (∀ row ∈ rows, ∀ below, t.Nested row.1 below → Takes below row.2) → Takes t (.object rows)

namespace Entry

mutual

/-- The types in an entry are no lists and no objects. -/
def typesAreKeys : Entry Datum StoredHead → Bool
  | .node head fields => head.type.isKey && belowTypesAreKeys fields

def belowTypesAreKeys : Option (List (Datum × Entry Datum StoredHead)) → Bool
  | none => true
  | some t => treeTypesAreKeys t

def treeTypesAreKeys : List (Datum × Entry Datum StoredHead) → Bool
  | [] => true
  | (_, e) :: t => e.typesAreKeys && treeTypesAreKeys t

end

theorem typesAreKeys_of_get? {key : Datum} {e : Entry Datum StoredHead} :
    ∀ {t : StoredTree}, treeTypesAreKeys t = true → Table.get? t key = some e →
      e.typesAreKeys = true
  | [], _, h => absurd h nofun
  | (key', e') :: t, ht, h => by
    rw [treeTypesAreKeys, Bool.and_eq_true] at ht
    rw [Table.get?] at h
    split at h
    · exact Option.some.inj h ▸ ht.1
    · exact typesAreKeys_of_get? ht.2 h

theorem isKey_of_get? {t : StoredTree} (ht : treeTypesAreKeys t = true) {key : Datum}
    {e : Entry Datum StoredHead} (h : Table.get? t key = some e) : e.head.type.isKey = true := by
  have he := typesAreKeys_of_get? ht h
  obtain ⟨head, fields⟩ := e
  rw [typesAreKeys, Bool.and_eq_true] at he
  exact he.1

theorem typesAreKeys_nested {t below : StoredTree} (ht : treeTypesAreKeys t = true) {key : Datum}
    (h : t.Nested key below) : treeTypesAreKeys below = true := by
  obtain ⟨head, hget, -⟩ := h
  have he := typesAreKeys_of_get? ht hget
  rw [typesAreKeys, Bool.and_eq_true] at he
  exact he.2

mutual

theorem typesAreKeys_storedEntry : ∀ e : Entry String EntryHead,
    (e.map .text EntryHead.stored).typesAreKeys = true
  | .node head fields => by
    have hhead : head.stored.type.isKey = true := by
      unfold EntryHead.stored
      cases head.type <;> rfl
    rw [map, typesAreKeys, hhead, typesAreKeys_storedBelow fields]
    rfl

theorem typesAreKeys_storedBelow : ∀ fields : Option (List (String × Entry String EntryHead)),
    belowTypesAreKeys (mapFields .text EntryHead.stored fields) = true
  | none => rfl
  | some t => typesAreKeys_stored t

/-- The types of a compiled selection can be looked up. -/
theorem typesAreKeys_stored : ∀ t : List (String × Entry String EntryHead),
    treeTypesAreKeys (mapTree .text EntryHead.stored t) = true
  | [] => rfl
  | (_, e) :: t => by
    rw [mapTree, treeTypesAreKeys, typesAreKeys_storedEntry e, typesAreKeys_stored t]
    rfl

end

end Entry

/-! ## 2. What is reported -/

/-- Somewhere in the data, reached through lists and nested selections, an object has a value other
than null under a key that names a scalar without a function for the direction. -/
inductive ScalarRegistry.Lacks (r : ScalarRegistry) (direction : Direction) :
    StoredTree → Datum → String → Prop
  | here {t : StoredTree} {rows : List (Datum × Datum)} {key v : Datum} {scalar : String}
      {h : Handler} : (key, v) ∈ rows → v ≠ .null → r.IsScalar t key scalar h →
      h.convert? direction = none → Lacks r direction t (.object rows) scalar
  | item {t : StoredTree} {items : List Datum} {d : Datum} {scalar : String} :
      d ∈ items → Lacks r direction t d scalar → Lacks r direction t (.list items) scalar
  | nested {t below : StoredTree} {rows : List (Datum × Datum)} {key v : Datum} {scalar : String} :
      (key, v) ∈ rows → t.Nested key below → Lacks r direction below v scalar →
      Lacks r direction t (.object rows) scalar

/-- A computation reports one of the scalars with a property as missing a function; if there is no
such scalar, it succeeds. -/
def Blames {α : Type} (direction : Direction) (x : Except Error α) (P : String → Prop) : Prop :=
  (∃ a, x = .ok a) ∧ (∀ scalar, ¬ P scalar) ∨
    ∃ scalar, x = .error (.missingConverter scalar direction) ∧ P scalar

namespace Blames

variable {α β : Type} {direction : Direction} {x : Except Error α} {P Q : String → Prop}

theorem congr (hx : Blames direction x P) (h : ∀ scalar, P scalar ↔ Q scalar) :
    Blames direction x Q := by
  rcases hx with ⟨hok, hP⟩ | ⟨scalar, herror, hP⟩
  · exact .inl ⟨hok, fun scalar hQ => hP scalar ((h scalar).mpr hQ)⟩
  · exact .inr ⟨scalar, herror, (h scalar).mp hP⟩

theorem of_ok {a : α} (hP : ∀ scalar, ¬ P scalar) : Blames direction (.ok a) P :=
  .inl ⟨⟨a, rfl⟩, hP⟩

/-- What comes after a step with a report is reported as well. -/
theorem bind (hx : Blames direction x P) {f : α → Except Error β}
    (hf : ∀ a, Blames direction (f a) Q) :
    Blames direction (x >>= f) fun scalar => P scalar ∨ Q scalar := by
  rcases hx with ⟨⟨a, rfl⟩, hP⟩ | ⟨scalar, rfl, hP⟩
  · exact (hf a).congr fun scalar => (or_iff_right (hP scalar)).symm
  · exact .inr ⟨scalar, rfl, .inl hP⟩

/-- Nothing is reported of what is made of a result. -/
theorem map (hx : Blames direction x P) (f : α → β) :
    Blames direction (x >>= fun a => pure (f a)) P :=
  (hx.bind fun a => of_ok (a := f a) fun _ => not_false).congr fun _ => iff_of_eq (or_false _)

end Blames

/-! ## 3. The walk reports what is lacking -/

namespace ScalarRegistry

variable {r : ScalarRegistry} {direction : Direction} {t : StoredTree}

/-- A handler with a function that never fails converts everything. -/
theorem convertWith_total {scalar : String} {h : Handler} {f : Convert}
    (hf : h.convert? direction = some f) (htotal : ∀ v, ∃ w, f v = .ok w) (v : Datum) :
    ∃ w, convertWith scalar h direction v = .ok w := by
  have hitem : ∀ v, ∃ w, convertItem f v = .ok w := by
    intro v
    by_cases hn : v = .null
    · exact ⟨.null, by rw [hn, convertItem]⟩
    · exact convertItem_of_ne_null hn ▸ htotal v
  by_cases hn : v = .null
  · exact ⟨.null, by rw [hn, convertWith]⟩
  · cases hl : v.isList with
    | true =>
      obtain ⟨items, rfl⟩ := Datum.exists_of_isList hl
      obtain ⟨items', hitems⟩ := exists_mapM_eq_ok.mpr fun v (_ : v ∈ items) => hitem v
      exact ⟨.list items', by rw [convertWith_list hf, hitems]; rfl⟩
    | false =>
      obtain ⟨w, hw⟩ := htotal v
      exact ⟨w, by rw [convertWith_single hn hl, converter_eq_ok.mpr hf]; exact hw⟩

/-- A handler without a function is asked for it by every value but null. -/
theorem convertWith_lacking {scalar : String} {h : Handler} (hf : h.convert? direction = none)
    {v : Datum} (hn : v ≠ .null) :
    convertWith scalar h direction v = .error (.missingConverter scalar direction) := by
  have hc : converter scalar h direction = .error (.missingConverter scalar direction) := by
    rw [converter, hf]
  cases hl : v.isList with
  | true =>
    obtain ⟨items, rfl⟩ := Datum.exists_of_isList hl
    rw [convertWith, hc]
    rfl
  | false =>
    rw [convertWith_single hn hl, hc]
    rfl

/-- What is lacking for the value under a key. -/
inductive LacksUnder (r : ScalarRegistry) (direction : Direction) (t : StoredTree) (key v : Datum)
    (scalar : String) : Prop
  | here {h : Handler} : v ≠ .null → r.IsScalar t key scalar h → h.convert? direction = none →
      LacksUnder r direction t key v scalar
  | nested {below : StoredTree} : t.Nested key below → r.Lacks direction below v scalar →
      LacksUnder r direction t key v scalar

theorem lacks_list {items : List Datum} {scalar : String} :
    r.Lacks direction t (.list items) scalar ↔ ∃ d ∈ items, r.Lacks direction t d scalar :=
  ⟨fun h => by cases h with | item hd h => exact ⟨_, hd, h⟩, fun ⟨_, hd, h⟩ => .item hd h⟩

theorem lacks_object {rows : List (Datum × Datum)} {scalar : String} :
    r.Lacks direction t (.object rows) scalar ↔
      ∃ row ∈ rows, r.LacksUnder direction t row.1 row.2 scalar := by
  constructor
  · intro h
    cases h with
    | here hrow hn hs hf => exact ⟨_, hrow, .here hn hs hf⟩
    | nested hrow hn h => exact ⟨_, hrow, .nested hn h⟩
  · rintro ⟨row, hrow, hn | ⟨hn, h⟩⟩
    · exact .here hrow hn ‹_› ‹_›
    · exact .nested hrow hn h

/-- The value of a scalar needs a function unless it is null. -/
theorem scalar_blames (hr : r.NeverFails direction) {key v : Datum} {scalar : String} {h : Handler}
    (hs : r.IsScalar t key scalar h) :
    Blames direction (convertWith scalar h direction v) (r.LacksUnder direction t key v) := by
  by_cases hv : v = .null
  · refine .inl ⟨⟨.null, by rw [hv, convertWith]⟩, ?_⟩
    rintro scalar' (⟨hn, -, -⟩ | ⟨hn, -⟩)
    · exact hn hv
    · exact hs.not_nested _ hn
  · cases hf : h.convert? direction with
    | none => exact .inr ⟨scalar, convertWith_lacking hf hv, .here hv hs hf⟩
    | some f =>
      have htotal : ∀ v, ∃ w, f v = .ok w := by
        obtain ⟨_, -, -, hreg⟩ := hs
        exact hr scalar h f hreg hf
      refine .inl ⟨convertWith_total hf htotal v, ?_⟩
      rintro scalar' (⟨-, hs', hf'⟩ | ⟨hn, -⟩)
      · obtain ⟨rfl, rfl⟩ := hs.unique hs'
        exact Option.some_ne_none f (hf.symm.trans hf')
      · exact hs.not_nested _ hn

/-- The value under a key, if values that the walk goes into are reported on. -/
theorem convertAt_blames (hr : r.NeverFails direction) (ht : Entry.treeTypesAreKeys t = true)
    {key v : Datum} (hbelow : ∀ below, t.Nested key below →
      Blames direction (r.walk direction below v) (r.Lacks direction below v)) :
    Blames direction (r.convertAt direction t key v) (r.LacksUnder direction t key v) := by
  rcases r.key_cases t key with ⟨scalar, h, hs⟩ | ⟨below, hn⟩ | hk
  case inl =>
    rw [convertAt_scalar hs]
    exact scalar_blames hr hs
  case inr.inl =>
    rw [convertAt_nested hn]
    refine (hbelow below hn).congr fun scalar => ⟨.nested hn, ?_⟩
    rintro (⟨-, hs, -⟩ | ⟨hn', h⟩)
    · exact absurd hn (hs.not_nested below)
    · exact hn.unique hn' ▸ h
  case inr.inr =>
    refine .inl ⟨⟨v, ?_⟩, ?_⟩
    · rcases convertAt_keeps hk with hok | ⟨-, e, hget, hkey⟩
      · exact hok
      · exact absurd (Entry.isKey_of_get? ht hget) (hkey ▸ Bool.false_ne_true)
    · rintro scalar (⟨-, hs, -⟩ | ⟨hn, -⟩)
      · exact hk.no_scalar _ _ hs
      · exact hk.no_nested _ hn

theorem walkItems_blames : ∀ {items : List Datum},
    (∀ d ∈ items, Blames direction (r.walk direction t d) (r.Lacks direction t d)) →
      Blames direction (r.walkItems direction t items) fun scalar =>
        ∃ d ∈ items, r.Lacks direction t d scalar
  | [], _ => by
    rw [walkItems]
    exact .of_ok fun scalar ⟨_, hd, _⟩ => List.not_mem_nil hd
  | d :: items, h => by
    rw [List.forall_mem_cons] at h
    rw [walkItems]
    refine (h.1.bind fun w => (walkItems_blames h.2).map (w :: ·)).congr fun scalar => ?_
    rw [List.exists_mem_cons_iff]

theorem walkRows_blames : ∀ {rows : List (Datum × Datum)},
    (∀ row ∈ rows, Blames direction (r.convertAt direction t row.1 row.2)
      (r.LacksUnder direction t row.1 row.2)) →
      Blames direction (r.walkRows direction t rows) fun scalar =>
        ∃ row ∈ rows, r.LacksUnder direction t row.1 row.2 scalar
  | [], _ => by
    rw [walkRows]
    exact .of_ok fun scalar ⟨_, hrow, _⟩ => List.not_mem_nil hrow
  | (key, v) :: rows, h => by
    rw [List.forall_mem_cons] at h
    rw [walkRows_cons]
    refine (h.1.bind fun w => (walkRows_blames h.2).map ((key, w) :: ·)).congr fun scalar => ?_
    rw [List.exists_mem_cons_iff]

/-- Induction on the data, as far as they have the shape of the selection. -/
theorem walk_blames (hr : r.NeverFails direction) {d : Datum} (hd : t.Takes d)
    (ht : Entry.treeTypesAreKeys t = true) :
    Blames direction (r.walk direction t d) (r.Lacks direction t d) := by
  induction hd with
  | null =>
    rw [walk]
    exact .of_ok fun scalar h => nomatch h
  | list _ ih =>
    rw [walk]
    exact ((walkItems_blames fun d hd => ih d hd ht).map Datum.list).congr fun _ => lacks_list.symm
  | object _ ih =>
    rw [walk]
    have hrows := walkRows_blames fun row hrow => convertAt_blames hr ht fun below hn =>
      ih row hrow below hn (Entry.typesAreKeys_nested ht hn)
    exact (hrows.map Datum.object).congr fun _ => lacks_object.symm

/-- **A missing function is reported exactly when it is needed.**  Where nothing is lacking the walk
succeeds, and the scalar that is reported is one that lacks the function. -/
theorem walk_raises_iff (hr : r.NeverFails direction) (ht : Entry.treeTypesAreKeys t = true)
    {d : Datum} (hd : t.Takes d) :
    ((∃ scalar, r.walk direction t d = .error (.missingConverter scalar direction)) ↔
        ∃ scalar, r.Lacks direction t d scalar) ∧
      ((¬ ∃ scalar, r.Lacks direction t d scalar) → ∃ w, r.walk direction t d = .ok w) ∧
      ∀ scalar, r.walk direction t d = .error (.missingConverter scalar direction) →
        r.Lacks direction t d scalar := by
  rcases walk_blames hr hd ht with ⟨⟨w, hw⟩, hnone⟩ | ⟨scalar, herror, hlacks⟩
  · refine ⟨⟨?_, ?_⟩, fun _ => ⟨w, hw⟩, ?_⟩
    · rintro ⟨scalar, herror⟩
      exact absurd (herror.symm.trans hw) error_ne_ok
    · rintro ⟨scalar, hlacks⟩
      exact absurd hlacks (hnone scalar)
    · intro scalar herror
      exact absurd (herror.symm.trans hw) error_ne_ok
  · refine ⟨⟨fun _ => ⟨scalar, hlacks⟩, fun _ => ⟨scalar, herror⟩⟩, ?_, ?_⟩
    · exact fun hnone => absurd ⟨scalar, hlacks⟩ hnone
    · intro scalar' herror'
      have he := Except.error.inj (herror.symm.trans herror')
      obtain rfl : scalar = scalar' := by simpa using he
      exact hlacks

end ScalarRegistry

/-! ## 4. A page that cannot be sent -/

namespace Sample

/-- Titles are sent as they are, and tags not at all. -/
def filing : ScalarRegistry := [("Tag", ⟨none, some .ok⟩), ("String", plainHandler)]

/-- Two pages, one of them null, that has no tags and links to a page with tags. -/
def linked (tags : Datum) : Datum :=
  .list [.null, .record [("page", .record [("tags", .null), ("title", .list [.text "Notes"]),
    ("links", .list [.list [.record [("tags", tags)]], .null])])]]

theorem nested_details : pages.Nested (.text "page") details := ⟨_, rfl, nofun⟩

theorem nested_links : details.Nested (.text "links") links := ⟨_, rfl, nofun⟩

theorem neverFails_filing : filing.NeverFails .marshal := by
  intro scalar h f hreg hf v
  rcases List.mem_pair.mp (Table.mem_of_get? hreg) with heq | heq
  · obtain ⟨-, rfl⟩ := Prod.mk.inj heq
    exact absurd hf nofun
  · obtain ⟨-, rfl⟩ := Prod.mk.inj heq
    exact ⟨v, Option.some.inj hf ▸ rfl⟩

theorem takes_linked (tags : Datum) : pages.Takes (linked tags) := by
  refine .list fun d hd => ?_
  rcases List.mem_pair.mp hd with rfl | rfl
  · exact .null
  refine .object fun row hrow page hpage => ?_
  obtain rfl := List.mem_singleton.mp hrow
  obtain rfl := nested_details.unique hpage
  refine .object fun row hrow link hlink => ?_
  simp only [List.map, List.mem_cons, List.not_mem_nil, or_false] at hrow
  obtain rfl | rfl | rfl := hrow
  · exact .null
  · obtain ⟨head, hget, -⟩ := hlink
    exact absurd hget nofun
  obtain rfl := nested_links.unique hlink
  refine .list fun d hd => ?_
  rcases List.mem_pair.mp hd with rfl | rfl
  · refine .list fun d hd => ?_
    obtain rfl := List.mem_singleton.mp hd
    refine .object fun row hrow below hbelow => ?_
    obtain rfl := List.mem_singleton.mp hrow
    obtain ⟨head, hget, -⟩ := hbelow
    exact absurd hget nofun
  · exact .null

end Sample

open Sample in
/-- A link without tags can be sent, but one with a list of no tags cannot. -/
theorem linked_raises :
    filing.NeverFails .marshal ∧ Entry.treeTypesAreKeys pages = true ∧
      (∀ tags, pages.Takes (linked tags)) ∧
      filing.Lacks .marshal pages (linked (.list [])) "Tag" ∧
      filing.walk .marshal pages (linked (.list [])) = .error (.missingConverter "Tag" .marshal) ∧
      (∀ scalar, ¬ filing.Lacks .marshal pages (linked .null) scalar) ∧
      filing.walk .marshal pages (linked .null) = .ok (linked .null) := by
  have htypes : Entry.treeTypesAreKeys pages = true := rfl
  have hempty := ScalarRegistry.walk_raises_iff neverFails_filing htypes (takes_linked (.list []))
  have hnull := ScalarRegistry.walk_raises_iff neverFails_filing htypes (takes_linked .null)
  refine ⟨neverFails_filing, htypes, takes_linked, hempty.2.2 "Tag" rfl, rfl, fun scalar h => ?_,
    rfl⟩
  obtain ⟨scalar, herror⟩ := hnull.1.mpr ⟨scalar, h⟩
  exact absurd herror nofun

end QueryCompiler
