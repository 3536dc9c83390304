import QueryCompiler.Proofs.Artifact.Places
import QueryCompiler.Proofs.Scalar.RoundTrip
import QueryCompiler.Proofs.Selection.OpenPaths
import QueryCompiler.Proofs.Selection.Pieces
/-
# Responses are converted as they are declared

An artifact keeps the name of a field's type and forgets the lists around it; the walk finds these
again in the response.  For a response that is shaped as the schema declares it (`Response.Fits`)
what comes out is nevertheless what the declarations say (`Response.converted`): every leaf of a
registered scalar is converted once, by the function of its handler, at the depth at which it is
declared to stand, and everything else stays.

Two things are not as they are declared.  A scalar that is a list itself, where no list is declared,
is converted item by item (`Datum.depth`).  And the fields under one key, which may be different
ones on different types, are all converted as the first of them (`scalarAt`).  Of a response in
which a registered scalar stands in a list of lists nothing is said (`Response.isFlatFor`).

* `ScalarRegistry.walk_converted`: the walk along the tree of an expansion;
* `ArtifactContext.compile_responses`: the same for the selection of an artifact.
-/
namespace QueryCompiler

/-! ## 1. Lists around a value -/

namespace TypeRef

/-- The number of lists around a value of the type. -/
def wrappers : TypeRef → Nat
  | .named _ => 0
  | .list item => item.wrappers + 1
  | .nonNull inner => inner.wrappers

/-- The type of the items, if values of the type are lists. -/
def item? : TypeRef → Option TypeRef
  | .named _ => none
  | .list item => some item
  | .nonNull inner => inner.item?

end TypeRef

namespace Datum

/-- So many lists in each other; null may be in any place. -/
def Nested : Nat → Datum → Prop
  | 0, _ => True
  | _ + 1, .null => True
  | n + 1, .list items => ∀ d ∈ items, d.Nested n
  | _ + 1, _ => False

/-- How many lists stand around the leaves of a value that is declared to stand in so many lists.
Outside of lists, a scalar that is a list itself is not a leaf, but a list of leaves. -/
def depth (wrappers : Nat) (d : Datum) : Nat := if d.isList then max 1 wrappers else wrappers

/-- No list stands in another one. -/
def isFlat : Datum → Bool
  | .list items => items.all fun d => !d.isList
  | _ => true

/-- A single value is not as deep as a list, unless it is null. -/
theorem Nested.eq_null {n : Nat} {d : Datum} (h : d.Nested (n + 1)) (hl : d.isList = false) :
    d = .null := by
  cases d with
  | null => rfl
  | list items => cases hl
  | _ => exact absurd h id

/-- Where lists of lists are declared, a flat list has nothing but nulls. -/
theorem Nested.items_eq_null {n : Nat} {items : List Datum} (h : (list items).Nested (n + 2))
    (hflat : (list items).isFlat = true) : ∀ d ∈ items, d = .null := by
  intro d hd
  have hl : d.isList = false := (Bool.not_eq_true' _).mp (List.all_eq_true.mp hflat d hd)
  exact Nested.eq_null (h d hd) hl

end Datum

/-- The conversion of what stands in so many lists.  Null stays null. -/
def Convert.under (f : Convert) : Nat → Convert
  | _, .null => .ok .null
  | 0, d => f d
  | n + 1, .list items => do return .list (← items.mapM (f.under n))
  | _ + 1, d => .ok d

theorem Convert.under_zero (f : Convert) : f.under 0 = ScalarRegistry.convertItem f := by
  funext d
  cases d <;> rfl

/-- A list of nulls stays what it is. -/
theorem mapM_nulls {f : Convert} (hf : f .null = .ok .null) {items : List Datum}
    (h : ∀ d ∈ items, d = .null) : items.mapM f = .ok items :=
  mapM_eq_ok.mpr (List.forall₂_same.mpr fun d hd => by rw [h d hd, hf])

/-- The items of a list are converted as they are where they stand in one list, and if there are no
lists among them, also where they stand in more: there they are nulls. -/
theorem Convert.mapM_under {f : Convert} {n : Nat} {items : List Datum}
    (hflat : n = 0 ∨ (Datum.list items).isFlat = true) (h : (Datum.list items).Nested (n + 1)) :
    items.mapM (f.under n) = items.mapM (ScalarRegistry.convertItem f) := by
  cases n with
  | zero => rw [under_zero]
  | succ n =>
    have hnulls := h.items_eq_null (hflat.resolve_left n.succ_ne_zero)
    rw [mapM_nulls (by rw [under]) hnulls, mapM_nulls (by rfl) hnulls]

/-- **A value without lists of lists** is converted at the depth at which its leaves stand. -/
theorem ScalarRegistry.convertWith_under {scalar : String} {h : Handler} {direction : Direction}
    {n : Nat} {v : Datum} (hflat : n ≤ 1 ∨ v.isFlat = true) (hnull : v ≠ .null)
    (hnested : v.Nested (v.depth n)) :
    convertWith scalar h direction v
      = (do (← converter scalar h direction).under (v.depth n) v) := by
  cases hl : v.isList with
  | true =>
    obtain ⟨items, rfl⟩ := Datum.exists_of_isList hl
    obtain ⟨k, hdepth⟩ : ∃ k, (Datum.list items).depth n = k + 1 :=
      ⟨n - 1, by rw [Datum.depth, if_pos hl]; omega⟩
    have hone : k = 0 ∨ (Datum.list items).isFlat = true := hflat.imp_left fun hn => by
      rw [Datum.depth, if_pos hl] at hdepth
      omega
    rw [hdepth] at hnested
    rw [hdepth, convertWith]
    simp only [Convert.under, Convert.mapM_under hone hnested]
  | false =>
    have hdepth : v.depth n = n := by rw [Datum.depth, hl, if_neg Bool.false_ne_true]
    have hzero : n = 0 := by
      rw [hdepth] at hnested
      cases n with
      | zero => rfl
      | succ n => exact absurd (hnested.eq_null hl) hnull
    subst hzero
    rw [hdepth, convertWith_single hnull hl]
    simp only [Convert.under_zero, convertItem_of_ne_null hnull]

/-! ## 2. Responses -/

/-- A response, with what is declared of its leaves. -/
inductive Response where
  | null
  /-- The value of a field without selections: a scalar, declared to stand in so many lists. -/
  | leaf (scalar : String) (wrappers : Nat) (value : Datum)
  | list (items : List Response)
  | object (rows : List (String × Response))

namespace Response

mutual

/-- The data of a response. -/
def datum : Response → Datum
  | .null => .null
  | .leaf _ _ value => value
  | .list items => .list (dataOf items)
  | .object rows => .object (rowsOf rows)

def dataOf : List Response → List Datum
  | [] => []
  | response :: items => response.datum :: dataOf items

def rowsOf : List (String × Response) → List (Datum × Datum)
  | [] => []
  | (key, response) :: rows => (.text key, response.datum) :: rowsOf rows

end

mutual

/-- The data of a response with the leaves of registered scalars converted as they are declared.
The function of a handler has to be there for any value, even for one without leaves. -/
def converted (r : ScalarRegistry) (direction : Direction) : Response → Except Error Datum
  | .null => .ok .null
  | .leaf scalar wrappers value =>
    match Table.get? r scalar with
    | none => .ok value
    | some h => do
      (← ScalarRegistry.converter scalar h direction).under (value.depth wrappers) value
  | .list items => do return .list (← convertedItems r direction items)
  | .object rows => do return .object (← convertedRows r direction rows)

def convertedItems (r : ScalarRegistry) (direction : Direction) :
    List Response → Except Error (List Datum)
  | [] => .ok []
  | response :: items => do
    return (← response.converted r direction) :: (← convertedItems r direction items)

def convertedRows (r : ScalarRegistry) (direction : Direction) :
    List (String × Response) → Except Error (List (Datum × Datum))
  | [] => .ok []
  | (key, response) :: rows => do
    return (.text key, ← response.converted r direction) :: (← convertedRows r direction rows)

end

mutual

/-- Registered scalars do not stand in lists of lists.  They may be declared to, where the response
has null or a list of nulls. -/
def isFlatFor (r : ScalarRegistry) : Response → Bool
  | .null => true
  | .leaf scalar wrappers value =>
    (Table.get? r scalar).isNone || wrappers ≤ 1 || value.isFlat
  | .list items => itemsFlatFor r items
  | .object rows => rowsFlatFor r rows

def itemsFlatFor (r : ScalarRegistry) : List Response → Bool
  | [] => true
  | response :: items => response.isFlatFor r && itemsFlatFor r items

def rowsFlatFor (r : ScalarRegistry) : List (String × Response) → Bool
  | [] => true
  | (_, response) :: rows => response.isFlatFor r && rowsFlatFor r rows

end

end Response

/-- The type that the field of a place is declared with. -/
def Occurrence.type? (s : Schema) (o : Occurrence) : Option TypeRef :=
  if o.field.name = typenameField then some (.nonNull (.named "String"))
  else (s.fieldAt o.site.ancestors o.field.name).map (·.type)

/-- The scalar at a path: the type of the first field there. -/
def scalarAt (s : Schema) (os : List Occurrence) (p : List String) : Option String :=
  ((os.find? fun o => o.path = p).bind (·.type? s)).map TypeRef.base

namespace Response

variable (s : Schema) (os : List Occurrence)

mutual

/-- The response at a path is shaped as a type declares: null, or a list where the type is one.  An
object answers selections, key by key; where nothing is selected, there is a leaf. -/
def Fits (p : List String) (t : TypeRef) : Response → Prop
  | .null => True
  | .leaf scalar wrappers value =>
    keysAt os p = none ∧ (scalar ≠ "" ∧ scalarAt s os p = some scalar) ∧ wrappers = t.wrappers ∧
      value ≠ .null ∧ value.Nested (value.depth wrappers)
  | .list items => keysAt os p ≠ none ∧ ∃ item, t.item? = some item ∧ ItemsFit p item items
  | .object rows => keysAt os p ≠ none ∧ t.item? = none ∧ RowsFit p rows

def ItemsFit (p : List String) (t : TypeRef) : List Response → Prop
  | [] => True
  | response :: items => response.Fits p t ∧ ItemsFit p t items

/-- Every row answers a field that is selected there. -/
def RowsFit (p : List String) : List (String × Response) → Prop
  | [] => True
  | (key, response) :: rows =>
    (∃ o ∈ os, o.path = p ++ [key] ∧ ∃ t, o.type? s = some t ∧ response.Fits (p ++ [key]) t) ∧
      RowsFit p rows

end

end Response

/-! ## 3. The walk along an expansion -/

/-- Storing a selection keeps its keys. -/
theorem SelectionTree.get?_stored (k : String) : ∀ t : SelectionTree,
    Table.get? t.stored (.text k) = (Table.get? t k).map (Entry.map .text EntryHead.stored)
  | [] => rfl
  | (k', e) :: t => by
    have hkey : ((.text k' : Datum) == .text k) = (k' == k) := rfl
    rw [SelectionTree.stored, Entry.mapTree, Table.get?, Table.get?, hkey]
    split
    · rfl
    · exact get?_stored k t

/-- The tree says of every path what the places of an expansion are declared as. -/
structure SelectionTree.Declares (t : SelectionTree) (s : Schema) (os : List Occurrence) :
    Prop where
  keys : ∀ p, Entry.keysAt? t p = keysAt os p
  entries : ∀ o ∈ os, o.path ≠ [] ∧ ∃ e, Entry.at? t o.path = some e
  typed : ∀ p e, Entry.at? t p = some e → ∃ type, e.head.type = some type ∧
    ∀ scalar, scalar ≠ "" → scalarAt s os p = some scalar → type = scalar

namespace ScalarRegistry

variable {r : ScalarRegistry} {s : Schema} {os : List Occurrence} {t : SelectionTree}
  {direction : Direction}

/-- Where nothing is selected a value is converted as the scalar at its path. -/
theorem convert_converted {p : List String} (hkeys : keysAt os p = none) {ty : TypeRef}
    {response : Response} (hfits : response.Fits s os p ty) (hflat : response.isFlatFor r = true)
    {type : String}
    (htype : ∀ scalar, scalar ≠ "" → scalarAt s os p = some scalar → type = scalar) :
    r.convert (.text type) direction response.datum = response.converted r direction := by
  cases response with
  | null =>
    rw [Response.datum, Response.converted, convert, handler?]
    cases Table.get? r type <;> rfl
  | leaf scalar wrappers value =>
    rw [Response.Fits] at hfits
    obtain ⟨-, ⟨hname, hscalar⟩, rfl, hnull, hnested⟩ := hfits
    obtain rfl := htype scalar hname hscalar
    rw [Response.datum, Response.converted, convert, handler?]
    cases hget : Table.get? r type with
    | none => rfl
    | some h =>
      rw [Response.isFlatFor, hget, Option.isNone_some, Bool.false_or, Bool.or_eq_true,
        decide_eq_true_iff] at hflat
      exact convertWith_under hflat hnull hnested
  | list items =>
    rw [Response.Fits] at hfits
    exact absurd hkeys hfits.1
  | object rows =>
    rw [Response.Fits] at hfits
    exact absurd hkeys hfits.1

/-- The value under a key is converted as it is declared, if values that the walk goes into are. -/
theorem convertAt_converted (ht : t.Declares s os) {o : Occurrence} (ho : o ∈ os)
    {p : List String} {key : String} (hpath : o.path = p ++ [key]) {ty : TypeRef}
    {response : Response} (hfits : response.Fits s os o.path ty)
    (hflat : response.isFlatFor r = true) {below : SelectionTree}
    (hbelow : Entry.subtree? t p = some below)
    (hwalk : ∀ fields : SelectionTree, Entry.subtree? t (p ++ [key]) = some fields →
      r.walk direction fields.stored response.datum = response.converted r direction) :
    r.convertAt direction below.stored (.text key) response.datum
      = response.converted r direction := by
  obtain ⟨hne, e, he⟩ := ht.entries o ho
  obtain ⟨type, htype, hscalar⟩ := ht.typed o.path e he
  have hget : Table.get? below key = some e := by
    rw [← he, hpath, Entry.at?_concat, hbelow, Option.bind_some]
  have hsub : Entry.subtree? t o.path = e.fields := by
    rw [Entry.subtree?_eq_bind t hne, he, Option.bind_some]
  rw [← hpath] at hwalk
  rw [convertAt, SelectionTree.get?_stored, hget]
  obtain ⟨head, fields⟩ := e
  have hgiven : head.stored.type.given = some (.text type) := by
    have htype : head.type = some type := htype
    rw [EntryHead.stored, htype]
    rfl
  cases fields with
  | none =>
    have hkeys : keysAt os o.path = none := by rw [← ht.keys, Entry.keysAt?, hsub]; rfl
    rw [Option.map_some, Entry.map, Entry.mapFields]
    simp only [hgiven]
    exact convert_converted hkeys hfits hflat hscalar
  | some fields =>
    rw [Option.map_some, Entry.map, Entry.mapFields]
    simp only [hgiven]
    exact hwalk fields hsub

mutual

/-- **The walk converts a response as it is declared.**  The induction is on the response: it goes
down the tree as long as there are selections, and what has none is a leaf. -/
theorem walk_converted (ht : t.Declares s os) :
    ∀ (response : Response) {p : List String} {ty : TypeRef} {below : SelectionTree},
      response.Fits s os p ty → response.isFlatFor r = true → Entry.subtree? t p = some below →
      r.walk direction below.stored response.datum = response.converted r direction
  | .null, p, ty, below, _, _, _ => by rw [Response.datum, walk, Response.converted]
  | .leaf scalar wrappers value, p, ty, below, hfits, _, hbelow => by
    rw [Response.Fits, ← ht.keys, Entry.keysAt?, hbelow] at hfits
    exact absurd hfits.1 nofun
  | .list items, p, ty, below, hfits, hflat, hbelow => by
    rw [Response.Fits] at hfits
    obtain ⟨-, item, -, hitems⟩ := hfits
    rw [Response.isFlatFor] at hflat
    rw [Response.datum, walk, Response.converted,
      walkItems_converted ht items hitems hflat hbelow]
  | .object rows, p, ty, below, hfits, hflat, hbelow => by
    rw [Response.Fits] at hfits
    rw [Response.isFlatFor] at hflat
    rw [Response.datum, walk, Response.converted,
      walkRows_converted ht rows hfits.2.2 hflat hbelow]

theorem walkItems_converted (ht : t.Declares s os) :
    ∀ (items : List Response) {p : List String} {ty : TypeRef} {below : SelectionTree},
      Response.ItemsFit s os p ty items → Response.itemsFlatFor r items = true →
      Entry.subtree? t p = some below →
      r.walkItems direction below.stored (Response.dataOf items)
        = Response.convertedItems r direction items
  | [], p, ty, below, _, _, _ => by rw [Response.dataOf, walkItems, Response.convertedItems]
  | response :: items, p, ty, below, hfits, hflat, hbelow => by
    rw [Response.ItemsFit] at hfits
    rw [Response.itemsFlatFor, Bool.and_eq_true] at hflat
    rw [Response.dataOf, walkItems, Response.convertedItems,
      walk_converted ht response hfits.1 hflat.1 hbelow,
      walkItems_converted ht items hfits.2 hflat.2 hbelow]

theorem walkRows_converted (ht : t.Declares s os) :
    ∀ (rows : List (String × Response)) {p : List String} {below : SelectionTree},
      Response.RowsFit s os p rows → Response.rowsFlatFor r rows = true →
      Entry.subtree? t p = some below →
      r.walkRows direction below.stored (Response.rowsOf rows)
        = Response.convertedRows r direction rows
  | [], p, below, _, _, _ => by rw [Response.rowsOf, walkRows, Response.convertedRows]
  | (key, response) :: rows, p, below, hfits, hflat, hbelow => by
    rw [Response.RowsFit] at hfits
    rw [Response.rowsFlatFor, Bool.and_eq_true] at hflat
    obtain ⟨⟨o, ho, hpath, ty, -, hfits⟩, hrest⟩ := hfits
    have hvalue : r.convertAt direction below.stored (.text key) response.datum
        = response.converted r direction :=
      convertAt_converted ht ho hpath (hpath ▸ hfits) hflat.1 hbelow fun fields hfields =>
        walk_converted ht response hfits hflat.1 hfields
    rw [Response.rowsOf, walkRows_cons, Response.convertedRows, hvalue,
      walkRows_converted ht rows hrest hflat.2 hbelow]

end

end ScalarRegistry

/-! ## 4. Artifacts -/

/-- A place gives its entry the type that its field is declared with. -/
theorem Compilation.HeadOf.type {x : Compilation} {o : Occurrence} {h : EntryHead}
    (hh : x.HeadOf o h) : ∃ t, o.type? x.config.schema = some t ∧ h.type = some t.base := by
  rw [HeadOf] at hh
  rw [Occurrence.type?]
  split at hh
  · rename_i hname
    rw [if_pos hname, hh]
    exact ⟨_, rfl, rfl⟩
  · rename_i hname
    obtain ⟨f, key, hf, -, hh⟩ := hh
    have hfield : x.config.schema.fieldAt o.site.ancestors o.field.name = some f :=
      definition_eq_ok hf
    rw [if_neg hname, hfield]
    exact ⟨_, rfl, (entryHead_type_cacheKey hh).1⟩

/-- The first place with a path gives the type there, if it has a name. -/
theorem EntryHead.merge_type {a b : EntryHead} {type : String} (ha : a.type = some type)
    (hne : type ≠ "") : (a.merge b).type = some type := by
  rw [merge, ha, firstText, if_neg (by simpa using hne)]

/-- **A compiled selection declares its places.** -/
theorem Shows.declares {x : Compilation} {fragment? : String → Option Fragment} {site : Site}
    {ss : List Selection} {rows : List Row} {t : SelectionTree} (h : Shows t rows)
    (hrows : x.Rows fragment? site ss rows) : t.Declares x.config.schema (places rows) where
  keys := h.keys
  entries o ho := by
    refine ⟨h.rooted.path_ne_nil ho, ?_⟩
    obtain ⟨row, hrow, rfl⟩ := List.mem_map.mp ho
    have hhead := headOf_ne_none hrow rfl
    rw [← h.heads, Entry.headAt?, ne_eq, Option.map_eq_none_iff] at hhead
    exact Option.ne_none_iff_exists'.mp hhead
  typed p e he := by
    have hhead := h.headOf_at he
    have hsome : e.head.type.isSome = true := by
      refine headOf_forall (P := fun h => h.type.isSome = true) (fun a b ha hb => ?_)
        (fun row hrow => ?_) hhead
      · obtain ⟨type, htype⟩ := Option.isSome_iff_exists.mp ha
        rw [EntryHead.merge, htype, EntryHead.firstText]
        split
        · exact hb
        · rfl
      · obtain ⟨ty, -, htype⟩ := (hrows.heads row hrow).type
        rw [htype]
        rfl
    obtain ⟨type, htype⟩ := Option.isSome_iff_exists.mp hsome
    refine ⟨type, htype, fun scalar hne hscalar => ?_⟩
    obtain ⟨first, hmem, -, hfirst, hmerged⟩ := headOf_first hhead
    obtain ⟨ty, hty, hfirstType⟩ := (hrows.heads first hmem).type
    rw [scalarAt, hfirst, Option.bind_some, hty, Option.map_some, Option.some.injEq] at hscalar
    rw [hscalar] at hfirstType
    rcases hmerged with hmerged | ⟨rest, hmerged⟩
    · rw [hmerged, hfirstType] at htype
      exact (Option.some.inj htype).symm
    · rw [hmerged, EntryHead.merge_type hfirstType hne] at htype
      exact (Option.some.inj htype).symm

/-- **How a response is converted.** -/
theorem ArtifactContext.compile_responses {x : ArtifactContext} {d : Document} {a : Artifact}
    (h : x.compile d = .ok a) :
    ∃ main others os, x.compiledDefinitions d = .ok (main, others) ∧
      Expands (Table.get? (x.compilation d main others).trimmed.fragments)
        { fragment := none, ancestors := [main.ancestor] } (trimAll main.selections) os ∧
      ∀ (r : ScalarRegistry) (response : Response),
        response.Fits x.config.schema os [] (.named a.rootType) → response.isFlatFor r = true →
          r.unmarshal a.selection.stored response.datum = response.converted r .unmarshal := by
  obtain ⟨main, others, rows, hdefs, hrows, hshows⟩ := compile_shows_trimmed h
  refine ⟨main, others, places rows, hdefs, hrows.expands, fun r response hfits hflat => ?_⟩
  exact ScalarRegistry.walk_converted (hshows.declares hrows) response hfits hflat rfl

/-! ## 5. A profile -/

namespace Sample

/-- Users have tags of any shape, a list of holidays, the dates of weeks, and a board of numbers. -/
def profiles : Schema :=
  { types := [.scalar "Int", .scalar "Date", .scalar "JSON",
      .object "User" [] [⟨"tags", some [], .named "JSON"⟩,
        ⟨"holidays", some [], .nonNull (.list (.named "Date"))⟩,
        ⟨"weeks", some [], .list (.list (.named "Date"))⟩,
        ⟨"board", some [], .list (.list (.named "Int"))⟩,
        ⟨"friends", some [], .list (.named "User")⟩],
      .object "Query" [] [⟨"user", some [], .named "User"⟩]]
    query := some "Query", mutation := none, subscription := none }

/-- A user with holidays, weeks, a board, and friends with tags. -/
def profile : Document :=
  operation .query "Profile" [plainField "user"
    [plainField "holidays" [], plainField "weeks" [], plainField "board" [],
      plainField "friends" [plainField "tags" []]]]

/-- What the artifact of this query is compiled with. -/
def profiling : ArtifactContext := .ofDocuments (config profiles) [] [profile]

def wrapped (d : Datum) : Datum := .record [("wrapped", d)]

/-- Dates and tags are read by putting them into an object. -/
def wrapping : ScalarRegistry :=
  [("Date", ⟨none, some fun d => .ok (wrapped d)⟩), ("JSON", ⟨none, some fun d => .ok (wrapped d)⟩)]

/-- The profile of a user with one holiday, no week that is known, a board of one number, and a
friend with two tags. -/
def profileResponse : Response :=
  .object [("user", .object
    [("holidays", .leaf "Date" 1 (.list [.text "2000-01-01", .null])),
      ("weeks", .leaf "Date" 2 (.list [.null])),
      ("board", .leaf "Int" 2 (.list [.list [.int 1]])),
      ("friends", .list [.null, .object [("tags", .leaf "JSON" 0 (.list [.int 1, .int 2]))]])])]

/-- The dates are wrapped one by one, and so are the tags. -/
def profileRead : Datum :=
  .object [(.text "user", .object
    [(.text "holidays", .list [wrapped (.text "2000-01-01"), .null]),
      (.text "weeks", .list [.null]),
      (.text "board", .list [.list [.int 1]]),
      (.text "friends", .list
        [.null, .object [(.text "tags", .list [wrapped (.int 1), wrapped (.int 2)])]])])]

end Sample

/-- A row that is shaped as the first field of its path is declared. -/
theorem Response.RowsFit.cons {s : Schema} {os : List Occurrence} {p : List String} {key : String}
    {o : Occurrence} {t : TypeRef} {response : Response} {rows : List (String × Response)}
    (ho : os.find? (fun o => o.path = p ++ [key]) = some o) (ht : o.type? s = some t)
    (hfits : response.Fits s os (p ++ [key]) t) (hrows : RowsFit s os p rows) :
    RowsFit s os p ((key, response) :: rows) := by
  have hpath : o.path = p ++ [key] := by simpa using List.find?_some ho
  rw [RowsFit]
  exact ⟨⟨o, List.mem_of_find?_eq_some ho, hpath, t, ht, hfits⟩, hrows⟩

open Sample in
theorem profile_read :
    ∃ a, profiling.compile profile = .ok a ∧
      wrapping.unmarshal a.selection.stored profileResponse.datum = .ok profileRead := by
  have hok : ((profiling.compile profile).toOption.any fun a => a.rootType = "Query") = true := by
    decide +kernel
  cases h : profiling.compile profile with
  | error e => rw [h] at hok; exact absurd hok nofun
  | ok a =>
    have hroot : a.rootType = "Query" := by simpa [h, Except.toOption] using hok
    obtain ⟨main, others, os, hdefs, hos, hread⟩ := ArtifactContext.compile_responses h
    obtain ⟨rfl, rfl⟩ : main = _ ∧ others = _ := by
      have : profiling.compiledDefinitions profile = .ok (_, _) := rfl
      rw [this] at hdefs
      exact ⟨(Prod.mk.inj (Except.ok.inj hdefs)).1.symm, (Prod.mk.inj (Except.ok.inj hdefs)).2.symm⟩
    obtain rfl := hos.unique
      (.field (.field .nil (.field .nil (.field .nil (.field (.field .nil .nil) .nil)))) .nil)
    refine ⟨a, rfl, (hread wrapping profileResponse ?_ (by decide)).trans rfl⟩
    have hopen {os : List Occurrence} {p : List String} {keys : List String}
        (hkeys : keysAt os p = some keys) : keysAt os p ≠ none := hkeys ▸ Option.some_ne_none keys
    refine ⟨hopen rfl, rfl, .cons rfl rfl ?_ trivial⟩
    refine ⟨hopen rfl, rfl, .cons rfl rfl ?holidays <| .cons rfl rfl ?weeks <|
      .cons rfl rfl ?board <| .cons rfl rfl ?friends trivial⟩
    case holidays =>
      refine ⟨rfl, ⟨by decide, rfl⟩, rfl, nofun, fun d hd => ?_⟩
      rcases List.mem_pair.mp hd with rfl | rfl <;> trivial
    case weeks =>
      refine ⟨rfl, ⟨by decide, rfl⟩, rfl, nofun, fun d hd => ?_⟩
      obtain rfl := List.mem_singleton.mp hd
      trivial
    case board =>
      refine ⟨rfl, ⟨by decide, rfl⟩, rfl, nofun, fun d hd => ?_⟩
      obtain rfl := List.mem_singleton.mp hd
      exact fun _ _ => trivial
    case friends =>
      refine ⟨hopen rfl, _, rfl, trivial, ⟨hopen rfl, rfl, .cons rfl rfl ?_ trivial⟩, trivial⟩
      refine ⟨rfl, ⟨by decide, rfl⟩, rfl, nofun, fun d hd => ?_⟩
      rcases List.mem_pair.mp hd with rfl | rfl <;> trivial

namespace Sample

/-- The data of a user with a friend, whose tags are given. -/
def tagged (tags : Datum) : Datum :=
  .object [(.text "user", .object
    [(.text "friends", .list [.object [(.text "tags", tags)]])])]

end Sample

open Sample in
/-- Tags are declared as one scalar, but a list of tags is not converted as one. -/
theorem tags_apart :
    ∃ a, profiling.compile profile = .ok a ∧
      (∃ main others os, profiling.compiledDefinitions profile = .ok (main, others) ∧
        Expands (Table.get? (profiling.compilation profile main others).trimmed.fragments)
          { fragment := none, ancestors := [main.ancestor] } (trimAll main.selections) os ∧
        ∃ o ∈ os, o.path = ["user", "friends", "tags"] ∧ o.type? profiles = some (.named "JSON")) ∧
      wrapping.unmarshal a.selection.stored (tagged (.list [.int 1, .int 2]))
        = .ok (tagged (.list [wrapped (.int 1), wrapped (.int 2)])) ∧
      wrapping.unmarshal a.selection.stored (tagged (.list [.int 1, .int 2]))
        ≠ .ok (tagged (wrapped (.list [.int 1, .int 2]))) := by
  have hread : (profiling.compile profile).toOption.map (fun a =>
      wrapping.unmarshal a.selection.stored (tagged (.list [.int 1, .int 2])))
        = some (.ok (tagged (.list [wrapped (.int 1), wrapped (.int 2)]))) := by rfl
  cases h : profiling.compile profile with
  | error e => rw [h] at hread; exact absurd hread nofun
  | ok a =>
    rw [h] at hread
    have hread : wrapping.unmarshal a.selection.stored _ = _ := Option.some.inj hread
    refine ⟨a, rfl, ⟨_, _, _, rfl,
      .field (.field .nil (.field .nil (.field .nil (.field (.field .nil .nil) .nil)))) .nil,
      ?_⟩, hread, ?_⟩
    · exact ⟨_, .tail _ (.tail _ (.tail _ (.tail _ (.tail _ (.head _))))), rfl, rfl⟩
    · rw [hread]
      exact nofun

end QueryCompiler
