import QueryCompiler.Proofs.Scalar.Paths
/-
# A walk touches registered scalars only

What a walk makes of data is told path by path (`ScalarRegistry.Replaces`).  A path is convertible
when its keys lead to a registered scalar.  The value at such a path is converted by the handler of
the scalar, item by item if it is a list.  Everything that is not inside of a converted value stays
as it is: null stays null, lists keep their length, objects keep their keys in order, and any other
value is the one from before.

`walk_replaces` says that the result of a walk is the only datum with these properties.  Both halves
of it go down the data one level at a time (`replaces_list`, `replaces_object`).
-/
namespace QueryCompiler

/-! ## 1. What is said of one value -/

theorem getElem?_of_forall₂ {α β : Type} {R : α → β → Prop} {as : List α} {bs : List β}
    (h : List.Forall₂ R as bs) {i : Nat} {a : α} (ha : as[i]? = some a) :
    ∃ b, bs[i]? = some b ∧ R a b := by
  obtain ⟨hlength, hall⟩ := List.forall₂_iff_get.mp h
  obtain ⟨hi, rfl⟩ := List.getElem?_eq_some_iff.mp ha
  have hi' : i < bs.length := hlength ▸ hi
  exact ⟨bs[i], List.getElem?_eq_getElem hi', hall i hi hi'⟩

theorem forall₂_of_getElem? {α β : Type} {R : α → β → Prop} {as : List α} {bs : List β}
    (hlength : as.length = bs.length)
    (h : ∀ (i : Nat) a b, as[i]? = some a → bs[i]? = some b → R a b) : List.Forall₂ R as bs :=
  List.forall₂_iff_get.mpr ⟨hlength, fun i hi hi' =>
    h i _ _ (List.getElem?_eq_getElem hi) (List.getElem?_eq_getElem hi')⟩

/-- The result is like the value from before, as far as the value itself goes: what is inside lists
and objects is told at the paths that lead there. -/
def Datum.SameHere : Datum → Datum → Prop
  | .list items, w => ∃ items', w = .list items' ∧ items'.length = items.length
  | .object rows, w => ∃ rows', w = .object rows' ∧ rows'.map (·.1) = rows.map (·.1)
  | d, w => w = d

theorem Datum.sameHere_refl : ∀ d : Datum, d.SameHere d
  | .list items => ⟨items, rfl, rfl⟩
  | .object rows => ⟨rows, rfl, rfl⟩
  | .null | .undefined | .bool _ | .int _ | .float _ | .text _ | .moment _ | .date _
  | .uuid _ => rfl

/-- What a handler makes of the value of its scalar: null stays null, of a list every item but null
is converted, and any other value is. -/
def Handler.Makes (h : Handler) (direction : Direction) : Datum → Datum → Prop
  | .null, w => w = .null
  | .list items, w => ∃ f items', h.convert? direction = some f ∧ w = .list items' ∧
      List.Forall₂ (fun v v' => v = .null ∧ v' = .null ∨ v ≠ .null ∧ f v = .ok v') items items'
  | d, w => ∃ f, h.convert? direction = some f ∧ f d = .ok w

namespace ScalarRegistry

theorem convertItem_eq_ok {f : Convert} {v v' : Datum} :
    convertItem f v = .ok v' ↔ v = .null ∧ v' = .null ∨ v ≠ .null ∧ f v = .ok v' := by
  by_cases hn : v = .null
  · subst hn
    simp only [convertItem, Except.ok.injEq, ne_eq, not_true_eq_false, false_and, or_false,
      true_and]
    exact eq_comm
  · simp only [convertItem_of_ne_null hn, hn, false_and, false_or, ne_eq, not_false_eq_true,
      true_and]

theorem convertWith_eq_ok {scalar : String} {h : Handler} {direction : Direction} {w : Datum} :
    ∀ {v : Datum}, convertWith scalar h direction v = .ok w ↔ h.Makes direction v w
  | .null => by rw [convertWith, Except.ok.injEq, Handler.Makes, eq_comm]
  | .list items => by
    simp only [convertWith, bind_eq_ok, pure_eq_ok, converter_eq_ok, mapM_eq_ok, convertItem_eq_ok,
      Handler.Makes]
    constructor
    · rintro ⟨f, hf, items', hitems, rfl⟩
      exact ⟨f, items', hf, rfl, hitems⟩
    · rintro ⟨f, items', hf, rfl, hitems⟩
      exact ⟨f, hf, items', hitems, rfl⟩
  | .undefined | .bool _ | .int _ | .float _ | .text _ | .moment _ | .date _ | .uuid _
  | .object _ => by simp only [convertWith, bind_eq_ok, converter_eq_ok, Handler.Makes]

/-! ## 2. What is said of all data -/

/-- A path whose keys lead to a registered scalar.  Places in lists do not count. -/
def Converts (r : ScalarRegistry) (t : StoredTree) (p : List DataStep) (scalar : String)
    (h : Handler) : Prop :=
  r.LeadsTo t (DataStep.keys p) scalar h

/-- A path that does not lead to a converted value, nor into one. -/
def Outside (r : ScalarRegistry) (t : StoredTree) (p : List DataStep) : Prop :=
  ∀ q, q <+: p → ∀ scalar h, ¬ r.Converts t q scalar h

/-- The second datum is the first one with the values at convertible paths replaced.  A path to an
item of a list of scalars is convertible as well, but it leads into what is converted as a whole:
what becomes of the items is part of what becomes of the list. -/
structure Replaces (r : ScalarRegistry) (direction : Direction) (t : StoredTree) (d w : Datum) :
    Prop where
  outside : ∀ {p v}, d.Has p v → r.Outside t p → ∃ v', w.Has p v' ∧ v.SameHere v'
  converted : ∀ {p i key v scalar h}, d.Has (p ++ [.row i key]) v →
    r.Converts t (p ++ [.row i key]) scalar h →
      ∃ v', w.Has (p ++ [.row i key]) v' ∧ h.Makes direction v v'

section Paths

variable {r : ScalarRegistry} {t : StoredTree} {p : List DataStep} {scalar : String} {h : Handler}

theorem outside_nil (r : ScalarRegistry) (t : StoredTree) : r.Outside t [] := by
  intro q hq scalar h
  rw [List.prefix_nil.mp hq]
  exact not_leadsTo_nil

theorem outside_item {i : Nat} : r.Outside t (.item i :: p) ↔ r.Outside t p := by
  constructor
  · exact fun ho q hq => ho (.item i :: q) ((List.prefix_cons_inj _).mpr hq)
  · intro ho q hq
    rcases List.prefix_cons_iff.mp hq with rfl | ⟨q, rfl, hq'⟩
    · exact fun _ _ => not_leadsTo_nil
    · exact ho q hq'

theorem outside_row {i : Nat} {key : Datum} : r.Outside t (.row i key :: p) ↔
    (∀ scalar h, ¬ r.IsScalar t key scalar h) ∧
      ∀ below, t.Nested key below → r.Outside below p := by
  constructor
  · intro ho
    refine ⟨fun scalar h hs => ?_, fun below hn q hq scalar h hc => ?_⟩
    · exact ho [.row i key] ((List.prefix_cons_inj _).mpr List.nil_prefix) scalar h
        (leadsTo_cons.mpr (.inl ⟨rfl, hs⟩))
    · exact ho (.row i key :: q) ((List.prefix_cons_inj _).mpr hq) scalar h
        (leadsTo_cons.mpr (.inr ⟨below, hn, hc⟩))
  · rintro ⟨hs, hn⟩ q hq scalar h hc
    rcases List.prefix_cons_iff.mp hq with rfl | ⟨q, rfl, hq'⟩
    · exact not_leadsTo_nil hc
    · rcases leadsTo_cons.mp hc with ⟨-, hs'⟩ | ⟨below, hb, hc⟩
      · exact hs scalar h hs'
      · exact hn below hb q hq' scalar h hc

/-- Nothing is converted along a selection of nothing. -/
theorem not_leadsTo_empty {keys : List Datum} : ¬ r.LeadsTo [] keys scalar h := by
  cases keys with
  | nil => exact not_leadsTo_nil
  | cons key keys =>
    intro hl
    rcases leadsTo_cons.mp hl with ⟨-, head, hget, -⟩ | ⟨below, ⟨head, hget, -⟩, -⟩
    · exact absurd hget nofun
    · exact absurd hget nofun

end Paths

/-! ## 3. One level -/

section Levels

variable {r : ScalarRegistry} {direction : Direction} {t : StoredTree} {d w : Datum}

/-- Along a selection of nothing, data may stay as they are. -/
theorem replaces_empty (d : Datum) : r.Replaces direction [] d d where
  outside hv _ := ⟨_, hv, Datum.sameHere_refl _⟩
  converted _ hc := absurd hc not_leadsTo_empty

/-- What is no list and no object stays. -/
theorem replaces_single (hd : ∀ w, d.SameHere w ↔ w = d) (hp : ∀ p v, d.Has p v → p = []) :
    r.Replaces direction t d w ↔ w = d := by
  constructor
  · intro hr
    obtain ⟨v', hv', hsame⟩ := hr.outside .here (outside_nil r t)
    obtain rfl := Datum.has_nil.mp hv'
    exact (hd v').mp hsame
  · rintro rfl
    refine ⟨fun {p v} hv _ => ⟨v, hv, v.sameHere_refl⟩, fun {p i key v scalar h} hv _ => ?_⟩
    exact absurd (hp _ v hv) (List.append_ne_nil_of_right_ne_nil p (List.cons_ne_nil _ _))

theorem single_unique {w' : Datum} (hd : ∀ w, d.SameHere w ↔ w = d)
    (hp : ∀ p v, d.Has p v → p = []) (hw : r.Replaces direction t d w)
    (hw' : r.Replaces direction t d w') : w = w' :=
  ((replaces_single hd hp).mp hw).trans ((replaces_single hd hp).mp hw').symm

/-- **A list** is replaced item by item. -/
theorem replaces_list {items : List Datum} : r.Replaces direction t (.list items) w ↔
    ∃ items', w = .list items' ∧ List.Forall₂ (r.Replaces direction t) items items' := by
  constructor
  · intro hr
    obtain ⟨v', hv', items', rfl, hlength⟩ := hr.outside .here (outside_nil r t)
    obtain rfl := Datum.has_nil.mp hv'
    refine ⟨items', rfl, forall₂_of_getElem? hlength.symm fun i d w hd hw => ⟨?_, ?_⟩⟩
    · intro p v hv ho
      obtain ⟨v', hv', hsame⟩ := hr.outside (.item hd hv) (outside_item.mpr ho)
      exact ⟨v', (Datum.has_item hw).mp hv', hsame⟩
    · intro p j key v scalar h hv hc
      obtain ⟨v', hv', hmakes⟩ := hr.converted (p := .item i :: p) (.item hd hv) hc
      exact ⟨v', (Datum.has_item hw).mp hv', hmakes⟩
  · rintro ⟨items', rfl, hitems⟩
    refine ⟨fun {p v} hv ho => ?_, fun {p j key v scalar h} hv hc => ?_⟩
    · cases hv with
      | here => exact ⟨_, .here, items', rfl, hitems.length_eq.symm⟩
      | item hd hv =>
        obtain ⟨d', hd', hr⟩ := getElem?_of_forall₂ hitems hd
        obtain ⟨v', hv', hsame⟩ := hr.outside hv (outside_item.mp ho)
        exact ⟨v', .item hd' hv', hsame⟩
    · cases p with
      | nil => cases hv
      | cons step p =>
        cases hv with
        | item hd hv =>
          obtain ⟨d', hd', hr⟩ := getElem?_of_forall₂ hitems hd
          obtain ⟨v', hv', hmakes⟩ := hr.converted hv hc
          exact ⟨v', .item hd' hv', hmakes⟩

/-- What becomes of the value under a key: it is converted, replaced along the selection below the
key, or replaced along a selection of nothing. -/
structure ReplacesUnder (r : ScalarRegistry) (direction : Direction) (t : StoredTree)
    (key v v' : Datum) : Prop where
  scalar : ∀ {scalar h}, r.IsScalar t key scalar h → h.Makes direction v v'
  nested : ∀ {below}, t.Nested key below → r.Replaces direction below v v'
  kept : r.Keeps t key → r.Replaces direction [] v v'

/-- The rows of an object are replaced one by one. -/
abbrev ReplacesRows (r : ScalarRegistry) (direction : Direction) (t : StoredTree) :
    List (Datum × Datum) → List (Datum × Datum) → Prop :=
  List.Forall₂ fun row row' => row'.1 = row.1 ∧ r.ReplacesUnder direction t row.1 row.2 row'.2

/-- Under a key that leads nowhere every path is outside. -/
theorem Keeps.outside {key : Datum} (hk : r.Keeps t key) (i : Nat) (p : List DataStep) :
    r.Outside t (.row i key :: p) :=
  outside_row.mpr ⟨hk.no_scalar, fun below hn => absurd hn (hk.no_nested below)⟩

theorem outside_nested {key : Datum} {below : StoredTree} (hn : t.Nested key below) {i : Nat}
    {p : List DataStep} (ho : r.Outside below p) : r.Outside t (.row i key :: p) :=
  outside_row.mpr ⟨fun _ _ hs => hs.not_nested below hn, fun _ hn' => hn.unique hn' ▸ ho⟩

/-- Data that are replaced as the rows of an object are replaced under each key. -/
theorem Replaces.under {rows rows' : List (Datum × Datum)}
    (hr : r.Replaces direction t (.object rows) (.object rows')) {i : Nat} {key v v' : Datum}
    (hv : rows[i]? = some (key, v)) (hv' : rows'[i]? = some (key, v')) :
    r.ReplacesUnder direction t key v v' := by
  have below {p : List DataStep} {u : Datum} (hu : v.Has p u) (ho : r.Outside t (.row i key :: p)) :
      ∃ u', v'.Has p u' ∧ u.SameHere u' := by
    obtain ⟨u', hu', hsame⟩ := hr.outside (.row hv hu) ho
    exact ⟨u', (Datum.has_row hv').mp hu', hsame⟩
  refine ⟨fun {scalar h} hs => ?_, fun {sub} hn => ⟨?_, ?_⟩, fun hk => ⟨?_, ?_⟩⟩
  · obtain ⟨u', hu', hmakes⟩ := hr.converted (p := []) (.row hv .here)
      (leadsTo_cons.mpr (.inl ⟨rfl, hs⟩))
    exact Datum.has_nil.mp ((Datum.has_row hv').mp hu') ▸ hmakes
  · exact fun hu ho => below hu (outside_nested hn ho)
  · intro p j k u scalar h hu hc
    obtain ⟨u', hu', hmakes⟩ := hr.converted (p := .row i key :: p) (.row hv hu)
      (leadsTo_cons.mpr (.inr ⟨sub, hn, hc⟩))
    exact ⟨u', (Datum.has_row hv').mp hu', hmakes⟩
  · exact fun hu _ => below hu (hk.outside i _)
  · exact fun _ hc => absurd hc not_leadsTo_empty

/-- What becomes of the rows is what becomes of the object. -/
theorem ReplacesRows.object {rows rows' : List (Datum × Datum)}
    (hrows : r.ReplacesRows direction t rows rows') :
    r.Replaces direction t (.object rows) (.object rows') where
  outside {p v} hv ho := by
    cases hv with
    | here =>
      refine ⟨_, .here, rows', rfl, ?_⟩
      rw [← List.forall₂_eq_eq_eq, List.forall₂_map_left_iff, List.forall₂_map_right_iff]
      exact hrows.flip.imp fun _ _ h => h.1
    | @row _ i key d _ p hd hv =>
      obtain ⟨⟨key', d'⟩, hd', rfl, hu⟩ := getElem?_of_forall₂ hrows hd
      obtain ⟨hs, hn⟩ := outside_row.mp ho
      obtain ⟨v', hv', hsame⟩ : ∃ v', d'.Has p v' ∧ v.SameHere v' := by
        rcases r.key_cases t key' with ⟨scalar, h, hk⟩ | ⟨below, hk⟩ | hk
        · exact absurd hk (hs scalar h)
        · exact (hu.nested hk).outside hv (hn below hk)
        · exact (hu.kept hk).outside hv fun _ _ _ _ => not_leadsTo_empty
      exact ⟨v', .row hd' hv', hsame⟩
  converted {p j key v scalar h} hv hc := by
    cases p with
    | nil =>
      cases hv with
      | row hd hv =>
        obtain rfl := Datum.has_nil.mp hv
        obtain ⟨⟨key', d'⟩, hd', rfl, hu⟩ := getElem?_of_forall₂ hrows hd
        rcases leadsTo_cons.mp hc with ⟨-, hs⟩ | ⟨_, -, hl⟩
        · exact ⟨d', .row hd' .here, hu.scalar hs⟩
        · exact absurd hl not_leadsTo_nil
    | cons step p =>
      cases hv with
      | @row _ i first d _ _ hd hv =>
        obtain ⟨⟨key', d'⟩, hd', rfl, hu⟩ := getElem?_of_forall₂ hrows hd
        rcases leadsTo_cons.mp hc with ⟨hnil, -⟩ | ⟨below, hn, hl⟩
        · exact absurd hnil (by simp)
        · obtain ⟨v', hv', hmakes⟩ := (hu.nested hn).converted hv hl
          exact ⟨v', .row hd' hv', hmakes⟩

/-- **An object** is replaced row by row. -/
theorem replaces_object {rows : List (Datum × Datum)} : r.Replaces direction t (.object rows) w ↔
    ∃ rows', w = .object rows' ∧ r.ReplacesRows direction t rows rows' := by
  constructor
  · intro hr
    obtain ⟨v', hv', rows', rfl, hkeys⟩ := hr.outside .here (outside_nil r t)
    obtain rfl := Datum.has_nil.mp hv'
    have hlength : rows'.length = rows.length := by
      rw [← List.length_map (·.1), hkeys, List.length_map]
    refine ⟨rows', rfl, forall₂_of_getElem? hlength.symm ?_⟩
    rintro i ⟨key, v⟩ ⟨key', v'⟩ hv hv'
    have hkey := congrArg (·[i]?) hkeys
    simp only [List.getElem?_map, hv, hv', Option.map_some, Option.some.injEq] at hkey
    subst hkey
    exact ⟨rfl, hr.under hv hv'⟩
  · rintro ⟨rows', rfl, hrows⟩
    exact hrows.object

end Levels

/-! ## 4. The walk -/

section Walk

variable {r : ScalarRegistry} {direction : Direction}

/-- What the walk makes of the value under a key, if it replaces values that it goes into. -/
theorem replacesUnder_of_convertAt {t : StoredTree} {key v w : Datum}
    (below : ∀ t' : StoredTree, r.walk direction t' v = .ok w → r.Replaces direction t' v w)
    (hw : r.convertAt direction t key v = .ok w) : r.ReplacesUnder direction t key v w where
  scalar hs := convertWith_eq_ok.mp (convertAt_scalar hs ▸ hw)
  nested hn := below _ (convertAt_nested hn ▸ hw)
  kept hk := by
    obtain rfl := convertAt_keeps_eq hk hw
    exact replaces_empty w

mutual

/-- A walk replaces what is at convertible paths. -/
theorem replaces_of_walk : ∀ (t : StoredTree) (d w : Datum),
    r.walk direction t d = .ok w → r.Replaces direction t d w
  | t, .null, w, h => by
    rw [walk] at h
    exact (replaces_single (fun _ => Iff.rfl) fun _ _ hv => by cases hv; rfl).mpr
      (Except.ok.inj h).symm
  | t, .list items, w, h => by
    simp only [walk, bind_eq_ok, pure_eq_ok] at h
    obtain ⟨items', hitems, rfl⟩ := h
    exact replaces_list.mpr ⟨items', rfl, replaces_of_walkItems t items items' hitems⟩
  | t, .object rows, w, h => by
    simp only [walk, bind_eq_ok, pure_eq_ok] at h
    obtain ⟨rows', hrows, rfl⟩ := h
    exact replaces_object.mpr ⟨rows', rfl, replaces_of_walkRows t rows rows' hrows⟩
  | t, .undefined, w, h | t, .bool _, w, h | t, .int _, w, h | t, .float _, w, h
  | t, .text _, w, h | t, .moment _, w, h | t, .date _, w, h | t, .uuid _, w, h => by
    simp [walk] at h

theorem replaces_of_walkItems (t : StoredTree) : ∀ items items' : List Datum,
    r.walkItems direction t items = .ok items' →
      List.Forall₂ (r.Replaces direction t) items items'
  | [], items', h => by
    rw [walkItems] at h
    rw [← Except.ok.inj h]
    exact .nil
  | d :: items, items', h => by
    simp only [walkItems, bind_eq_ok, pure_eq_ok] at h
    obtain ⟨w, hw, rest, hrest, rfl⟩ := h
    exact .cons (replaces_of_walk t d w hw) (replaces_of_walkItems t items rest hrest)

theorem replaces_of_walkRows (t : StoredTree) : ∀ rows rows' : List (Datum × Datum),
    r.walkRows direction t rows = .ok rows' → r.ReplacesRows direction t rows rows'
  | [], rows', h => by
    rw [walkRows] at h
    rw [← Except.ok.inj h]
    exact .nil
  | (key, d) :: rows, rows', h => by
    simp only [walkRows_cons, bind_eq_ok, pure_eq_ok] at h
    obtain ⟨w, hw, rest, hrest, rfl⟩ := h
    exact .cons ⟨rfl, replacesUnder_of_convertAt (fun t' => replaces_of_walk t' d w) hw⟩
      (replaces_of_walkRows t rows rest hrest)

end

/-- Under a key there is one datum that replaces a value, if there is one along each selection. -/
theorem ReplacesUnder.unique {t : StoredTree} {key v w w' : Datum}
    (below : ∀ t' : StoredTree, r.Replaces direction t' v w → r.Replaces direction t' v w' → w = w')
    (hw : r.ReplacesUnder direction t key v w) (hw' : r.ReplacesUnder direction t key v w') :
    w = w' := by
  rcases r.key_cases t key with ⟨scalar, h, hs⟩ | ⟨t', hn⟩ | hk
  · have hout : convertWith scalar h direction v = .ok w := convertWith_eq_ok.mpr (hw.scalar hs)
    have hout' : convertWith scalar h direction v = .ok w' := convertWith_eq_ok.mpr (hw'.scalar hs)
    exact Except.ok.inj (hout.symm.trans hout')
  · exact below t' (hw.nested hn) (hw'.nested hn)
  · exact below [] (hw.kept hk) (hw'.kept hk)

mutual

/-- There is no other datum with the values at convertible paths replaced. -/
theorem replaces_unique : ∀ (t : StoredTree) (d w w' : Datum),
    r.Replaces direction t d w → r.Replaces direction t d w' → w = w'
  | t, .list items, w, w', hw, hw' => by
    obtain ⟨as, rfl, has⟩ := replaces_list.mp hw
    obtain ⟨bs, rfl, hbs⟩ := replaces_list.mp hw'
    rw [items_unique t items as bs has hbs]
  | t, .object rows, w, w', hw, hw' => by
    obtain ⟨as, rfl, has⟩ := replaces_object.mp hw
    obtain ⟨bs, rfl, hbs⟩ := replaces_object.mp hw'
    rw [rows_unique t rows as bs has hbs]
  | t, .null, w, w', hw, hw' | t, .undefined, w, w', hw, hw' | t, .bool _, w, w', hw, hw'
  | t, .int _, w, w', hw, hw' | t, .float _, w, w', hw, hw' | t, .text _, w, w', hw, hw'
  | t, .moment _, w, w', hw, hw' | t, .date _, w, w', hw, hw' | t, .uuid _, w, w', hw, hw' => by
    exact single_unique (fun _ => Iff.rfl) (fun _ _ hv => by cases hv; rfl) hw hw'

theorem items_unique (t : StoredTree) : ∀ items as bs : List Datum,
    List.Forall₂ (r.Replaces direction t) items as →
      List.Forall₂ (r.Replaces direction t) items bs → as = bs
  | [], _, _, .nil, .nil => rfl
  | d :: items, _, _, .cons ha has, .cons hb hbs => by
    rw [replaces_unique t d _ _ ha hb, items_unique t items _ _ has hbs]

theorem rows_unique (t : StoredTree) : ∀ rows as bs : List (Datum × Datum),
    r.ReplacesRows direction t rows as → r.ReplacesRows direction t rows bs → as = bs
  | [], _, _, .nil, .nil => rfl
  | (key, d) :: rows, (_, a) :: as, (_, b) :: bs, .cons ⟨ha, hua⟩ has, .cons ⟨hb, hub⟩ hbs => by
    have hab : a = b := hua.unique (fun t' => replaces_unique t' d a b) hub
    rw [rows_unique t rows as bs has hbs, hab]
    exact congrArg (fun k => (k, b) :: bs) (ha.trans hb.symm)

end

/-- **A walk touches registered scalars only.**  When it succeeds, its result is the datum in which
the values at convertible paths are replaced, and nothing else is. -/
theorem walk_replaces {t : StoredTree} {d w : Datum} (h : r.walk direction t d = .ok w)
    (w' : Datum) : r.Replaces direction t d w' ↔ w' = w :=
  ⟨fun hw' => replaces_unique t d w' w hw' (replaces_of_walk t d w h), fun he =>
    he ▸ replaces_of_walk t d w h⟩

end Walk

end ScalarRegistry

/-! ## 5. A page of notes -/

namespace Sample

/-- A tag is read by putting it into a list. -/
def tagging : ScalarRegistry := [("Tag", ⟨none, some fun d => .ok (.list [d])⟩)]

/-- Two pages, one of them null, with something for every tag. -/
def page (f : Datum → Datum) : Datum :=
  .list [.null, .record [("page", .record
    [("tags", .list [f (.int 1), .null, f (.list [.null])]), ("title", .text "Notes"),
      ("words", .record [("tags", .list [.int 2])]), ("tag", .list [.int 3]),
      ("links", .list [.list [.record [("tags", f (.int 4))]], .null,
        .record [("tags", .null)], .record [("tags", .list [])]])])]]

end Sample

open Sample in
/-- The tags of the page and of its links are put into lists, and everything else stays. -/
theorem page_replaced :
    tagging.walk .unmarshal pages (page id) = .ok (page fun d => .list [d]) ∧
      ∀ w, tagging.Replaces .unmarshal pages (page id) w ↔ w = page fun d => .list [d] :=
  ⟨rfl, ScalarRegistry.walk_replaces rfl⟩

end QueryCompiler
