import QueryCompiler.Selection.Compile
import QueryCompiler.Proofs.Outcome
import QueryCompiler.Proofs.Schema.Ancestor
import QueryCompiler.Proofs.Selection.Expansion
import QueryCompiler.Proofs.Selection.Merging
/-
# What a compiled selection shows

A selection is compiled by merging partial trees; it is expanded by listing places.  The two
agree: a compiled selection shows exactly the places of the expansion (`Shows`).  The entry at a
path is made of the heads of all places with that path, merged in their order (`headOf`), and the
keys below a path are those of the expansion (`keysAt`).

Every place gives a head of its own (`Compilation.HeadOf`): that of its field, looked up in the
type that its ancestors lead to, masked exactly when a spread leads to it.

* `Compilation.compile_shows`: if a selection compiles, it has an expansion and shows it.
-/
namespace QueryCompiler

/-! ## 1. Heads of one key -/

namespace EntryHead

theorem firstText_assoc (a b c : Option String) :
    firstText (firstText a b) c = firstText a (firstText b c) := by
  cases a with
  | none => rfl
  | some text =>
    by_cases ht : text.isEmpty = true
    · simp [firstText, ht]
    · simp [firstText, ht]

theorem merge_assoc (a b c : EntryHead) : (a.merge b).merge c = a.merge (b.merge c) := by
  simp only [merge, firstText_assoc, Bool.and_assoc, Bool.or_assoc, List.append_assoc,
    Option.or_assoc]

instance : Std.Associative EntryHead.merge := ⟨merge_assoc⟩

end EntryHead

/-- A place of an expansion with what it says about its field. -/
abbrev Row := Occurrence × EntryHead

/-- The row seen from one field further up. -/
def Row.beneath (key : String) (row : Row) : Row := (row.1.beneath key, row.2)

/-- What all places with one path say about their field. -/
def headOf : List Row → List String → Option EntryHead
  | [], _ => none
  | (o, h) :: rows, p => (if o.path = p then some h else none).merge EntryHead.merge (headOf rows p)

theorem headOf_append (rows others : List Row) (p : List String) :
    headOf (rows ++ others) p = (headOf rows p).merge EntryHead.merge (headOf others p) := by
  induction rows with
  | nil => rw [List.nil_append, headOf, Option.merge_none_left]
  | cons row rows ih =>
    obtain ⟨o, h⟩ := row
    rw [List.cons_append, headOf, headOf, ih, (Option.associative_merge EntryHead.merge).assoc]

theorem headOf_eq_none {rows : List Row} {p : List String}
    (h : ∀ row ∈ rows, row.1.path ≠ p) : headOf rows p = none := by
  induction rows with
  | nil => rfl
  | cons row rows ih =>
    obtain ⟨o, head⟩ := row
    rw [headOf, if_neg (h _ List.mem_cons_self),
      ih fun row hr => h row (List.mem_cons_of_mem _ hr), Option.merge_none_left]

theorem headOf_ne_none {rows : List Row} {p : List String} {row : Row} (hr : row ∈ rows)
    (hp : row.1.path = p) : headOf rows p ≠ none := by
  induction rows with
  | nil => exact absurd hr List.not_mem_nil
  | cons other rows ih =>
    obtain ⟨o, h⟩ := other
    intro hn
    rw [headOf, Option.merge_eq_none_iff] at hn
    rcases List.mem_cons.mp hr with rfl | hr
    · rw [if_pos hp] at hn
      exact absurd hn.1 nofun
    · exact ih hr hn.2

theorem headOf_beneath (k : String) (rows : List Row) (p : List String) :
    headOf (rows.map (·.beneath k)) (k :: p) = headOf rows p := by
  induction rows with
  | nil => rfl
  | cons row rows ih =>
    obtain ⟨o, h⟩ := row
    simp only [List.map_cons, Row.beneath, headOf, Occurrence.beneath, List.cons.injEq, true_and]
    rw [← ih]
    rfl

/-- What all places with one path say, they say together, if it survives merging. -/
theorem headOf_forall {P : EntryHead → Prop} (hP : ∀ a b, P a → P b → P (a.merge b))
    {rows : List Row} (hrows : ∀ row ∈ rows, P row.2) {p : List String} :
    ∀ {h : EntryHead}, headOf rows p = some h → P h := by
  induction rows with
  | nil => exact fun hh => absurd hh nofun
  | cons row rows ih =>
    obtain ⟨o, head⟩ := row
    intro h hh
    have ih := @ih fun row hr => hrows row (List.mem_cons_of_mem _ hr)
    rw [headOf] at hh
    by_cases hp : o.path = p
    · have hhead : P head := hrows _ List.mem_cons_self
      rw [if_pos hp] at hh
      cases hrest : headOf rows p with
      | none => rw [hrest] at hh; exact Option.some.inj hh ▸ hhead
      | some rest => rw [hrest] at hh; exact Option.some.inj hh ▸ hP head rest hhead (ih hrest)
    · rw [if_neg hp, Option.merge_none_left] at hh
      exact ih hh

/-- **What one of the places says.**  A property that two heads have together when one of them
has it is a property of some place with the path. -/
theorem headOf_exists {P : EntryHead → Prop} (hP : ∀ a b, P (a.merge b) ↔ P a ∨ P b) :
    ∀ {rows : List Row} {p : List String} {h : EntryHead}, headOf rows p = some h →
      (P h ↔ ∃ row ∈ rows, row.1.path = p ∧ P row.2)
  | [], p, h, hh => absurd hh nofun
  | (o, head) :: rows, p, h, hh => by
    have hcons : (∃ row ∈ (o, head) :: rows, row.1.path = p ∧ P row.2)
        ↔ (o.path = p ∧ P head) ∨ ∃ row ∈ rows, row.1.path = p ∧ P row.2 := by
      simp only [List.mem_cons, or_and_right, exists_or, exists_eq_left]
    rw [hcons]
    rw [headOf] at hh
    by_cases hp : o.path = p
    · rw [if_pos hp] at hh
      cases hr : headOf rows p with
      | none =>
        rw [hr, Option.merge_none_right, Option.some.injEq] at hh
        subst hh
        refine ⟨fun h => .inl ⟨hp, h⟩, ?_⟩
        rintro (⟨-, h⟩ | ⟨row, hrow, hpath, -⟩)
        · exact h
        · exact absurd hr (headOf_ne_none hrow hpath)
      | some rest =>
        rw [hr, Option.merge_some_some, Option.some.injEq] at hh
        subst hh
        rw [hP, headOf_exists hP hr]
        exact or_congr_left ⟨fun h => ⟨hp, h⟩, fun h => h.2⟩
    · rw [if_neg hp, Option.merge_none_left] at hh
      rw [headOf_exists hP hh]
      exact ⟨.inr, fun h => h.resolve_left fun h => hp h.1⟩

/-! ## 2. Trees that show an expansion -/

/-- The places of some rows. -/
def places (rows : List Row) : List Occurrence := rows.map (·.1)

theorem places_append (rows others : List Row) :
    places (rows ++ others) = places rows ++ places others := List.map_append

theorem places_beneath (key : String) (rows : List Row) :
    places (rows.map (·.beneath key)) = (places rows).map (·.beneath key) := by
  rw [places, places, List.map_map, List.map_map]
  rfl

/-- What places with one path say begins with what the first of them says. -/
theorem headOf_first {rows : List Row} {p : List String} {h : EntryHead}
    (hh : headOf rows p = some h) :
    ∃ row ∈ rows, row.1.path = p ∧ (places rows).find? (fun o => o.path = p) = some row.1 ∧
      (h = row.2 ∨ ∃ rest, h = row.2.merge rest) := by
  induction rows with
  | nil => exact absurd hh nofun
  | cons row rows ih =>
    obtain ⟨o, head⟩ := row
    rw [headOf] at hh
    by_cases hp : o.path = p
    · refine ⟨(o, head), List.mem_cons_self, hp, List.find?_cons_of_pos (by simpa using hp), ?_⟩
      rw [if_pos hp] at hh
      cases hrest : headOf rows p with
      | none => rw [hrest] at hh; exact .inl (Option.some.inj hh).symm
      | some rest => rw [hrest] at hh; exact .inr ⟨rest, (Option.some.inj hh).symm⟩
    · rw [if_neg hp, Option.merge_none_left] at hh
      obtain ⟨row, hrow, hpath, hfirst, hmerged⟩ := ih hh
      refine ⟨row, List.mem_cons_of_mem _ hrow, hpath, ?_, hmerged⟩
      rw [places, List.map_cons, List.find?_cons_of_neg (by simpa using hp)]
      exact hfirst

/-- The tree has an entry for exactly the paths of the rows, made of their heads, and its keys
come in the order of the rows. -/
structure Shows (t : SelectionTree) (rows : List Row) : Prop where
  distinct : Entry.DistinctTree t
  rooted : Rooted (places rows)
  heads : ∀ p, Entry.headAt? t p = headOf rows p
  keys : ∀ p, Entry.keysAt? t p = keysAt (places rows) p

namespace Shows

theorem nil : Shows [] [] where
  distinct := by rw [Entry.DistinctTree]; trivial
  rooted := fun _ ho => absurd ho List.not_mem_nil
  heads
    | [] => rfl
    | [_] => rfl
    | _ :: _ :: _ => rfl
  keys
    | [] => rfl
    | _ :: _ => rfl

/-- **Merged trees show one expansion behind the other.** -/
theorem append {t s : SelectionTree} {rows others : List Row} (h : Shows t rows)
    (h' : Shows s others) : Shows (Entry.mergeInto t s) (rows ++ others) where
  distinct := Entry.distinctTree_mergeInto h.distinct h'.distinct
  rooted := places_append rows others ▸ h.rooted.append h'.rooted
  heads p := by
    rw [Entry.headAt_mergeInto t h'.distinct, h.heads, h'.heads, headOf_append]
    rfl
  keys p := by
    rw [Entry.keysAt_mergeInto t h'.distinct, h.keys, h'.keys, places_append,
      keysAt_append h.rooted h'.rooted]
    rfl

/-- What is below an entry, when its field has selections. -/
def fieldsOf (selections : List Selection) (below : SelectionTree) : Option SelectionTree :=
  if selections.isEmpty then none else some below

theorem heads_field {site : Site} {head : FieldHead} {h : EntryHead} {selections : List Selection}
    {below : SelectionTree} {inner : List Row} (hs : Shows below inner)
    (hne : inner ≠ [] → selections ≠ []) : ∀ p : List String,
    Entry.headAt? [(head.responseKey, .node h (fieldsOf selections below))] p
      = headOf (({ path := [head.responseKey], site, field := head, selections }, h)
          :: inner.map (·.beneath head.responseKey)) p
  | [] => by
    rw [headOf, if_neg (List.cons_ne_nil _ _), headOf_eq_none, Option.merge_none_left]
    · rfl
    · intro row hr
      obtain ⟨row, -, rfl⟩ := List.mem_map.mp hr
      exact List.cons_ne_nil _ _
  | k :: p => by
    rw [headOf]
    by_cases hk : head.responseKey = k
    · subst hk
      rw [headOf_beneath, ← hs.heads]
      cases p with
      | nil =>
        rw [if_pos rfl]
        simp [Entry.headAt?, Entry.at?, Table.get?, Entry.head]
      | cons k p =>
        rw [if_neg (by simp), Option.merge_none_left, Entry.headAt?, Entry.at?, Table.get?_cons,
          if_pos rfl, Option.bind_some, Entry.fields, fieldsOf]
        cases selections with
        | cons s ss => rfl
        | nil =>
          obtain rfl : inner = [] := Classical.byContradiction fun hi => hne hi rfl
          exact (hs.heads _).symm
        · simp
    · rw [if_neg (by simp [hk]), headOf_eq_none, Option.merge_none_left, Entry.headAt?]
      · cases p <;> simp [Entry.at?, Table.get?, hk]
      · intro row hr
        obtain ⟨row, -, rfl⟩ := List.mem_map.mp hr
        simp [Row.beneath, Occurrence.beneath, hk]

theorem keys_field {site : Site} {head : FieldHead} {h : EntryHead} {selections : List Selection}
    {below : SelectionTree} {inner : List Row} (hs : Shows below inner)
    (hne : inner ≠ [] → selections ≠ []) : ∀ p : List String,
    Entry.keysAt? [(head.responseKey, .node h (fieldsOf selections below))] p
      = keysAt ({ path := [head.responseKey], site, field := head, selections }
          :: (places inner).map (·.beneath head.responseKey)) p
  | [] => hs.rooted.keysAt_field_top.symm
  | k :: p => by
    rw [Entry.keysAt?, Entry.subtree?, Table.get?_cons]
    by_cases hk : head.responseKey = k
    · subst hk
      rw [if_pos rfl, Option.bind_some, Entry.fields, fieldsOf]
      cases selections with
      | cons s ss =>
        rw [keysAt_field_below (List.cons_ne_nil s ss), ← hs.keys]
        rfl
      | nil =>
        obtain rfl : inner = [] := Classical.byContradiction fun hi => hne hi rfl
        exact (keysAt_field_none (.inr ⟨rfl, rfl⟩)).symm
    · rw [if_neg hk, keysAt_field_none (.inl hk)]
      rfl

/-- **The tree of a field** shows the field and what its selections show, one key further down. -/
theorem field {site : Site} {head : FieldHead} {h : EntryHead} {selections : List Selection}
    {below : SelectionTree} {inner : List Row} (hs : Shows below inner)
    (hne : inner ≠ [] → selections ≠ []) :
    Shows [(head.responseKey, .node h (fieldsOf selections below))]
      (({ path := [head.responseKey], site, field := head, selections }, h)
        :: inner.map (·.beneath head.responseKey)) where
  distinct := by
    rw [Entry.DistinctTree, Entry.Distinct, fieldsOf]
    refine ⟨List.not_mem_nil, ?_, by rw [Entry.DistinctTree]; trivial⟩
    cases selections with
    | nil => rw [List.isEmpty_nil, if_pos rfl, Entry.DistinctFields]; trivial
    | cons s ss => exact (Entry.DistinctFields.eq_2 _).mpr hs.distinct
  rooted := by
    have hinner : places inner ≠ [] → selections ≠ [] :=
      fun hi => hne fun hn => hi (by rw [hn]; rfl)
    have := hs.rooted.field head site hinner
    rwa [← places_beneath] at this
  heads := heads_field hs hne
  keys p := by
    rw [keys_field hs hne, ← places_beneath]
    rfl

/-- An entry says what the places with its path say. -/
theorem headOf_at {t : SelectionTree} {rows : List Row} (ht : Shows t rows) {p : List String}
    {e : Entry String EntryHead} (he : Entry.at? t p = some e) : headOf rows p = some e.head := by
  rw [← ht.heads, Entry.headAt?, he, Option.map_some]

/-- **What an entry says and what its places say.**  If two heads together have a property when one
of them has it, an entry has it when one of its places gives it. -/
theorem head_iff {t : SelectionTree} {rows : List Row} (ht : Shows t rows) (P : EntryHead → Prop)
    (Q : Occurrence → Prop) (hP : ∀ a b, P (a.merge b) ↔ P a ∨ P b)
    (hQ : ∀ row ∈ rows, P row.2 ↔ Q row.1) {p : List String} {e : Entry String EntryHead}
    (he : Entry.at? t p = some e) : P e.head ↔ ∃ o ∈ places rows, o.path = p ∧ Q o := by
  rw [headOf_exists hP (ht.headOf_at he)]
  constructor
  · rintro ⟨row, hrow, hpath, h⟩
    exact ⟨row.1, List.mem_map.mpr ⟨row, hrow, rfl⟩, hpath, (hQ row hrow).mp h⟩
  · rintro ⟨o, ho, hpath, h⟩
    obtain ⟨row, hrow, rfl⟩ := List.mem_map.mp ho
    exact ⟨row, hrow, hpath, (hQ row hrow).mpr h⟩

end Shows

/-! ## 3. The name of the type is a leaf -/

mutual

/-- No field that asks for the name of a type has selections. -/
def Selection.typenamesAreLeaves : Selection → Bool
  | .field head selections =>
    (head.name ≠ typenameField || selections.isEmpty) && typenamesAreLeavesIn selections
  | .spread _ _ => true
  | .inline _ _ selections => typenamesAreLeavesIn selections

def typenamesAreLeavesIn : List Selection → Bool
  | [] => true
  | s :: selections => s.typenamesAreLeaves && typenamesAreLeavesIn selections

end

/-! ## 4. Compiling -/

namespace Compilation

/-- What the place of a field says about it: the field is looked up in the type that the
ancestors of the place lead to. -/
def HeadOf (x : Compilation) (o : Occurrence) (h : EntryHead) : Prop :=
  if o.field.name = typenameField then h = .plain "String" typenameField o.isSpread
  else ∃ f key, definition (x.config.schema.typeAt o.site.ancestors) o.field.name = .ok f ∧
    cacheKey o.field (some f) = .ok key ∧
    x.entryHead o.field o.selections f key o.isSpread = .ok h

/-- The rows of an expansion, each with the head of its place. -/
structure Rows (x : Compilation) (fragment? : String → Option Fragment) (site : Site)
    (ss : List Selection) (rows : List Row) : Prop where
  expands : Expands fragment? site ss (places rows)
  heads : ∀ row ∈ rows, x.HeadOf row.1 row.2

variable {x : Compilation} {fragment? : String → Option Fragment} {site : Site}

namespace Rows

theorem nil : x.Rows fragment? site [] [] := ⟨.nil, fun _ hr => absurd hr List.not_mem_nil⟩

theorem append {ss rest : List Selection} {rows others : List Row}
    (h : x.Rows fragment? site ss rows) (h' : x.Rows fragment? site rest others) :
    x.Rows fragment? site (ss ++ rest) (rows ++ others) where
  expands := places_append rows others ▸ h.expands.append h'.expands
  heads row hr := (List.mem_append.mp hr).elim (h.heads row) (h'.heads row)

theorem field {head : FieldHead} {selections : List Selection} {h : EntryHead} {inner : List Row}
    (hb : x.Rows fragment? (site.under (.field head)) selections inner)
    (hh : x.HeadOf { path := [head.responseKey], site, field := head, selections } h) :
    x.Rows fragment? site [.field head selections]
      (({ path := [head.responseKey], site, field := head, selections }, h)
        :: inner.map (·.beneath head.responseKey)) where
  expands := by
    have := Expands.field hb.expands (.nil : Expands fragment? site [] [])
    rwa [List.append_nil, ← places_beneath] at this
  heads row hr := by
    rcases List.mem_cons.mp hr with rfl | hr
    · exact hh
    · obtain ⟨row, hr', rfl⟩ := List.mem_map.mp hr
      exact hb.heads row hr'

theorem ne_nil {ss : List Selection} {rows : List Row} (h : x.Rows fragment? site ss rows)
    (hne : rows ≠ []) : ss ≠ [] := by
  rintro rfl
  cases rows with
  | nil => exact hne rfl
  | cons row rows => exact absurd h.expands nofun

end Rows

/-- A way to follow spreads that gives what the fragments show. -/
def Follows (x : Compilation) (fragment? : String → Option Fragment) (follow : Follow) : Prop :=
  ∀ name t, follow name = .ok t → ∃ f rows, fragment? name = some f ∧
    x.Rows fragment? (.ofFragment name f) f.selections rows ∧ Shows t rows

theorem definition_eq_ok {type : Option NamedType} {name : String} {f : SchemaField}
    (h : definition type name = .ok f) : type.bind (·.field? name) = some f := by
  cases type with
  | none => exact absurd h nofun
  | some t =>
    rw [definition] at h
    rw [Option.bind_some]
    cases hf : t.field? name with
    | none => rw [hf] at h; exact absurd h nofun
    | some g => rw [hf] at h; exact congrArg some (Except.ok.inj h)

theorem leads_narrowed {ancestors : List Ancestor} {type : Option NamedType}
    (h : x.config.schema.Leads ancestors type) : ∀ condition : Option String,
    x.config.schema.Leads (ancestors ++ [.inline condition]) (x.narrowed type condition)
  | none => h.inline_none
  | some condition => h.inline_some condition

mutual

/-- **A compiled selection shows its expansion**, one selection at a time.  The type at hand is
the one that the ancestors lead to, and what is compiled inside a fragment is masked. -/
theorem tree_shows {follow : Follow} (hf : x.Follows fragment? follow) : ∀ (s : Selection)
    {site : Site} {type : Option NamedType} {t : SelectionTree},
    x.config.schema.Leads site.ancestors type → s.typenamesAreLeaves = true →
    x.tree follow type site.fragment.isSome s = .ok t →
      ∃ rows, x.Rows fragment? site [s] rows ∧ Shows t rows
  | .field head selections, site, type, t, hl, hleaf, h => by
    rw [Selection.typenamesAreLeaves, Bool.and_eq_true, Bool.or_eq_true, decide_eq_true_iff]
      at hleaf
    rw [tree] at h
    by_cases ht : head.name = typenameField
    · rw [if_pos ht, Except.ok.injEq] at h
      obtain rfl : selections = [] := List.isEmpty_iff.mp (hleaf.1.resolve_left fun hn => hn ht)
      subst h
      refine ⟨_, Rows.nil.field ?_, @Shows.field site head _ [] [] [] .nil fun hn => absurd rfl hn⟩
      rw [HeadOf, if_pos ht]
      rfl
    · rw [if_neg ht] at h
      simp only [bind_eq_ok, pure_eq_ok] at h
      obtain ⟨f, hdef, key, hkey, below, hbelow, head', hhead, rfl⟩ := h
      have hl' : x.config.schema.Leads (site.under (.field head)).ancestors
          (x.config.schema.fieldType? f) := hl.field (definition_eq_ok hdef)
      obtain ⟨inner, hrows, hshows⟩ := forest_shows hf selections hl' hleaf.2 Shows.nil hbelow
      refine ⟨_, hrows.field ?_, hshows.field hrows.ne_nil⟩
      rw [HeadOf, if_neg ht]
      exact ⟨f, key, hl.typeAt ▸ hdef, hkey, hhead⟩
  | .spread name directives, site, type, t, _, _, h => by
    rw [tree] at h
    obtain ⟨f, rows, hname, hrows, hshows⟩ := hf name t h
    refine ⟨rows, ⟨?_, hrows.heads⟩, hshows⟩
    have hexp : Expands fragment? site [.spread name directives] (places rows ++ []) :=
      .spread hname hrows.expands .nil
    rwa [List.append_nil] at hexp
  | .inline condition directives selections, site, type, t, hl, hleaf, h => by
    rw [Selection.typenamesAreLeaves] at hleaf
    rw [tree] at h
    have hl' : x.config.schema.Leads (site.under (.inline condition)).ancestors
        (x.narrowed type condition) := leads_narrowed hl condition
    obtain ⟨rows, hrows, hshows⟩ := forest_shows hf selections hl' hleaf Shows.nil h
    refine ⟨rows, ⟨?_, hrows.heads⟩, hshows⟩
    have hexp : Expands fragment? site [.inline condition directives selections]
        (places rows ++ []) := .inline hrows.expands .nil
    rwa [List.append_nil] at hexp

theorem forest_shows {follow : Follow} (hf : x.Follows fragment? follow) :
    ∀ (ss : List Selection) {site : Site} {type : Option NamedType} {merged t : SelectionTree}
      {before : List Row}, x.config.schema.Leads site.ancestors type →
      typenamesAreLeavesIn ss = true → Shows merged before →
      x.forest follow type site.fragment.isSome merged ss = .ok t →
        ∃ rows, x.Rows fragment? site ss rows ∧ Shows t (before ++ rows)
  | [], site, type, merged, t, before, _, _, hb, h => by
    rw [forest, Except.ok.injEq] at h
    subst h
    exact ⟨[], Rows.nil, (List.append_nil before).symm ▸ hb⟩
  | s :: ss, site, type, merged, t, before, hl, hleaf, hb, h => by
    rw [typenamesAreLeavesIn, Bool.and_eq_true] at hleaf
    rw [forest, bind_eq_ok] at h
    obtain ⟨entries, hentries, h⟩ := h
    obtain ⟨first, hfirst, hshows⟩ := tree_shows hf s hl hleaf.1 hentries
    obtain ⟨rest, hrest, hshows⟩ := forest_shows hf ss hl hleaf.2 (hb.append hshows) h
    exact ⟨first ++ rest, hfirst.append hrest, List.append_assoc before first rest ▸ hshows⟩

end

/-! ## 5. Following spreads -/

theorem follow_zero_ne_ok {name : String} {t : SelectionTree} : x.follow 0 name ≠ .ok t := by
  unfold follow
  cases Table.get? x.fragments name <;> exact nofun

/-- A spread adds what its fragment selects, with one spread less inside each other. -/
theorem follow_succ_eq_ok {depth : Nat} {name : String} {t : SelectionTree} :
    x.follow (depth + 1) name = .ok t ↔ ∃ f, Table.get? x.fragments name = some f ∧
      x.forest (x.follow depth) (x.config.schema.type? f.condition) true [] f.selections
        = .ok t := by
  rw [follow.eq_def]
  cases Table.get? x.fragments name with
  | none => exact ⟨nofun, nofun⟩
  | some f => simp only [Option.some.injEq, exists_eq_left']

/-- The fragments that a document is compiled with are well-behaved. -/
def LeavesIn (x : Compilation) : Prop :=
  ∀ name f, Table.get? x.fragments name = some f → typenamesAreLeavesIn f.selections = true

theorem follow_follows (hx : x.LeavesIn) :
    ∀ depth, x.Follows (Table.get? x.fragments) (x.follow depth)
  | 0, _, _, h => absurd h follow_zero_ne_ok
  | depth + 1, name, t, h => by
    obtain ⟨f, hname, h⟩ := follow_succ_eq_ok.mp h
    have hl : x.config.schema.Leads (Site.ofFragment name f).ancestors
        (x.config.schema.type? f.condition) := Schema.leads_fragment _ _
    obtain ⟨rows, hrows, hshows⟩ := forest_shows (follow_follows hx depth) f.selections hl
      (hx name f hname) Shows.nil h
    exact ⟨f, rows, hname, hrows, hshows⟩

/-- **If a selection compiles, it has an expansion and shows it.** -/
theorem compile_shows (hx : x.LeavesIn) {ancestor : Ancestor} {type : NamedType}
    (hl : x.config.schema.Leads [ancestor] (some type)) {ss : List Selection}
    (hleaf : typenamesAreLeavesIn ss = true) {t : SelectionTree} (h : x.compile type ss = .ok t) :
    ∃ rows, x.Rows (Table.get? x.fragments) { fragment := none, ancestors := [ancestor] } ss rows ∧
      Shows t rows := by
  have hl' : x.config.schema.Leads
    ({ fragment := none, ancestors := [ancestor] } : Site).ancestors (some type) := hl
  exact forest_shows (follow_follows hx _) ss hl' hleaf Shows.nil h

end Compilation

end QueryCompiler
