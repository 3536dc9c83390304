import QueryCompiler.Language.Directives
import QueryCompiler.Proofs.Schema.Ancestor
import QueryCompiler.Proofs.Selection.Expansion
/-
# Expansions do not look at directives

Changing the directives of a document changes the places of its expansion one by one: they stay
in their order, under their paths, and with something below them or nothing
(`Expands.mapDirectives`).  So the keys at every level stay the same (`keysAt_mapDirectives`).
-/
namespace QueryCompiler

variable (f : List Directive → List Directive)

/-! ## 1. Places with other directives -/

def FieldHead.mapDirectives (head : FieldHead) : FieldHead :=
  { head with directives := f head.directives }

def Ancestor.mapDirectives : Ancestor → Ancestor
  | .field head => .field (head.mapDirectives f)
  | a => a

def Site.mapDirectives (site : Site) : Site :=
  { site with ancestors := site.ancestors.map (·.mapDirectives f) }

def Occurrence.mapDirectives (o : Occurrence) : Occurrence where
  path := o.path
  site := o.site.mapDirectives f
  field := o.field.mapDirectives f
  selections := Selection.mapAllDirectives f o.selections

theorem Site.mapDirectives_under (site : Site) (a : Ancestor) :
    (site.under a).mapDirectives f = (site.mapDirectives f).under (a.mapDirectives f) := by
  simp only [under, mapDirectives, List.map_append, List.map_cons, List.map_nil]

theorem Site.mapDirectives_ofFragment (name : String) (fr : Fragment) :
    (Site.ofFragment name fr).mapDirectives f = .ofFragment name (fr.mapDirectives f) := rfl

/-- The places below a field, seen from the field. -/
theorem Occurrence.map_mapDirectives_beneath (key : String) (os : List Occurrence) :
    (os.map (·.beneath key)).map (·.mapDirectives f)
      = (os.map (·.mapDirectives f)).map (·.beneath key) := by
  rw [List.map_map, List.map_map]
  rfl

theorem mapAllDirectives_eq_nil {ss : List Selection} :
    Selection.mapAllDirectives f ss = [] ↔ ss = [] := by
  cases ss with
  | nil => exact ⟨fun _ => rfl, fun _ => rfl⟩
  | cons s ss => exact ⟨nofun, nofun⟩

mutual

theorem spreadNames_mapDirectives : ∀ s : Selection,
    spreadNames (s.mapDirectives f) = spreadNames s
  | .field head selections => by
    rw [Selection.mapDirectives, spreadNames, spreadNames,
      spreadNamesOf_mapAllDirectives selections]
  | .spread name directives => rfl
  | .inline condition directives selections => by
    rw [Selection.mapDirectives, spreadNames, spreadNames,
      spreadNamesOf_mapAllDirectives selections]

/-- Selections spread the same fragments, whatever their directives. -/
theorem spreadNamesOf_mapAllDirectives : ∀ ss : List Selection,
    spreadNamesOf (Selection.mapAllDirectives f ss) = spreadNamesOf ss
  | [] => rfl
  | s :: ss => by
    rw [Selection.mapAllDirectives, spreadNamesOf, spreadNamesOf, spreadNames_mapDirectives s,
      spreadNamesOf_mapAllDirectives ss]

end

/-! ## 2. Expansions with other directives -/

/-- **With other directives, the same places are selected.** -/
theorem Expands.mapDirectives {fragment? : String → Option Fragment} {site : Site}
    {ss : List Selection} {os : List Occurrence} (h : Expands fragment? site ss os) :
    Expands (fun name => (fragment? name).map (·.mapDirectives f)) (site.mapDirectives f)
      (Selection.mapAllDirectives f ss) (os.map (·.mapDirectives f)) := by
  induction h with
  | nil => exact .nil
  | field _ _ ihb ih =>
    rw [Site.mapDirectives_under] at ihb
    rw [Selection.mapAllDirectives, Selection.mapDirectives, List.cons_append, List.map_cons,
      List.map_append, Occurrence.map_mapDirectives_beneath]
    exact .field ihb ih
  | inline _ _ ihb ih =>
    rw [Site.mapDirectives_under] at ihb
    rw [Selection.mapAllDirectives, Selection.mapDirectives, List.map_append]
    exact .inline ihb ih
  | spread hf _ _ ihb ih =>
    rw [Site.mapDirectives_ofFragment] at ihb
    rw [Selection.mapAllDirectives, Selection.mapDirectives, List.map_append]
    exact .spread (by rw [hf, Option.map_some]) ihb ih

/-- **The keys of an expansion do not depend on directives.** -/
theorem keysAt_mapDirectives (os : List Occurrence) (p : List String) :
    keysAt (os.map (·.mapDirectives f)) p = keysAt os p := by
  unfold keysAt
  rw [List.filterMap_map]
  refine if_congr (or_congr_right ?_) rfl rfl
  constructor
  · rintro ⟨o, ho, hpath, hsel⟩
    obtain ⟨o, ho', rfl⟩ := List.mem_map.mp ho
    exact ⟨o, ho', hpath, fun hn => hsel ((mapAllDirectives_eq_nil f).mpr hn)⟩
  · rintro ⟨o, ho, hpath, hsel⟩
    exact ⟨o.mapDirectives f, List.mem_map.mpr ⟨o, ho, rfl⟩, hpath,
      fun hn => hsel ((mapAllDirectives_eq_nil f).mp hn)⟩

/-! ## 3. Types -/

theorem Ancestor.alike_mapDirectives (a : Ancestor) : a.Alike (a.mapDirectives f) := by
  cases a with
  | operation _ | fragment _ | inline _ => exact .refl _
  | field head => exact .field rfl

theorem Schema.typeBelow_mapDirectives (s : Schema) (current : Option NamedType)
    (ancestors : List Ancestor) :
    s.typeBelow current (ancestors.map (·.mapDirectives f)) = s.typeBelow current ancestors :=
  s.typeBelow_congr (List.forall₂_map_right_iff.mpr
    (List.forall₂_same.mpr fun a _ => a.alike_mapDirectives f)) current

/-- Ancestors that differ in their directives only. -/
def SameAncestors (ancestors others : List Ancestor) : Prop :=
  ancestors.map (·.mapDirectives fun _ => []) = others.map (·.mapDirectives fun _ => [])

/-- They lead to the same type. -/
theorem SameAncestors.typeAt {ancestors others : List Ancestor} (h : SameAncestors ancestors others)
    (s : Schema) : s.typeAt ancestors = s.typeAt others := by
  rw [Schema.typeAt, Schema.typeAt, ← s.typeBelow_mapDirectives (fun _ => []) none ancestors, h,
    s.typeBelow_mapDirectives]

theorem SameAncestors.under {ancestors others : List Ancestor} (h : SameAncestors ancestors others)
    {a b : Ancestor} (hab : a.mapDirectives (fun _ => []) = b.mapDirectives fun _ => []) :
    SameAncestors (ancestors ++ [a]) (others ++ [b]) := by
  unfold SameAncestors at h ⊢
  rw [List.map_append, List.map_append, h, List.map_singleton, List.map_singleton, hab]

end QueryCompiler
