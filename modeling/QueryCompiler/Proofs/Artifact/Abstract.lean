import QueryCompiler.Proofs.Artifact.Places
import QueryCompiler.Proofs.Selection.Pieces
import QueryCompiler.Proofs.Selection.PageInfo
/-
# Abstract fields carry the names of their types

The names of types are put in by a pass that works out the type of every field from what the field
stands under.  The selection is compiled by a walk that hands types down, through inline fragments,
into fragments and past labels, and merges what has one key.  Both find the same fields abstract,
so an entry that is marked as abstract has the name of the type among its fields, whichever of its
places marked it.

* `AddsTypenames`: what the pass does to some selections, case by case: behind the selections of an
  abstract field it adds the name of the type, unless this is there, and nothing else anywhere;
* `AddsTypenames.everyIn`: after it every abstract field selects the name of its type;
* `ArtifactContext.compile_abstract`: the same of the document that is sent, and of the entries of
  the selection.

Fields of abstract types are supposed to have selections, and names of types to have none.
-/
namespace QueryCompiler

variable {s : Schema} {ancestors others : List Ancestor} {head : FieldHead}

/-! ## 1. Abstract fields -/

/-- Whether what a field holds may be of several object types.  The name of a type is a text,
wherever it is asked for. -/
def Schema.isAbstractAt (s : Schema) (ancestors : List Ancestor) (head : FieldHead) : Bool :=
  head.name ≠ typenameField && (s.typeAt (ancestors ++ [.field head])).any NamedType.isAbstract

/-- An abstract field has selections, and the name of a type has none. -/
def WellSelected (s : Schema) : FieldProperty := fun ancestors head ss =>
  (s.isAbstractAt ancestors head = true → ss ≠ []) ∧ (head.name = typenameField → ss = [])

instance (s : Schema) (ancestors : List Ancestor) (head : FieldHead) (ss : List Selection) :
    Decidable (WellSelected s ancestors head ss) :=
  have : Decidable (ss = []) := decidable_of_iff (ss.isEmpty = true) List.isEmpty_iff
  inferInstanceAs (Decidable ((_ → ss ≠ []) ∧ (_ → ss = [])))

/-- An abstract field selects the name of its type, under no other label. -/
def NamesItsType (s : Schema) : FieldProperty := fun ancestors head ss =>
  s.isAbstractAt ancestors head = true → selectsTypename ss = true

theorem Schema.isAbstractAt_typename (s : Schema) (ancestors : List Ancestor)
    (h : head.name = typenameField) : s.isAbstractAt ancestors head = false := by
  rw [isAbstractAt, h]
  rfl

/-- Only the names of fields matter. -/
theorem Schema.isAbstractAt_congr (h : AlikeAncestors ancestors others) {head' : FieldHead}
    (hname : head'.name = head.name) :
    s.isAbstractAt others head' = s.isAbstractAt ancestors head := by
  rw [isAbstractAt, isAbstractAt, hname, (h.under (.field hname)).typeAt]

/-- A field that says nothing but a name and asks for the name of a type is found as such. -/
def Selection.isTypename : Selection → Bool
  | .field head _ => head.name = typenameField && head.label.isNone
  | _ => false

theorem selectsTypename_eq_any (ss : List Selection) :
    selectsTypename ss = ss.any Selection.isTypename := rfl

theorem selectsTypename_append (ss rest : List Selection) :
    selectsTypename (ss ++ rest) = (selectsTypename ss || selectsTypename rest) := List.any_append

/-- What is done to the selections one by one does not matter, as long as names of types stay. -/
theorem selectsTypename_map {f : Selection → Selection}
    (hf : ∀ sel, (f sel).isTypename = sel.isTypename) (ss : List Selection) :
    selectsTypename (ss.map f) = selectsTypename ss := by
  rw [selectsTypename_eq_any, List.any_map, selectsTypename_eq_any]
  exact congrArg ss.any (funext hf)

theorem selectsTypename_trimAll (ss : List Selection) :
    selectsTypename (trimAll ss) = selectsTypename ss := by
  rw [trimAll_eq_map]
  exact selectsTypename_map (fun sel => by cases sel <;> rfl) ss

theorem selectsTypename_mapAllDirectives (f : List Directive → List Directive)
    (ss : List Selection) :
    selectsTypename (Selection.mapAllDirectives f ss) = selectsTypename ss := by
  induction ss with
  | nil => rfl
  | cons first ss ih =>
    have hfirst : (first.mapDirectives f).isTypename = first.isTypename := by cases first <;> rfl
    rw [Selection.mapAllDirectives, selectsTypename_eq_any, List.any_cons, hfirst,
      ← selectsTypename_eq_any, ih]
    rfl

/-! ## 2. What the pass adds -/

/-- Some selections with the names of types put in: behind what an abstract field selects, unless
the name is there, and nowhere else. -/
inductive AddsTypenames (s : Schema) : List Ancestor → List Selection → List Selection → Prop
  | nil {ancestors : List Ancestor} : AddsTypenames s ancestors [] []
  | spread {ancestors : List Ancestor} {name : String} {directives : List Directive}
      {rest rest' : List Selection} : AddsTypenames s ancestors rest rest' →
      AddsTypenames s ancestors (.spread name directives :: rest) (.spread name directives :: rest')
  | inline {ancestors : List Ancestor} {condition : Option String} {directives : List Directive}
      {ss ss' rest rest' : List Selection} :
      AddsTypenames s (ancestors ++ [.inline condition]) ss ss' →
      AddsTypenames s ancestors rest rest' →
      AddsTypenames s ancestors (.inline condition directives ss :: rest)
        (.inline condition directives ss' :: rest')
  | same {ancestors : List Ancestor} {head : FieldHead} {ss ss' rest rest' : List Selection} :
      NamesItsType s ancestors head ss →
      AddsTypenames s (ancestors ++ [.field head]) ss ss' → AddsTypenames s ancestors rest rest' →
      AddsTypenames s ancestors (.field head ss :: rest) (.field head ss' :: rest')
  | added {ancestors : List Ancestor} {head : FieldHead} {ss ss' rest rest' : List Selection} :
      s.isAbstractAt ancestors head = true → selectsTypename ss = false →
      AddsTypenames s (ancestors ++ [.field head]) ss ss' → AddsTypenames s ancestors rest rest' →
      AddsTypenames s ancestors (.field head ss :: rest)
        (.field head (ss' ++ [plainField typenameField []]) :: rest')

namespace AddsTypenames

variable {ss ss' : List Selection}

/-- What selects the name of a type by itself is not changed by what is added below. -/
theorem selectsTypename_eq (h : AddsTypenames s ancestors ss ss') :
    selectsTypename ss' = selectsTypename ss := by
  induction h with
  | nil => rfl
  | spread _ ih => exact ih
  | inline _ _ _ ih => exact ih
  | same _ _ _ _ ih | added _ _ _ _ _ ih =>
    rw [selectsTypename_eq_any, List.any_cons, ← selectsTypename_eq_any, ih]
    rfl

/-- **After the pass every abstract field selects the name of its type.** -/
theorem everyIn (h : AddsTypenames s ancestors ss ss') :
    EveryIn (NamesItsType s) ancestors ss' := by
  have hadded (a : List Ancestor) : EveryIn (NamesItsType s) a [plainField typenameField []] := by
    rw [plainField, EveryIn, Selection.Every]
    refine ⟨⟨fun habstract => ?_, everyIn_nil _⟩, everyIn_nil _⟩
    rw [s.isAbstractAt_typename a rfl] at habstract
    cases habstract
  induction h with
  | nil => exact everyIn_nil _
  | spread _ ih =>
    rw [EveryIn, Selection.Every]
    exact ⟨trivial, ih⟩
  | inline _ _ ihb ih =>
    rw [EveryIn, Selection.Every]
    exact ⟨ihb, ih⟩
  | same hnames hbelow _ ihb ih =>
    rw [EveryIn, Selection.Every]
    exact ⟨⟨fun habstract => hbelow.selectsTypename_eq.trans (hnames habstract), ihb⟩, ih⟩
  | added _ _ _ _ ihb ih =>
    rw [EveryIn, Selection.Every, everyIn_append]
    refine ⟨⟨fun _ => ?_, ihb, hadded _⟩, ih⟩
    rw [selectsTypename_append, Bool.or_eq_true]
    exact .inr rfl

end AddsTypenames

/-- What a field gains, where fields have the selections they should have. -/
theorem gainedTypename_eq {ss : List Selection} (h : WellSelected s ancestors head ss) :
    gainedTypename s (ancestors ++ [.field head]) ss
      = if s.isAbstractAt ancestors head = true ∧ selectsTypename ss = false
        then [plainField typenameField []] else [] := by
  by_cases hname : head.name = typenameField
  · rw [h.2 hname, s.isAbstractAt_typename ancestors hname]
    rfl
  · have habstract : s.isAbstractAt ancestors head
        = (s.typeAt (ancestors ++ [.field head])).any NamedType.isAbstract := by
      rw [Schema.isAbstractAt, decide_eq_true hname, Bool.true_and]
    rw [gainedTypename, ← habstract]
    cases ha : s.isAbstractAt ancestors head with
    | false => simp
    | true =>
      have hne : ss.isEmpty = false := List.isEmpty_eq_false_iff.mpr (h.1 ha)
      simp [hne]

mutual

theorem addsTypenames_cons : ∀ {sel : Selection} {ss ss' : List Selection}
    {ancestors : List Ancestor}, sel.Every (WellSelected s) ancestors →
    AddsTypenames s ancestors ss ss' →
    AddsTypenames s ancestors (sel :: ss) (injectTypename s ancestors sel :: ss')
  | .field head selections, _, _, ancestors, h, hrest => by
    rw [Selection.Every] at h
    rw [injectTypename, gainedTypename_eq h.1]
    have hbelow := addsTypenames_injectTypenames h.2
    split
    · rename_i hlacks
      exact .added hlacks.1 hlacks.2 hbelow hrest
    · rename_i hnot
      rw [List.append_nil]
      refine .same (fun habstract => ?_) hbelow hrest
      exact Bool.not_eq_false _ ▸ fun hlacks => hnot ⟨habstract, hlacks⟩
  | .spread _ _, _, _, _, _, hrest => by
    rw [injectTypename]
    exact .spread hrest
  | .inline condition directives selections, _, _, _, h, hrest => by
    rw [Selection.Every] at h
    rw [injectTypename]
    exact .inline (addsTypenames_injectTypenames h) hrest

/-- **The pass only adds names of types.** -/
theorem addsTypenames_injectTypenames : ∀ {ss : List Selection} {ancestors : List Ancestor},
    EveryIn (WellSelected s) ancestors ss →
    AddsTypenames s ancestors ss (injectTypenames s ancestors ss)
  | [], _, _ => .nil
  | sel :: ss, _, h => by
    rw [EveryIn] at h
    rw [injectTypenames]
    exact addsTypenames_cons h.1 (addsTypenames_injectTypenames h.2)

end

/-! ## 3. Definitions -/

/-- Every field of a definition has the property. -/
def Definition.Every (P : FieldProperty) : Definition → Prop
  | .operation o => EveryIn P [.operation o.kind] o.selections
  | .fragment f => EveryIn P [.fragment f.condition] f.selections
  | _ => True

instance (P : FieldProperty) [∀ ancestors head ss, Decidable (P ancestors head ss)]
    (d : Definition) : Decidable (d.Every P) :=
  match d with
  | .operation o => inferInstanceAs (Decidable (EveryIn P [.operation o.kind] o.selections))
  | .fragment f => inferInstanceAs (Decidable (EveryIn P [.fragment f.condition] f.selections))
  | .schema _ | .type _ | .directive _ => .isTrue trivial

/-- A definition with the names of types put into its selections. -/
inductive Definition.AddsTypenames (s : Schema) : Definition → Definition → Prop
  | operation {o : Operation} {selections : List Selection} :
      QueryCompiler.AddsTypenames s [.operation o.kind] o.selections selections →
      AddsTypenames s (.operation o) (.operation { o with selections })
  | fragment {f : Fragment} {selections : List Selection} :
      QueryCompiler.AddsTypenames s [.fragment f.condition] f.selections selections →
      AddsTypenames s (.fragment f) (.fragment { f with selections })

theorem Definition.AddsTypenames.every {d d' : Definition} (h : d.AddsTypenames s d') :
    d'.Every (NamesItsType s) := by
  cases h with
  | operation h | fragment h => exact h.everyIn

theorem Executable.addsTypenames {e : Executable} (h : e.definition.Every (WellSelected s)) :
    e.definition.AddsTypenames s (e.withTypenames s).definition := by
  cases e with
  | operation o => exact .operation (addsTypenames_injectTypenames h)
  | fragment f => exact .fragment (addsTypenames_injectTypenames h)

/-- Directives are not looked at. -/
theorem Definition.Every.mapDirectives (f : List Directive → List Directive) {d : Definition}
    (h : d.Every (NamesItsType s)) : (d.mapDirectives f).Every (NamesItsType s) := by
  have hkept : ∀ (ancestors others : List Ancestor) (head : FieldHead) (ss : List Selection),
      AlikeAncestors ancestors others → NamesItsType s ancestors head ss →
        NamesItsType s others (head.mapDirectives f) (Selection.mapAllDirectives f ss) := by
    intro ancestors others head ss halike h habstract
    have hname : (head.mapDirectives f).name = head.name := rfl
    rw [Schema.isAbstractAt_congr halike hname] at habstract
    rw [selectsTypename_mapAllDirectives]
    exact h habstract
  cases d with
  | operation o => exact everyIn_mapAllDirectives hkept (alikeAncestors_refl _) h
  | fragment fr => exact everyIn_mapAllDirectives hkept (alikeAncestors_refl _) h
  | schema _ | type _ | directive _ => trivial

theorem keptByTrimming_namesItsType (s : Schema) : KeptByTrimming (NamesItsType s) := by
  intro ancestors head ss h habstract
  split
  · rename_i hname
    rw [s.isAbstractAt_typename ancestors hname] at habstract
    exact absurd habstract nofun
  · rw [selectsTypename_trimAll]
    exact h habstract

/-! ## 4. Places of what is sent -/

mutual

theorem mem_spreadNames_trimmed {name : String} : ∀ {sel : Selection},
    name ∈ spreadNames sel.trimmed → name ∈ spreadNames sel
  | .field head selections, h => by
    rw [Selection.trimmed, spreadNames] at h
    split at h
    · exact absurd h List.not_mem_nil
    · exact mem_spreadNamesOf_trimAll h
  | .spread _ _, h => h
  | .inline _ _ selections, h => by
    rw [Selection.trimmed, spreadNames] at h
    exact mem_spreadNamesOf_trimAll h

/-- Trimmed selections spread nothing else. -/
theorem mem_spreadNamesOf_trimAll {name : String} : ∀ {ss : List Selection},
    name ∈ spreadNamesOf (trimAll ss) → name ∈ spreadNamesOf ss
  | [], h => h
  | sel :: ss, h => by
    rw [trimAll, spreadNamesOf, List.mem_append] at h
    rw [spreadNamesOf, List.mem_append]
    exact h.imp mem_spreadNames_trimmed mem_spreadNamesOf_trimAll

end

namespace ArtifactContext

variable {x : ArtifactContext} {d : Document} {a : Artifact} {main : Executable}
  {collected : List Fragment}

/-- A fragment under a name that is sent is compiled as it is sent, up to what stands below the
names of types. -/
theorem get?_trimmed_of_fragmentIn (hx : NamedByKey x.fragments)
    (hdefs : x.compiledDefinitions d = .ok (main, collected)) {name : String} {f g : Fragment}
    (hg : fragmentIn (main.definition :: collected.map .fragment) name = some g)
    (hf : Table.get? (x.compilation d main collected).trimmed.fragments name = some f) :
    f = g.trimmed := by
  have hcompiled : Table.get? (x.compilation d main collected).fragments name = some g :=
    get?_compiledFragments (compiledDefinitions_nodup hx hdefs) hg
  rw [Compilation.get?_trimmed, hcompiled, Option.map_some] at hf
  exact (Option.some.inj hf).symm

/-- What is reached from the definition is sent with it. -/
theorem exists_fragmentIn_of_reached (hx : NamedByKey x.fragments)
    (hdefs : x.compiledDefinitions d = .ok (main, collected)) {name : String}
    (h : Expands.ReachedFrom (Table.get? (x.compilation d main collected).trimmed.fragments)
      (trimAll main.selections) name) :
    ∃ g, fragmentIn (main.definition :: collected.map .fragment) name = some g := by
  have hwithin := compiledDefinitions_within hx hdefs
  obtain ⟨first, hfirst, hchain⟩ := h
  induction hchain using Relation.ReflTransGen.head_induction_on with
  | refl =>
    refine hwithin _ List.mem_cons_self first ?_
    cases main <;> exact mem_spreadNamesOf_trimAll hfirst
  | head hstep _ ih =>
    obtain ⟨f, hf, hspread⟩ := hstep
    obtain ⟨g, hg⟩ := ih
    rw [get?_trimmed_of_fragmentIn hx hdefs hg hf] at hspread
    exact hwithin _ (mem_of_fragmentIn hg) _ (mem_spreadNamesOf_trimAll hspread)

/-- **What holds of every field that is sent holds at every place of an artifact.** -/
theorem places_of_sent {P : FieldProperty} (htrimming : KeptByTrimming P)
    (hx : NamedByKey x.fragments) (hdefs : x.compiledDefinitions d = .ok (main, collected))
    (hP : ∀ definition ∈ main.definition :: collected.map .fragment, definition.Every P)
    {os : List Occurrence}
    (h : Expands (Table.get? (x.compilation d main collected).trimmed.fragments)
      { fragment := none, ancestors := [main.ancestor] } (trimAll main.selections) os) :
    ∀ o ∈ os, P o.site.ancestors o.field o.selections := by
  refine h.fields (P := fun _ => P) ?_ fun name f hreached hf => ?_
  · have hmain := hP _ List.mem_cons_self
    cases main <;> exact everyIn_trimAll htrimming hmain
  · obtain ⟨g, hg⟩ := exists_fragmentIn_of_reached hx hdefs hreached
    rw [get?_trimmed_of_fragmentIn hx hdefs hg hf]
    exact everyIn_trimAll htrimming (hP _ (mem_of_fragmentIn hg))

end ArtifactContext

/-! ## 5. Entries -/

/-- The head of a place is abstract where the field of the place is. -/
theorem Compilation.HeadOf.abstract_eq {x : Compilation} {o : Occurrence} {h : EntryHead}
    (hh : x.HeadOf o h) : h.abstract = x.config.schema.isAbstractAt o.site.ancestors o.field := by
  rw [HeadOf] at hh
  split at hh
  · rename_i hname
    rw [hh, Schema.isAbstractAt_typename _ _ hname]
    rfl
  · rename_i hname
    obtain ⟨f, key, hf, -, hh⟩ := hh
    obtain ⟨operations, list, connection, filters, rfl⟩ := entryHead_shape hh
    have hbind := definition_eq_ok hf
    obtain ⟨t, ht, -⟩ := Option.bind_eq_some_iff.mp hbind
    rw [ht] at hbind
    have htype := ((Schema.leads_typeAt ht).field hbind).typeAt
    rw [Schema.isAbstractAt, htype, decide_eq_true hname, Bool.true_and]

/-- Selections with the name of a type lead to a place for it. -/
theorem Expands.exists_of_selectsTypename {fragment? : String → Option Fragment} {site : Site}
    {ss : List Selection} {os : List Occurrence} (h : Expands fragment? site ss os)
    (hs : selectsTypename ss = true) : ∃ o ∈ os, o.path = [typenameField] := by
  rw [selectsTypename_eq_any, List.any_eq_true] at hs
  obtain ⟨sel, hmem, hsel⟩ := hs
  cases sel with
  | field head below =>
    obtain ⟨hname, hlabel⟩ := Bool.and_eq_true_iff.mp hsel
    obtain ⟨-, -, hplace, -⟩ := h.of_mem_field hmem
    refine ⟨_, hplace, ?_⟩
    rw [FieldHead.responseKey, Option.isNone_iff_eq_none.mp hlabel, of_decide_eq_true hname]
    rfl
  | spread _ _ | inline _ _ _ => exact absurd hsel nofun

namespace ArtifactContext

/-- What is put together of a document, before the names of types are put in: its definition and
the fragments that this refers to. -/
def collectedDefinitions (x : ArtifactContext) (d : Document) : Except Error (List Definition) := do
  let main ← d.executable
  let others ← referenced x.fragments main
  return main.definition :: others.map .fragment

variable {x : ArtifactContext} {c : Config} {r : Registry} {documents : List Document}
  {d : Document} {a : Artifact} {main : Executable} {others : List Fragment}

/-- What is compiled is what is collected, with the names of types put in. -/
theorem addsTypenames_collected {collected : List Definition}
    (hcollected : x.collectedDefinitions d = .ok collected)
    (hselected : ∀ definition ∈ collected, definition.Every (WellSelected x.config.schema))
    (hdefs : x.compiledDefinitions d = .ok (main, others)) :
    List.Forall₂ (Definition.AddsTypenames x.config.schema) collected
      (main.definition :: others.map .fragment) := by
  obtain ⟨e, fs, he, hfs, rfl, rfl⟩ := compiledDefinitions_eq_ok hdefs
  have hthese : x.collectedDefinitions d = .ok (e.definition :: fs.map .fragment) :=
    bind_eq_ok.mpr ⟨e, he, bind_eq_ok.mpr ⟨fs, hfs, rfl⟩⟩
  obtain rfl := Except.ok.inj (hcollected.symm.trans hthese)
  rw [List.forall_mem_cons, List.forall_mem_map] at hselected
  refine .cons (Executable.addsTypenames hselected.1) ?_
  rw [List.forall₂_map_left_iff, List.map_map, List.forall₂_map_right_iff, List.forall₂_same]
  exact fun f hf => .fragment (addsTypenames_injectTypenames (hselected.2 f hf))

/-- Where the fields that are sent name their types, so do the entries. -/
theorem typename_of_abstract (hx : NamedByKey x.fragments)
    (hdefs : x.compiledDefinitions d = .ok (main, others))
    (hnames : ∀ definition ∈ main.definition :: others.map .fragment,
      definition.Every (NamesItsType x.config.schema))
    {type : NamedType} (htype : main.rootType? x.config.schema = some type) {t : SelectionTree}
    (hsel : (x.compilation d main others).compile type main.selections = .ok t) {p : List String}
    {e : Entry String EntryHead} (he : Entry.at? t p = some e)
    (habstract : e.head.abstract = true) :
    ∃ fields, e.fields = some fields ∧ typenameField ∈ Table.keys fields := by
  obtain ⟨rows, hrows, hshows⟩ := Compilation.compile_shows_trimmed _ (leads_rootType htype) hsel
  have hplaces := places_of_sent (keptByTrimming_namesItsType _) hx hdefs hnames hrows.expands
  have hmerge : ∀ a b : EntryHead,
      (a.merge b).abstract = true ↔ a.abstract = true ∨ b.abstract = true :=
    fun a b => Iff.of_eq (Bool.or_eq_true a.abstract b.abstract)
  -- of the places that share the path, one at least is abstract
  obtain ⟨o, ho, rfl, hmarked⟩ := (hshows.head_iff (·.abstract = true)
    (fun o => x.config.schema.isAbstractAt o.site.ancestors o.field = true) hmerge
    (fun row hrow => by rw [(hrows.heads row hrow).abstract_eq]; rfl) he).mp habstract
  obtain ⟨o', ho', hpath⟩ := hrows.expands.exists_below
    (Q := (selectsTypename · = true)) Expands.exists_of_selectsTypename o ho (hplaces o ho hmarked)
  obtain ⟨fields, below, hfields, hbelow⟩ :=
    hshows.exists_below ho' hpath (List.cons_ne_nil _ _) he
  exact ⟨fields, hfields, Table.mem_keys_of_get? hbelow⟩

/-- **Abstract fields carry the names of their types**, in the document that is sent and in the
selection. -/
theorem compile_abstract {collected : List Definition}
    (hcollected : (ofDocuments c r documents).collectedDefinitions d = .ok collected)
    (hselected : ∀ definition ∈ collected, definition.Every (WellSelected c.schema))
    (h : (ofDocuments c r documents).compile d = .ok a) :
    ∃ completed, List.Forall₂ (Definition.AddsTypenames c.schema) collected completed ∧
      a.raw = printDocument ((ofDocuments c r documents).sent completed) ∧
      (∀ definition ∈ (ofDocuments c r documents).sent completed,
        definition.Every (NamesItsType c.schema)) ∧
      ∀ p e, Entry.at? a.selection p = some e → e.head.abstract = true →
        ∃ fields, e.fields = some fields ∧ typenameField ∈ Table.keys fields := by
  obtain ⟨main, others, type, hdefs, htype, hraw, hsel⟩ := compile_eq_ok h
  have hadds := addsTypenames_collected hcollected hselected hdefs
  have hnames : ∀ definition ∈ main.definition :: others.map .fragment,
      definition.Every (NamesItsType c.schema) := by
    intro definition hmem
    obtain ⟨source, -, hsource⟩ := exists_of_forall₂ hadds hmem
    exact hsource.every
  refine ⟨_, hadds, hraw, fun definition hmem => ?_, fun p e he habstract => ?_⟩
  · obtain ⟨whole, hwhole, rfl⟩ := List.mem_map.mp hmem
    exact (hnames whole hwhole).mapDirectives _
  · exact typename_of_abstract (namedByKey_fragmentTable documents) hdefs hnames htype hsel he
      habstract

end ArtifactContext

/-! ## 6. Characters of whatever type -/

namespace Sample

/-- What the artifact of the hero is compiled with. -/
def heroContext : ArtifactContext := .ofDocuments (config characters) [] friends

end Sample

open Sample in
/-- The hero and all friends are characters, of whatever type. -/
theorem hero_abstract :
    ∃ a, heroContext.compile hero = .ok a ∧
      (∃ collected completed, heroContext.collectedDefinitions hero = .ok collected ∧
        (∀ definition ∈ collected, definition.Every (WellSelected characters)) ∧
        List.Forall₂ (Definition.AddsTypenames characters) collected completed ∧
        a.raw = printDocument (heroContext.sent completed)) ∧
      ∃ e fields, Entry.at? a.selection ["hero", "friend"] = some e ∧ e.head.abstract = true ∧
        e.fields = some fields ∧ typenameField ∈ Table.keys fields := by
  have hok : ((heroContext.compile hero).toOption.any fun a =>
      (Entry.at? a.selection ["hero", "friend"]).any (·.head.abstract)) = true := by
    decide +kernel
  cases h : heroContext.compile hero with
  | error e => rw [h] at hok; exact absurd hok nofun
  | ok a =>
    rw [h, Except.toOption, Option.any_some, Option.any_eq_true] at hok
    obtain ⟨e, he, habstract⟩ := hok
    have hselected : ∀ definition ∈ [hero, friends[1], friends[2]].flatMap (·.definitions),
        definition.Every (WellSelected characters) := by decide
    obtain ⟨completed, hadds, hraw, -, hentries⟩ :=
      ArtifactContext.compile_abstract (by rfl) hselected h
    obtain ⟨fields, hfields, hname⟩ := hentries _ e he habstract
    exact ⟨a, rfl, ⟨_, completed, rfl, hselected, hadds, hraw⟩,
      e, fields, he, habstract, hfields, hname⟩

end QueryCompiler
