import QueryCompiler.Proofs.Artifact.Masking
import QueryCompiler.Proofs.Lists.Settled
import QueryCompiler.Proofs.Pagination.Fields
import QueryCompiler.Proofs.Selection.PageInfo
/-
# Paths that stay open

The path of a paginated field is written down when the field is visited, and followed in a tree
that is compiled much later.  In between the selections grow: fields gain selections, and new
fields come behind, but no field goes away or changes its key (`Widens`).  So the path stays open
(`openPathsOf`): it goes through fields and inline fragments, and each of its fields has
selections.

* `PaginatedField.path_mem_openPathsOf`: the path of a paginated field is open;
* `Widens.openPathsOf`: open paths stay open;
* `Shows.resolves`: in a compiled selection, an open path leads to an entry with fields, and no
  entry on it is masked.
-/
namespace QueryCompiler

/-! ## 1. Open paths -/

mutual

/-- The paths of the fields with selections that a selection reaches through fields and inline
fragments.  Nothing below the name of a type counts. -/
def openPaths : Selection → List (List String)
  | .field head selections =>
    if head.name = typenameField || selections.isEmpty then []
    else [head.responseKey] :: (openPathsOf selections).map (head.responseKey :: ·)
  | .spread _ _ => []
  | .inline _ _ selections => openPathsOf selections

def openPathsOf : List Selection → List (List String)
  | [] => []
  | s :: selections => openPaths s ++ openPathsOf selections

end

theorem mem_openPaths_field {head : FieldHead} {ss : List Selection} {p : List String} :
    p ∈ openPaths (.field head ss) ↔ head.name ≠ typenameField ∧ ss ≠ [] ∧
      (p = [head.responseKey] ∨ ∃ q ∈ openPathsOf ss, p = head.responseKey :: q) := by
  rw [openPaths]
  by_cases hleaf : head.name = typenameField ∨ ss = []
  · rw [if_pos (by simpa using hleaf)]
    exact ⟨fun hp => absurd hp List.not_mem_nil,
      fun ⟨hname, hss, _⟩ => (hleaf.elim hname hss).elim⟩
  · rw [if_neg (by simpa using hleaf)]
    rw [not_or] at hleaf
    simp only [List.mem_cons, List.mem_map, eq_comm (b := p), ne_eq, hleaf.1, hleaf.2,
      not_false_eq_true, true_and]

theorem openPathsOf_append (ss rest : List Selection) :
    openPathsOf (ss ++ rest) = openPathsOf ss ++ openPathsOf rest := by
  induction ss with
  | nil => rfl
  | cons s ss ih => rw [List.cons_append, openPathsOf, openPathsOf, ih, List.append_assoc]

mutual

theorem openPaths_initial : ∀ {s : Selection} {p q : List String}, p ∈ openPaths s → q <+: p →
    q ≠ [] → q ∈ openPaths s
  | .field head ss, p, q, hp, hq, hne => by
    rw [mem_openPaths_field] at hp ⊢
    obtain ⟨hname, hss, hp⟩ := hp
    obtain ⟨k, q, rfl⟩ := List.exists_cons_of_ne_nil hne
    refine ⟨hname, hss, ?_⟩
    rcases hp with rfl | ⟨p, hp, rfl⟩
    · obtain ⟨rfl, hbelow⟩ := List.cons_prefix_cons.mp hq
      obtain rfl := List.prefix_nil.mp hbelow
      exact .inl rfl
    · obtain ⟨rfl, hbelow⟩ := List.cons_prefix_cons.mp hq
      by_cases hnil : q = []
      · exact .inl (by rw [hnil])
      · exact .inr ⟨q, openPathsOf_initial hp hbelow hnil, rfl⟩
  | .spread _ _, _, _, hp, _, _ => by
    rw [openPaths] at hp
    exact absurd hp List.not_mem_nil
  | .inline _ _ ss, p, q, hp, hq, hne => by
    rw [openPaths] at hp ⊢
    exact openPathsOf_initial hp hq hne

/-- What is on the way of an open path is open. -/
theorem openPathsOf_initial : ∀ {ss : List Selection} {p q : List String}, p ∈ openPathsOf ss →
    q <+: p → q ≠ [] → q ∈ openPathsOf ss
  | [], _, _, hp, _, _ => absurd hp List.not_mem_nil
  | s :: ss, p, q, hp, hq, hne => by
    rw [openPathsOf, List.mem_append] at hp ⊢
    exact hp.imp (openPaths_initial · hq hne) (openPathsOf_initial · hq hne)

end

mutual

theorem openPaths_trimmed : ∀ s : Selection, openPaths s.trimmed = openPaths s
  | .field head ss => by
    rw [Selection.trimmed, openPaths, openPaths]
    by_cases hname : head.name = typenameField
    · simp [hname]
    · rw [if_neg hname, isEmpty_trimAll, openPathsOf_trimAll ss]
  | .spread _ _ => rfl
  | .inline _ _ ss => by
    rw [Selection.trimmed, openPaths, openPaths, openPathsOf_trimAll ss]

/-- Nothing below the name of a type is on an open path. -/
theorem openPathsOf_trimAll : ∀ ss : List Selection, openPathsOf (trimAll ss) = openPathsOf ss
  | [] => rfl
  | s :: ss => by
    rw [trimAll, openPathsOf, openPathsOf, openPaths_trimmed s, openPathsOf_trimAll ss]

end

/-! ## 2. Selections that widen -/

/-- The selections are others with more in them: each field has its name, its label and what it
selected, and may have gained something behind that. -/
inductive Widens : List Selection → List Selection → Prop
  | nil : Widens [] []
  | field {head head' : FieldHead} {below below' rest rest' : List Selection}
      (gained : List Selection) (hname : head'.name = head.name) (hlabel : head'.label = head.label)
      (hbelow : Widens below below') (hrest : Widens rest rest') :
      Widens (.field head below :: rest) (.field head' (below' ++ gained) :: rest')
  | spread {name : String} {directives directives' : List Directive} {rest rest' : List Selection}
      (hrest : Widens rest rest') :
      Widens (.spread name directives :: rest) (.spread name directives' :: rest')
  | inline {condition : Option String} {directives directives' : List Directive}
      {below below' rest rest' : List Selection} (hbelow : Widens below below')
      (hrest : Widens rest rest') :
      Widens (.inline condition directives below :: rest)
        (.inline condition directives' below' :: rest')

theorem Widens.ne_nil {ss ss' : List Selection} (h : Widens ss ss') (hss : ss ≠ []) : ss' ≠ [] := by
  cases h with
  | nil => exact absurd rfl hss
  | field | spread | inline => exact List.cons_ne_nil _ _

/-- **Open paths stay open.** -/
theorem Widens.openPathsOf {ss ss' : List Selection} (h : Widens ss ss') :
    openPathsOf ss ⊆ openPathsOf ss' := by
  induction h with
  | nil => exact List.Subset.refl _
  | @field head head' below below' rest rest' gained hname hlabel hbelow _ ihb ih =>
    intro p hp
    rw [QueryCompiler.openPathsOf, List.mem_append] at hp ⊢
    refine hp.imp (fun hp => ?_) (ih ·)
    have hkey : head'.responseKey = head.responseKey := by
      rw [FieldHead.responseKey, FieldHead.responseKey, hname, hlabel]
    rw [mem_openPaths_field] at hp ⊢
    obtain ⟨htypename, hne, hp⟩ := hp
    rw [hname, hkey, openPathsOf_append]
    refine ⟨htypename, List.append_ne_nil_of_left_ne_nil (hbelow.ne_nil hne) _, ?_⟩
    exact hp.imp_right fun ⟨q, hq, hp⟩ => ⟨q, List.mem_append_left _ (ihb hq), hp⟩
  | spread _ ih => exact ih
  | inline _ _ ihb ih =>
    intro p hp
    rw [QueryCompiler.openPathsOf, openPaths, List.mem_append] at hp ⊢
    exact hp.imp (ihb ·) (ih ·)

/-- Pagination widens selections. -/
theorem widens_paginateSelections {c : Config} : ∀ {ancestors : List Ancestor}
    {ss ss' : List Selection} {state state' : PageState},
    paginateSelections c ancestors ss state = .ok (ss', state') → Widens ss ss'
  | _, [], ss', _, _, h => by
    rw [paginateSelections, pure_eq_ok] at h
    rw [← (Prod.mk.inj h).1]
    exact .nil
  | ancestors, .field head below :: ss, ss', state, state', h => by
    rw [paginateSelections, paginateSelection] at h
    split at h
    · simp only [bind_eq_ok, pure_eq_ok, Prod.mk.injEq, Prod.exists] at h
      obtain ⟨_, _, ⟨head', gained, flags, hpaged, below', state₁, hbelow, rfl, rfl⟩, rest, _,
        hrest, rfl, rfl⟩ := h
      obtain ⟨_, arguments, -, -, rfl, -⟩ := paginateHead_eq_ok hpaged
      exact .field gained rfl rfl (widens_paginateSelections hbelow)
        (widens_paginateSelections hrest)
    · simp only [bind_eq_ok, pure_eq_ok, Prod.mk.injEq, Prod.exists] at h
      obtain ⟨_, _, ⟨below', state₁, hbelow, rfl, rfl⟩, rest, _, hrest, rfl, rfl⟩ := h
      rw [← List.append_nil below']
      exact .field [] rfl rfl (widens_paginateSelections hbelow) (widens_paginateSelections hrest)
  | ancestors, .spread name directives :: ss, ss', state, state', h => by
    rw [paginateSelections, paginateSelection] at h
    simp only [bind_eq_ok, pure_eq_ok, Prod.mk.injEq, Prod.exists] at h
    obtain ⟨_, _, ⟨rfl, rfl⟩, rest, _, hrest, rfl, rfl⟩ := h
    exact .spread (widens_paginateSelections hrest)
  | ancestors, .inline condition directives below :: ss, ss', state, state', h => by
    rw [paginateSelections, paginateSelection] at h
    simp only [bind_eq_ok, pure_eq_ok, Prod.mk.injEq, Prod.exists] at h
    obtain ⟨_, _, ⟨below', state₁, hbelow, rfl, rfl⟩, rest, _, hrest, rfl, rfl⟩ := h
    exact .inline (widens_paginateSelections hbelow) (widens_paginateSelections hrest)

/-- Other directives change no field. -/
theorem widens_mapAllDirectives (f : List Directive → List Directive) : ∀ ss : List Selection,
    Widens ss (Selection.mapAllDirectives f ss)
  | [] => .nil
  | .field head below :: ss => by
    rw [Selection.mapAllDirectives, Selection.mapDirectives,
      ← List.append_nil (Selection.mapAllDirectives f below)]
    exact .field [] rfl rfl (widens_mapAllDirectives f below) (widens_mapAllDirectives f ss)
  | .spread name directives :: ss => .spread (widens_mapAllDirectives f ss)
  | .inline condition directives below :: ss =>
    .inline (widens_mapAllDirectives f below) (widens_mapAllDirectives f ss)

/-- The list pass widens selections. -/
theorem widens_settledAll (c : Config) : ∀ (ancestors : List Ancestor) (ss : List Selection),
    Widens ss (Tagging.settledAll c ancestors ss)
  | _, [] => .nil
  | ancestors, .field head below :: ss =>
    .field (Tagging.gains c ancestors head below) rfl rfl (widens_settledAll c _ below)
      (widens_settledAll c _ ss)
  | ancestors, .spread name directives :: ss => .spread (widens_settledAll c _ ss)
  | ancestors, .inline condition directives below :: ss =>
    .inline (widens_settledAll c _ below) (widens_settledAll c _ ss)

/-- Names of types widen selections. -/
theorem widens_injectTypenames (s : Schema) : ∀ (ancestors : List Ancestor) (ss : List Selection),
    Widens ss (injectTypenames s ancestors ss)
  | _, [] => .nil
  | ancestors, .field head below :: ss =>
    .field _ rfl rfl (widens_injectTypenames s _ below) (widens_injectTypenames s _ ss)
  | ancestors, .spread name directives :: ss => .spread (widens_injectTypenames s _ ss)
  | ancestors, .inline condition directives below :: ss =>
    .inline (widens_injectTypenames s _ below) (widens_injectTypenames s _ ss)

/-! ## 3. Paginated fields -/

theorem Ancestor.path_concat_field (ancestors : List Ancestor) (head : FieldHead) :
    Ancestor.path (ancestors ++ [.field head]) = Ancestor.path ancestors ++ [head.responseKey] := by
  rw [path, List.filterMap_append]
  rfl

theorem Ancestor.path_concat_inline (ancestors : List Ancestor) (condition : Option String) :
    Ancestor.path (ancestors ++ [.inline condition]) = Ancestor.path ancestors := by
  rw [path, List.filterMap_append]
  exact List.append_nil _

mutual

theorem path_mem_openPaths {c : Config} {p : PaginatedField} :
    ∀ {s : Selection} {ancestors : List Ancestor}, s.typenamesAreLeaves = true →
      p ∈ s.paginatedFields c ancestors → ∃ q ∈ openPaths s, p.path = Ancestor.path ancestors ++ q
  | .field head ss, ancestors, hleaves, hp => by
    rw [Selection.typenamesAreLeaves, Bool.and_eq_true, Bool.or_eq_true, decide_eq_true_iff,
      List.isEmpty_iff] at hleaves
    obtain ⟨hname, hleaves⟩ := hleaves
    -- a field below this one
    have hbelow (hp : p ∈ paginatedFieldsOf c (ancestors ++ [.field head]) ss) :
        ∃ q ∈ openPaths (.field head ss), p.path = Ancestor.path ancestors ++ q := by
      obtain ⟨q, hq, hpath⟩ := path_mem_openPathsOf hleaves hp
      have hne : ss ≠ [] := by
        rintro rfl
        exact absurd hp List.not_mem_nil
      refine ⟨head.responseKey :: q,
        mem_openPaths_field.mpr ⟨hname.resolve_right hne, hne, .inr ⟨q, hq, rfl⟩⟩, ?_⟩
      rw [hpath, Ancestor.path_concat_field, List.append_assoc, List.singleton_append]
    rw [Selection.paginatedFields] at hp
    split at hp
    · rename_i hpaginated
      rcases List.mem_cons.mp hp with rfl | hp
      · rw [isPaginated, Bool.and_eq_true, Bool.not_eq_true', List.isEmpty_eq_false_iff]
          at hpaginated
        refine ⟨[head.responseKey], mem_openPaths_field.mpr
          ⟨hname.resolve_right hpaginated.2, hpaginated.2, .inl rfl⟩, ?_⟩
        exact Ancestor.path_concat_field ancestors head
      · exact hbelow hp
    · exact hbelow hp
  | .spread _ _, _, _, hp => absurd hp List.not_mem_nil
  | .inline condition _ ss, ancestors, hleaves, hp => by
    rw [Selection.typenamesAreLeaves] at hleaves
    obtain ⟨q, hq, hpath⟩ := path_mem_openPathsOf hleaves hp
    exact ⟨q, hq, by rw [hpath, Ancestor.path_concat_inline]⟩

/-- **The path of a paginated field is open**, seen from what the selections stand under. -/
theorem path_mem_openPathsOf {c : Config} {p : PaginatedField} :
    ∀ {ss : List Selection} {ancestors : List Ancestor}, typenamesAreLeavesIn ss = true →
      p ∈ paginatedFieldsOf c ancestors ss →
        ∃ q ∈ openPathsOf ss, p.path = Ancestor.path ancestors ++ q
  | [], _, _, hp => absurd hp List.not_mem_nil
  | s :: ss, ancestors, hleaves, hp => by
    rw [typenamesAreLeavesIn, Bool.and_eq_true] at hleaves
    rw [paginatedFieldsOf, List.mem_append] at hp
    rcases hp with hp | hp
    · obtain ⟨q, hq, hpath⟩ := path_mem_openPaths hleaves.1 hp
      exact ⟨q, List.mem_append_left _ hq, hpath⟩
    · obtain ⟨q, hq, hpath⟩ := path_mem_openPathsOf hleaves.2 hp
      exact ⟨q, List.mem_append_right _ hq, hpath⟩

end

/-! ## 4. Entries on open paths -/

/-- An open path is that of a place with selections, in the same definition. -/
theorem Expands.exists_of_openPath {fragment? : String → Option Fragment} {site : Site}
    {ss : List Selection} {os : List Occurrence} (h : Expands fragment? site ss os) :
    ∀ p ∈ openPathsOf ss, ∃ o ∈ os, o.path = p ∧ o.site.fragment = site.fragment ∧
      o.selections ≠ [] := by
  induction h with
  | nil => exact fun _ hp => absurd hp List.not_mem_nil
  | @field site head ss _ inner _ _ _ ihb ih =>
    intro p hp
    rw [openPathsOf, List.mem_append, mem_openPaths_field] at hp
    rcases hp with ⟨-, hne, rfl | ⟨q, hq, rfl⟩⟩ | hp
    · exact ⟨_, List.mem_append_left _ List.mem_cons_self, rfl, rfl, hne⟩
    · obtain ⟨o, ho, hpath, hsite, hselections⟩ := ihb q hq
      refine ⟨o.beneath head.responseKey,
        List.mem_append_left _ (List.mem_cons_of_mem _ (List.mem_map.mpr ⟨o, ho, rfl⟩)),
        congrArg (head.responseKey :: ·) hpath, hsite, hselections⟩
    · obtain ⟨o, ho, hplace⟩ := ih p hp
      exact ⟨o, List.mem_append_right _ ho, hplace⟩
  | inline _ _ ihb ih =>
    intro p hp
    rw [openPathsOf, openPaths, List.mem_append] at hp
    rcases hp with hp | hp
    · obtain ⟨o, ho, hplace⟩ := ihb p hp
      exact ⟨o, List.mem_append_left _ ho, hplace⟩
    · obtain ⟨o, ho, hplace⟩ := ih p hp
      exact ⟨o, List.mem_append_right _ ho, hplace⟩
  | spread _ _ _ _ ih =>
    intro p hp
    rw [openPathsOf, openPaths, List.nil_append] at hp
    obtain ⟨o, ho, hplace⟩ := ih p hp
    exact ⟨o, List.mem_append_right _ ho, hplace⟩

namespace SelectionTree

/-- Key by key, the path leads to an entry, and the fields of this entry are there. -/
def Resolves (t : SelectionTree) (p : List String) : Prop :=
  ∃ e fields, Entry.at? t p = some e ∧ e.fields = some fields

/-- No entry on the path is masked. -/
def UnmaskedAlong (t : SelectionTree) (p : List String) : Prop :=
  ∀ q e, q <+: p → Entry.at? t q = some e → e.head.masked = false

end SelectionTree

/-- What is below a path is what is below its entry. -/
theorem Entry.subtree?_eq_bind {α : Type} : ∀ {p : List String} (t : EntryTree String α), p ≠ [] →
    Entry.subtree? t p = (Entry.at? t p).bind Entry.fields
  | [], _, h => absurd rfl h
  | [k], t, _ => by
    rw [subtree?, at?]
    cases (Table.get? t k).bind fields <;> rfl
  | k :: k' :: p, t, _ => by
    rw [subtree?, at?]
    · cases (Table.get? t k).bind fields with
      | none => rfl
      | some tree => exact subtree?_eq_bind tree (List.cons_ne_nil k' p)
    · exact List.cons_ne_nil k' p

/-- The entry of a place with selections has fields. -/
theorem Shows.resolves {t : SelectionTree} {rows : List Row} (h : Shows t rows) {o : Occurrence}
    (ho : o ∈ places rows) (hne : o.selections ≠ []) : t.Resolves o.path := by
  have hkeys : Entry.keysAt? t o.path ≠ none := by
    rw [h.keys, keysAt, if_pos (.inr ⟨o, ho, rfl, hne⟩)]
    exact nofun
  rw [Entry.keysAt?, Entry.subtree?_eq_bind t (h.rooted.path_ne_nil ho), ne_eq,
    Option.map_eq_none_iff, ← ne_eq, Option.ne_none_iff_exists'] at hkeys
  obtain ⟨fields, hfields⟩ := hkeys
  obtain ⟨e, he, hfields⟩ := Option.bind_eq_some_iff.mp hfields
  exact ⟨e, fields, he, hfields⟩

/-- **Open paths resolve**, and outside of fragments no entry on them is masked. -/
theorem Shows.of_openPath {x : Compilation} {fragment? : String → Option Fragment} {site : Site}
    {ss : List Selection} {rows : List Row} {t : SelectionTree} (h : Shows t rows)
    (hrows : x.Rows fragment? site ss rows) {p : List String} (hp : p ∈ openPathsOf ss) :
    t.Resolves p ∧ (site.fragment = none → t.UnmaskedAlong p) := by
  obtain ⟨o, ho, rfl, -, hne⟩ := hrows.expands.exists_of_openPath p hp
  refine ⟨h.resolves ho hne, fun hsite q e hq he => ?_⟩
  have hnil : q ≠ [] := by
    rintro rfl
    exact absurd he nofun
  obtain ⟨o', ho', rfl, hsite', -⟩ :=
    hrows.expands.exists_of_openPath q (openPathsOf_initial hp hq hnil)
  refine (h.masked_iff hrows he).mpr ⟨o', ho', rfl, ?_⟩
  rw [Occurrence.isSpread, hsite', hsite]
  rfl

end QueryCompiler
