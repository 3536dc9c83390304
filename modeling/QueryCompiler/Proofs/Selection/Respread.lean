import QueryCompiler.Proofs.Selection.Still
/-
# Selections with spreads added

A fragment that is spread on a level may be spread there again, behind its first spread or anywhere
on the level (`Respread`).  The fields are the same as before, and each of them asks for what it has
asked for before, and for what the new spreads below it ask for.
-/
namespace QueryCompiler

/-! ## 1. Selections with spreads added -/

/-- The second selections are the first ones with spreads added, each of a fragment that has been
seen on the level before.  `start` says what counts as seen where a level begins, and `may` which
fragments may be spread again. -/
inductive Respread (fragment? : String → Option Fragment)
    (start : List Selection → String → Prop) (may : String → Prop) :
    (String → Prop) → List Selection → List Selection → Prop
  | nil {seen : String → Prop} : Respread fragment? start may seen [] []
  | again {seen : String → Prop} {name : String} {directives : List Directive}
      {ss ss' : List Selection} : seen name → may name →
      Respread fragment? start may seen ss ss' →
      Respread fragment? start may seen ss (.spread name directives :: ss')
  | field {seen : String → Prop} {head : FieldHead} {below below' ss ss' : List Selection} :
      Respread fragment? start may (start below) below below' →
      Respread fragment? start may seen ss ss' →
      Respread fragment? start may seen (.field head below :: ss) (.field head below' :: ss')
  | inline {seen : String → Prop} {condition : Option String} {directives : List Directive}
      {inner inner' ss ss' : List Selection} :
      Respread fragment? start may seen inner inner' →
      Respread fragment? start may (fun n => seen n ∨ SpreadsOnLevel fragment? inner n) ss ss' →
      Respread fragment? start may seen (.inline condition directives inner :: ss)
        (.inline condition directives inner' :: ss')
  | spread {seen : String → Prop} {name : String} {directives : List Directive}
      {ss ss' : List Selection} :
      Respread fragment? start may
        (fun n => seen n ∨ SpreadsOnLevel fragment? [.spread name directives] n) ss ss' →
      Respread fragment? start may seen (.spread name directives :: ss)
        (.spread name directives :: ss')

/-- Nothing is seen at the begin of a level, so spreads are added behind others. -/
def unseen : List Selection → String → Prop := fun _ _ => False

/-- What the spreads of some selections ask for. -/
def edits (c : Config) (r : Registry) (ss : List Selection) : Except Error (List ListOperation) :=
  (ss.mapM (edit? c r)).map (·.filterMap id)

theorem edits_cons {c : Config} {r : Registry} (s : Selection) (ss : List Selection) :
    edits c r (s :: ss) = edit? c r s >>= fun o => (edits c r ss).map (o.toList ++ ·) := by
  rw [edits, edits, List.mapM_cons]
  cases edit? c r s with
  | error e => rfl
  | ok o =>
    cases ss.mapM (edit? c r) with
    | error e => rfl
    | ok rest => cases o <;> rfl

theorem listOperations_edits (c : Config) (r : Registry) (directives : List Directive)
    (ss : List Selection) : listOperations c r directives ss
      = directives.mapM (deletion? c r directives) >>= fun deletions =>
          (edits c r ss).map (deletions.filterMap id ++ ·) := by
  rw [listOperations, edits]
  cases directives.mapM (deletion? c r directives) with
  | error e => rfl
  | ok deletions => cases ss.mapM (edit? c r) <;> rfl

theorem edits_cons_eq_ok {c : Config} {r : Registry} {s : Selection} {ss : List Selection}
    {os : List ListOperation} : edits c r (s :: ss) = .ok os ↔
      ∃ o, edit? c r s = .ok o ∧ ∃ rest, edits c r ss = .ok rest ∧ o.toList ++ rest = os := by
  simp only [edits_cons, bind_eq_ok, map_eq_ok]

namespace Respread

variable {fragment? : String → Option Fragment} {start : List Selection → String → Prop}
  {may seen : String → Prop} {ss ss' : List Selection}

/-- The fields are those that there were. -/
theorem everyIn {R : FieldHead → Prop} (h : Respread fragment? start may seen ss ss') :
    ∀ {ancestors : List Ancestor}, EveryIn (fun _ head _ => R head) ancestors ss →
      EveryIn (fun _ head _ => R head) ancestors ss' := by
  induction h with
  | nil => exact fun h => h
  | again _ _ _ ih =>
    intro _ h
    rw [EveryIn, Selection.Every]
    exact ⟨trivial, ih h⟩
  | field _ _ ihb ih =>
    intro _ h
    rw [EveryIn, Selection.Every] at h ⊢
    exact ⟨⟨h.1.1, ihb h.1.2⟩, ih h.2⟩
  | inline _ _ ihb ih =>
    intro _ h
    rw [EveryIn, Selection.Every] at h ⊢
    exact ⟨ihb h.1, ih h.2⟩
  | spread _ ih =>
    intro _ h
    rw [EveryIn] at h ⊢
    exact ⟨h.1, ih h.2⟩

theorem every_field {R : FieldHead → Prop} (h : Respread fragment? start may seen ss ss')
    {head : FieldHead} {ancestors : List Ancestor}
    (hs : (Selection.field head ss).Every (fun _ head _ => R head) ancestors) :
    (Selection.field head ss').Every (fun _ head _ => R head) ancestors := by
  rw [Selection.Every] at hs ⊢
  exact ⟨hs.1, h.everyIn hs.2⟩

theorem every_inline {R : FieldHead → Prop} (h : Respread fragment? start may seen ss ss')
    {condition : Option String} {directives : List Directive} {ancestors : List Ancestor}
    (hs : (Selection.inline condition directives ss).Every (fun _ head _ => R head) ancestors) :
    (Selection.inline condition directives ss').Every (fun _ head _ => R head) ancestors := by
  rw [Selection.Every] at hs ⊢
  exact h.everyIn hs

/-- Selections stay selections, and nothing stays nothing if nothing can be seen there. -/
theorem isEmpty (h : Respread fragment? start may seen ss ss')
    (hnil : ss = [] → ∀ name, ¬ seen name) : ss'.isEmpty = ss.isEmpty := by
  cases h with
  | nil => rfl
  | again hseen _ _ =>
    cases ss with
    | nil => exact absurd hseen (hnil rfl _)
    | cons _ _ => rfl
  | field _ _ => rfl
  | inline _ _ => rfl
  | spread _ => rfl

/-- Fragments that edit no list may be spread again without asking for more. -/
theorem listOperations_eq {c : Config} {r : Registry}
    (hmay : ∀ name, may name → r.operation? c name = none)
    (h : Respread fragment? start may seen ss ss') (directives : List Directive) :
    listOperations c r directives ss' = listOperations c r directives ss := by
  have hedits : edits c r ss' = edits c r ss := by
    induction h with
    | nil => rfl
    | @again _ name directives _ _ _ hm _ ih =>
      have hnone : edit? c r (.spread name directives) = .ok none := by
        rw [edit?, hmay name hm]
      rw [edits_cons, hnone, ← ih]
      exact congrFun Except.map_id _
    | field _ _ _ ih => rw [edits_cons, edits_cons, ih]; rfl
    | inline _ _ _ ih => rw [edits_cons, edits_cons, ih]; rfl
    | spread _ ih => rw [edits_cons, edits_cons, ih]
  rw [listOperations_edits, listOperations_edits, hedits]

/-- What selections ask for, they ask for with more spreads. -/
theorem sublist_listOperations {c : Config} {r : Registry}
    (h : Respread fragment? start may seen ss ss') {directives : List Directive}
    {operations operations' : List ListOperation}
    (ho : listOperations c r directives ss = .ok operations)
    (ho' : listOperations c r directives ss' = .ok operations') :
    operations.Sublist operations' := by
  have hedits : ∀ {os os'}, edits c r ss = .ok os → edits c r ss' = .ok os' → os.Sublist os' := by
    clear ho ho'
    induction h with
    | nil =>
      intro os os' h h'
      rw [Except.ok.inj (h.symm.trans h')]
    | again _ _ _ ih =>
      intro os os' h h'
      obtain ⟨o, -, rest, hrest, rfl⟩ := edits_cons_eq_ok.mp h'
      exact List.sublist_append_of_sublist_right (ih h hrest)
    | field _ _ _ ih | inline _ _ _ ih =>
      intro os os' h h'
      obtain ⟨o, ho, rest, hrest, rfl⟩ := edits_cons_eq_ok.mp h
      obtain ⟨o', ho', rest', hrest', rfl⟩ := edits_cons_eq_ok.mp h'
      obtain rfl : none = o := Except.ok.inj ho
      obtain rfl : none = o' := Except.ok.inj ho'
      exact ih hrest hrest'
    | spread _ ih =>
      intro os os' h h'
      obtain ⟨o, ho, rest, hrest, rfl⟩ := edits_cons_eq_ok.mp h
      obtain ⟨o', ho', rest', hrest', rfl⟩ := edits_cons_eq_ok.mp h'
      obtain rfl := Except.ok.inj (ho.symm.trans ho')
      exact (List.Sublist.refl _).append (ih hrest hrest')
  simp only [listOperations_edits, bind_eq_ok, map_eq_ok] at ho ho'
  obtain ⟨deletions, hdeletions, os, hos, rfl⟩ := ho
  obtain ⟨deletions', hdeletions', os', hos', rfl⟩ := ho'
  obtain rfl := Except.ok.inj (hdeletions.symm.trans hdeletions')
  exact (List.Sublist.refl _).append (hedits hos hos')

end Respread

namespace Compilation

/-- The compilation with other fragments. -/
def withFragments (x : Compilation) (fragments : Table String Fragment) : Compilation :=
  { x with fragments }

/-- Selections and fragments with spreads added. -/
structure Respreads (x : Compilation) (start : List Selection → String → Prop)
    (may : String → Prop) (ss : List Selection) (fragments' : Table String Fragment)
    (ss' : List Selection) : Prop where
  fragments : List.Forall₂ (fun row row' => row'.1 = row.1 ∧
    ∃ body, row'.2 = { row.2 with selections := body } ∧
      Respread (Table.get? x.fragments) start may (start row.2.selections) row.2.selections body)
    x.fragments fragments'
  selections : Respread (Table.get? x.fragments) start may (start ss) ss ss'

variable {x : Compilation} {fragments' : Table String Fragment} {may : String → Prop}

/-- Tables with related rows have related values. -/
theorem get?_of_forall₂ {α : Type} {R : α → α → Prop} {t t' : Table String α}
    (h : List.Forall₂ (fun row row' => row'.1 = row.1 ∧ R row.2 row'.2) t t') (name : String) :
    (Table.get? t name = none ∧ Table.get? t' name = none) ∨
      ∃ a a', Table.get? t name = some a ∧ Table.get? t' name = some a' ∧ R a a' := by
  induction h with
  | nil => exact .inl ⟨rfl, rfl⟩
  | @cons row row' _ _ hrow _ ih =>
    obtain ⟨key, a⟩ := row
    obtain ⟨key', a'⟩ := row'
    obtain ⟨rfl, hR⟩ := hrow
    rw [Table.get?_cons, Table.get?_cons]
    split
    · exact .inr ⟨a, a', rfl, rfl, hR⟩
    · exact ih

/-- A fragment is the one that there was, with spreads added. -/
theorem Respreads.get? {start : List Selection → String → Prop} {ss ss' : List Selection}
    (h : x.Respreads start may ss fragments' ss') (name : String) :
    (Table.get? x.fragments name = none ∧
        Table.get? (x.withFragments fragments').fragments name = none) ∨
      ∃ f body, Table.get? x.fragments name = some f ∧
        Table.get? (x.withFragments fragments').fragments name
          = some { f with selections := body } ∧
        Respread (Table.get? x.fragments) start may (start f.selections) f.selections body := by
  refine (get?_of_forall₂ (R := fun f f' => ∃ body, f' = { f with selections := body } ∧
    Respread (Table.get? x.fragments) start may (start f.selections) f.selections body)
    h.fragments name).imp_right ?_
  rintro ⟨f, f', hf, hf', body, rfl, hbody⟩
  exact ⟨f, body, hf, hf', hbody⟩

theorem Respreads.get?_of_some {start : List Selection → String → Prop} {ss ss' : List Selection}
    (h : x.Respreads start may ss fragments' ss') {name : String} {f : Fragment}
    (hf : Table.get? x.fragments name = some f) :
    ∃ body, Table.get? (x.withFragments fragments').fragments name
        = some { f with selections := body } ∧
      Respread (Table.get? x.fragments) start may (start f.selections) f.selections body := by
  rcases h.get? name with ⟨hnone, -⟩ | ⟨f', body, hf', hbody, hrespread⟩
  · cases hnone.symm.trans hf
  · obtain rfl := Option.some.inj (hf.symm.trans hf')
    exact ⟨body, hbody, hrespread⟩

theorem Respreads.named {start : List Selection → String → Prop} {ss ss' : List Selection}
    (hx : ∀ name f, Table.get? x.fragments name = some f →
      EveryIn (ListIsNamed x.config) [] f.selections)
    (h : x.Respreads start may ss fragments' ss') :
    ∀ name f, Table.get? (x.withFragments fragments').fragments name = some f →
      EveryIn (ListIsNamed x.config) [] f.selections := by
  intro name f' hf'
  rcases h.get? name with ⟨-, hnone⟩ | ⟨f, body, hf, hbody, hrespread⟩
  · exact absurd (hnone.symm.trans hf') nofun
  · obtain rfl := Option.some.inj (hbody.symm.trans hf')
    exact hrespread.everyIn (hx name f hf)

/-! ## 2. Heads -/

theorem entryHead_respread {start : List Selection → String → Prop} {seen : String → Prop}
    {below below' : List Selection} (hmay : ∀ name, may name → x.AsksNothing name)
    (h : Respread (Table.get? x.fragments) start may seen below below') (field : FieldHead)
    (f : SchemaField) (key : String) (masked : Bool) :
    (x.withFragments fragments').entryHead field below' f key masked
      = x.entryHead field below f key masked := by
  rw [entryHead, entryHead]
  change EntryHead.withList x.config field _ >>= _ = EntryHead.withList x.config field _ >>= _
  refine congrArg _ (funext fun listed => ?_)
  change (if x.kind = .mutation then _ else _) = _
  split
  · rename_i hk
    have hoperations := h.listOperations_eq (c := x.config) (r := x.registry)
      (fun name hname => (hmay name hname).spread hk) field.directives
    change (listOperations x.config x.registry field.directives below' >>= _) = _
    rw [hoperations]
  · rfl

/-- With spreads added below it, a field asks for more operations, and is otherwise the same. -/
theorem entryHead_grows {start : List Selection → String → Prop} {seen : String → Prop}
    {below below' : List Selection}
    (hb : Respread (Table.get? x.fragments) start may seen below below') {field : FieldHead}
    {f : SchemaField} {key : String} {masked : Bool} {h h' : EntryHead}
    (hh : x.entryHead field below f key masked = .ok h)
    (hh' : (x.withFragments fragments').entryHead field below' f key masked = .ok h') :
    h'.still = h.still ∧ h.operations.Sublist h'.operations := by
  obtain ⟨listed, hlisted, hh⟩ := entryHead_eq_ok hh
  obtain ⟨listed', hlisted', hh'⟩ := entryHead_eq_ok hh'
  obtain rfl : listed = listed' := Except.ok.inj (hlisted.symm.trans hlisted')
  change (if x.kind = .mutation then _ else _) at hh'
  split at hh
  · rename_i hk
    rw [if_pos hk] at hh'
    obtain ⟨operations, hoperations, rfl⟩ := hh
    obtain ⟨operations', hoperations', rfl⟩ := hh'
    exact ⟨rfl, hb.sublist_listOperations hoperations hoperations'⟩
  · rename_i hk
    rw [if_neg hk] at hh'
    rw [hh, hh']
    exact ⟨rfl, List.Sublist.refl _⟩

end Compilation

end QueryCompiler
