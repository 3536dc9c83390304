import QueryCompiler.Artifact.Typename
import QueryCompiler.Proofs.Selection.Directives
/-
# What every field has

A property of fields holds throughout some selections when it holds of each field in them, given
what the field stands under (`EveryIn`).  Passes that change selections are followed by such
properties, and in the end an expansion reads them off at its places (`Expands.fields`): those of
the definition itself at the places that no spread leads to, and those of a fragment at the places
within it.

A fragment that is expanded does not lead back to itself (`Expands.not_reachedFrom`), so the
definition is never one of the fragments that it reaches.
-/
namespace QueryCompiler

/-! ## 1. Fields of selections -/

/-- A property of a field with its selections, below some ancestors. -/
abbrev FieldProperty := List Ancestor → FieldHead → List Selection → Prop

mutual

/-- Every field of a selection has the property. -/
def Selection.Every (P : FieldProperty) (ancestors : List Ancestor) : Selection → Prop
  | .field head selections =>
    P ancestors head selections ∧ EveryIn P (ancestors ++ [.field head]) selections
  | .spread _ _ => True
  | .inline condition _ selections => EveryIn P (ancestors ++ [.inline condition]) selections

def EveryIn (P : FieldProperty) (ancestors : List Ancestor) : List Selection → Prop
  | [] => True
  | s :: selections => s.Every P ancestors ∧ EveryIn P ancestors selections

end

variable {P Q : FieldProperty}

theorem everyIn_nil (ancestors : List Ancestor) : EveryIn P ancestors [] := by
  rw [EveryIn]
  trivial

theorem everyIn_append {ancestors : List Ancestor} {ss rest : List Selection} :
    EveryIn P ancestors (ss ++ rest) ↔ EveryIn P ancestors ss ∧ EveryIn P ancestors rest := by
  induction ss with
  | nil => exact ⟨fun h => ⟨everyIn_nil ancestors, h⟩, fun h => h.2⟩
  | cons s ss ih => rw [List.cons_append, EveryIn, EveryIn, ih, and_assoc]

theorem everyIn_singleton {ancestors : List Ancestor} {s : Selection} :
    EveryIn P ancestors [s] ↔ s.Every P ancestors := by
  rw [EveryIn, and_iff_left (everyIn_nil ancestors)]

/-- What holds of all fields holds of those of each selection. -/
theorem everyIn_iff {ancestors : List Ancestor} {ss : List Selection} :
    EveryIn P ancestors ss ↔ ∀ s ∈ ss, s.Every P ancestors := by
  induction ss with
  | nil => exact iff_of_true (everyIn_nil ancestors) fun _ hs => absurd hs List.not_mem_nil
  | cons s ss ih => rw [EveryIn, ih, List.forall_mem_cons]

mutual

theorem every_of_forall (hP : ∀ ancestors head selections, P ancestors head selections) :
    ∀ (s : Selection) (ancestors : List Ancestor), s.Every P ancestors
  | .field head selections, ancestors => by
    rw [Selection.Every]
    exact ⟨hP _ _ _, everyIn_of_forall hP selections _⟩
  | .spread _ _, _ => by
    rw [Selection.Every]
    trivial
  | .inline condition _ selections, ancestors => by
    rw [Selection.Every]
    exact everyIn_of_forall hP selections _

theorem everyIn_of_forall (hP : ∀ ancestors head selections, P ancestors head selections) :
    ∀ (ss : List Selection) (ancestors : List Ancestor), EveryIn P ancestors ss
  | [], ancestors => everyIn_nil ancestors
  | s :: ss, ancestors => by
    rw [EveryIn]
    exact ⟨every_of_forall hP s ancestors, everyIn_of_forall hP ss ancestors⟩

end

mutual

theorem Selection.Every.mono (hPQ : ∀ ancestors head selections,
    P ancestors head selections → Q ancestors head selections) :
    ∀ {s : Selection} {ancestors : List Ancestor}, s.Every P ancestors → s.Every Q ancestors
  | .field head selections, ancestors, h => by
    rw [Selection.Every] at h ⊢
    exact ⟨hPQ _ _ _ h.1, EveryIn.mono hPQ h.2⟩
  | .spread _ _, _, _ => by
    rw [Selection.Every]
    trivial
  | .inline condition directives selections, ancestors, h => by
    rw [Selection.Every] at h ⊢
    exact EveryIn.mono hPQ h

theorem EveryIn.mono (hPQ : ∀ ancestors head selections,
    P ancestors head selections → Q ancestors head selections) :
    ∀ {ss : List Selection} {ancestors : List Ancestor},
      EveryIn P ancestors ss → EveryIn Q ancestors ss
  | [], ancestors, _ => everyIn_nil ancestors
  | s :: ss, ancestors, h => by
    rw [EveryIn] at h ⊢
    exact ⟨h.1.mono hPQ, EveryIn.mono hPQ h.2⟩

end

mutual

theorem Selection.Every.and : ∀ {s : Selection} {ancestors : List Ancestor},
    s.Every P ancestors → s.Every Q ancestors →
      s.Every (fun ancestors head ss => P ancestors head ss ∧ Q ancestors head ss) ancestors
  | .field _ _, _, h, h' => by
    rw [Selection.Every] at h h' ⊢
    exact ⟨⟨h.1, h'.1⟩, h.2.and h'.2⟩
  | .spread _ _, _, _, _ => by
    rw [Selection.Every]
    trivial
  | .inline _ _ _, _, h, h' => by
    rw [Selection.Every] at h h' ⊢
    exact h.and h'

/-- Two properties that every field has are one. -/
theorem EveryIn.and : ∀ {ss : List Selection} {ancestors : List Ancestor},
    EveryIn P ancestors ss → EveryIn Q ancestors ss →
      EveryIn (fun ancestors head ss => P ancestors head ss ∧ Q ancestors head ss) ancestors ss
  | [], ancestors, _, _ => everyIn_nil ancestors
  | _ :: _, _, h, h' => by
    rw [EveryIn] at h h' ⊢
    exact ⟨h.1.and h'.1, h.2.and h'.2⟩

end

mutual

/-- A property of what a field says of its own holds wherever the field stands. -/
theorem Selection.Every.elsewhere {R : FieldHead → Prop} :
    ∀ {s : Selection} {ancestors others : List Ancestor},
      s.Every (fun _ head _ => R head) ancestors → s.Every (fun _ head _ => R head) others
  | .field head selections, _, _, h => by
    rw [Selection.Every] at h ⊢
    exact ⟨h.1, EveryIn.elsewhere h.2⟩
  | .spread _ _, _, _, _ => by
    rw [Selection.Every]
    trivial
  | .inline condition directives selections, _, _, h => by
    rw [Selection.Every] at h ⊢
    exact EveryIn.elsewhere h

theorem EveryIn.elsewhere {R : FieldHead → Prop} :
    ∀ {ss : List Selection} {ancestors others : List Ancestor},
      EveryIn (fun _ head _ => R head) ancestors ss → EveryIn (fun _ head _ => R head) others ss
  | [], _, others, _ => everyIn_nil others
  | s :: ss, _, _, h => by
    rw [EveryIn] at h ⊢
    exact ⟨h.1.elsewhere, EveryIn.elsewhere h.2⟩

end

mutual

theorem every_mapDirectives {f : List Directive → List Directive}
    (hf : ∀ ancestors others head selections, AlikeAncestors ancestors others →
      P ancestors head selections →
        Q others (head.mapDirectives f) (Selection.mapAllDirectives f selections)) :
    ∀ {s : Selection} {ancestors others : List Ancestor}, AlikeAncestors ancestors others →
      s.Every P ancestors → (s.mapDirectives f).Every Q others
  | .field head selections, ancestors, others, halike, h => by
    have hbelow : AlikeAncestors (ancestors ++ [.field head])
        (others ++ [.field (head.mapDirectives f)]) := halike.under (.field rfl)
    rw [Selection.Every] at h
    rw [Selection.mapDirectives, Selection.Every]
    exact ⟨hf _ _ head selections halike h.1, everyIn_mapAllDirectives hf hbelow h.2⟩
  | .spread _ _, _, _, _, _ => by
    rw [Selection.mapDirectives, Selection.Every]
    trivial
  | .inline condition directives selections, _, _, halike, h => by
    rw [Selection.Every] at h
    rw [Selection.mapDirectives, Selection.Every]
    exact everyIn_mapAllDirectives hf (halike.under (.inline condition)) h

/-- A property that does not look at directives stays when they change. -/
theorem everyIn_mapAllDirectives {f : List Directive → List Directive}
    (hf : ∀ ancestors others head selections, AlikeAncestors ancestors others →
      P ancestors head selections →
        Q others (head.mapDirectives f) (Selection.mapAllDirectives f selections)) :
    ∀ {ss : List Selection} {ancestors others : List Ancestor}, AlikeAncestors ancestors others →
      EveryIn P ancestors ss → EveryIn Q others (Selection.mapAllDirectives f ss)
  | [], _, others, _, _ => everyIn_nil others
  | s :: ss, _, _, halike, h => by
    rw [EveryIn] at h
    rw [Selection.mapAllDirectives, EveryIn]
    exact ⟨every_mapDirectives hf halike h.1, everyIn_mapAllDirectives hf halike h.2⟩

end

section Decidable

variable (P : FieldProperty) [hP : ∀ ancestors head ss, Decidable (P ancestors head ss)]

mutual

def Selection.decidableEvery : ∀ (s : Selection) (ancestors : List Ancestor),
    Decidable (s.Every P ancestors)
  | .field head selections, ancestors =>
    @instDecidableAnd _ _ (hP ancestors head selections)
      (decidableEveryIn selections (ancestors ++ [Ancestor.field head]))
  | .spread _ _, _ => .isTrue trivial
  | .inline condition _ selections, ancestors =>
    decidableEveryIn selections (ancestors ++ [Ancestor.inline condition])

/-- What can be checked of a field can be checked of all. -/
def decidableEveryIn : ∀ (ss : List Selection) (ancestors : List Ancestor),
    Decidable (EveryIn P ancestors ss)
  | [], _ => .isTrue trivial
  | s :: ss, ancestors =>
    @instDecidableAnd _ _ (s.decidableEvery ancestors) (decidableEveryIn ss ancestors)

end

instance (ancestors : List Ancestor) (ss : List Selection) : Decidable (EveryIn P ancestors ss) :=
  decidableEveryIn P ss ancestors

end Decidable

/-! ## 2. Plain fields -/

/-- A field that says nothing but its name. -/
def FieldHead.plain (name : String) : FieldHead :=
  { label := none, name, arguments := [], directives := [] }

theorem everyIn_plainField (hplain : ∀ ancestors name ss, P ancestors (.plain name) ss)
    {name : String} {ancestors : List Ancestor} {ss : List Selection}
    (h : EveryIn P (ancestors ++ [.field (.plain name)]) ss) :
    EveryIn P ancestors [plainField name ss] := by
  rw [EveryIn, plainField, Selection.Every]
  exact ⟨⟨hplain _ name ss, h⟩, everyIn_nil _⟩

theorem everyIn_pageInfo (hplain : ∀ ancestors name ss, P ancestors (.plain name) ss)
    (ancestors : List Ancestor) : EveryIn P ancestors pageInfo := by
  have leaf (name : String) (a : List Ancestor) : EveryIn P a [plainField name []] :=
    everyIn_plainField hplain (everyIn_nil _)
  have cons {s : Selection} {ss : List Selection} {a : List Ancestor}
      (hs : EveryIn P a [s]) (hss : EveryIn P a ss) : EveryIn P a (s :: ss) := by
    rw [EveryIn] at hs ⊢
    exact ⟨hs.1, hss⟩
  have node : EveryIn P (ancestors ++ [.field (.plain "edges")]) [plainField "cursor" [],
      plainField "node" [plainField typenameField []]] :=
    cons (leaf _ _) (everyIn_plainField hplain (leaf _ _))
  exact cons (everyIn_plainField hplain node) (everyIn_plainField hplain
    (cons (leaf _ _) (cons (leaf _ _) (cons (leaf _ _) (leaf _ _)))))

/-- The property stays when the names of types are put into the selections of a field. -/
def KeptByTypenames (s : Schema) (P : FieldProperty) : Prop :=
  ∀ ancestors head ss, P ancestors head ss →
    P ancestors head (injectTypenames s (ancestors ++ [.field head]) ss
      ++ gainedTypename s (ancestors ++ [.field head]) ss)

mutual

theorem every_injectTypename (hplain : ∀ ancestors name ss, P ancestors (.plain name) ss)
    {s : Schema} (hkept : KeptByTypenames s P) :
    ∀ {sel : Selection} {ancestors : List Ancestor},
      sel.Every P ancestors → (injectTypename s ancestors sel).Every P ancestors
  | .field head selections, ancestors, h => by
    rw [Selection.Every] at h
    rw [injectTypename, Selection.Every, everyIn_append]
    refine ⟨hkept _ _ _ h.1, everyIn_injectTypenames hplain hkept h.2, ?_⟩
    rw [gainedTypename]
    split
    · exact everyIn_plainField hplain (everyIn_nil _)
    · exact everyIn_nil _
  | .spread _ _, _, _ => by
    rw [injectTypename, Selection.Every]
    trivial
  | .inline condition directives selections, ancestors, h => by
    rw [Selection.Every] at h
    rw [injectTypename, Selection.Every]
    exact everyIn_injectTypenames hplain hkept h

/-- Names of types have what every field without directives has. -/
theorem everyIn_injectTypenames (hplain : ∀ ancestors name ss, P ancestors (.plain name) ss)
    {s : Schema} (hkept : KeptByTypenames s P) :
    ∀ {ss : List Selection} {ancestors : List Ancestor},
      EveryIn P ancestors ss → EveryIn P ancestors (injectTypenames s ancestors ss)
  | [], ancestors, _ => everyIn_nil ancestors
  | sel :: ss, ancestors, h => by
    rw [EveryIn] at h
    rw [injectTypenames, EveryIn]
    exact ⟨every_injectTypename hplain hkept h.1, everyIn_injectTypenames hplain hkept h.2⟩

end

/-! ## 3. Places of an expansion -/

namespace Expands

variable {fragment? : String → Option Fragment}

/-- **A fragment that is expanded does not lead back to itself.** -/
theorem not_reachedFrom {site : Site} {own : String} {f : Fragment} {ss : List Selection}
    {os : List Occurrence} (h : Expands fragment? site ss os) (hown : fragment? own = some f)
    (hss : spreadNamesOf ss = spreadNamesOf f.selections) : ¬ ReachedFrom fragment? ss own := by
  rintro ⟨first, hfirst, hreach⟩
  have hstep : SpreadIn fragment? first own := ⟨f, hown, hss ▸ hfirst⟩
  exact not_transGen_of_acc (h.acc_spread first hfirst) (Relation.TransGen.head' hstep hreach)

/-- **What holds of every field holds at every place.** -/
theorem fields {P : Option String → FieldProperty} {site : Site}
    {ss : List Selection} {os : List Occurrence} (h : Expands fragment? site ss os)
    (hss : EveryIn (P site.fragment) site.ancestors ss)
    (hfragments : ∀ name f, ReachedFrom fragment? ss name → fragment? name = some f →
      EveryIn (P (some name)) [.fragment f.condition] f.selections) :
    ∀ o ∈ os, P o.site.fragment o.site.ancestors o.field o.selections := by
  induction h with
  | nil => exact fun _ ho => absurd ho List.not_mem_nil
  | field _ _ ihb ih =>
    rw [EveryIn, Selection.Every] at hss
    rw [List.forall_mem_append, List.forall_mem_cons, List.forall_mem_map]
    refine ⟨⟨hss.1.1, ihb hss.1.2 fun name f hr => hfragments name f (hr.mono ?_)⟩,
      ih hss.2 fun name f hr => hfragments name f (hr.mono ?_)⟩
    · exact fun n hn => List.mem_append_left _ hn
    · exact fun n hn => List.mem_append_right _ hn
  | inline _ _ ihb ih =>
    rw [EveryIn, Selection.Every] at hss
    rw [List.forall_mem_append]
    refine ⟨ihb hss.1 fun name f hr => hfragments name f (hr.mono ?_),
      ih hss.2 fun name f hr => hfragments name f (hr.mono ?_)⟩
    · exact fun n hn => List.mem_append_left _ hn
    · exact fun n hn => List.mem_append_right _ hn
  | @spread _ spread _ _ _ _ _ hf _ _ ihb ih =>
    rw [EveryIn] at hss
    have hspread : ∀ rest, spread ∈ spread :: spreadNamesOf rest := fun _ => List.mem_cons_self
    rw [List.forall_mem_append]
    refine ⟨ihb (hfragments spread _ ⟨spread, hspread _, .refl⟩ hf) fun name f hr =>
      hfragments name f (hr.through hf (hspread _)), ih hss.2 fun name f hr =>
        hfragments name f (hr.mono fun n hn => List.mem_append_right _ hn)⟩

end Expands

end QueryCompiler
