import Mathlib.Data.List.Induction
import Mathlib.Data.List.Nodup
import Mathlib.Logic.Basic
import Mathlib.Logic.Relation
import QueryCompiler.Artifact.Reference
/-
# Expanding selections

What a selection set asks for, once every spread is replaced by the fragment it names: the list
of the places where a field is selected, from the outside in and from the front to the back
(`Expands`).  A place is known by its path of response keys; the path says nothing of inline
fragments and spreads, so many places may share one (`Occurrence`).

An expansion is finite by being derived.  Selections that spread a fragment in a circle have
none: along a derivation the fragments that are spread are well-founded (`Expands.acc_spread`).

* `Expands.unique`: selections have at most one expansion;
* `Expands.congr`: it only depends on the fragments that are spread;
* `keysAt`: the keys below a path in the order in which an expansion first meets them.
-/
namespace QueryCompiler

/-! ## 1. Places -/

/-- Where a selection stands: in which fragment, if it is not in the definition itself, and under
what within that, the head of the definition first. -/
structure Site where
  fragment : Option String
  ancestors : List Ancestor
  deriving Repr

namespace Site

/-- The site of the selections under `a`. -/
def under (site : Site) (a : Ancestor) : Site := { site with ancestors := site.ancestors ++ [a] }

/-- The site of the selections of a fragment. -/
def ofFragment (name : String) (f : Fragment) : Site :=
  { fragment := some name, ancestors := [.fragment f.condition] }

end Site

/-- A place where a field is selected. -/
structure Occurrence where
  /-- The response keys down to the field. -/
  path : List String
  site : Site
  field : FieldHead
  selections : List Selection
  deriving Repr

namespace Occurrence

/-- The place seen from one field further up. -/
def beneath (key : String) (o : Occurrence) : Occurrence := { o with path := key :: o.path }

/-- Whether a spread leads to the place. -/
def isSpread (o : Occurrence) : Bool := o.site.fragment.isSome

end Occurrence

/-! ## 2. Expansions -/

/-- The selections at a site select fields at these places, in this order. -/
inductive Expands (fragment? : String → Option Fragment) :
    Site → List Selection → List Occurrence → Prop
  | nil {site : Site} : Expands fragment? site [] []
  | field {site : Site} {head : FieldHead} {selections rest : List Selection}
      {inner others : List Occurrence} :
      Expands fragment? (site.under (.field head)) selections inner →
      Expands fragment? site rest others →
      Expands fragment? site (.field head selections :: rest)
        ({ path := [head.responseKey], site, field := head, selections }
          :: inner.map (·.beneath head.responseKey) ++ others)
  | inline {site : Site} {condition : Option String} {directives : List Directive}
      {selections rest : List Selection} {inner others : List Occurrence} :
      Expands fragment? (site.under (.inline condition)) selections inner →
      Expands fragment? site rest others →
      Expands fragment? site (.inline condition directives selections :: rest) (inner ++ others)
  | spread {site : Site} {name : String} {directives : List Directive} {f : Fragment}
      {rest : List Selection} {inner others : List Occurrence} :
      fragment? name = some f →
      Expands fragment? (.ofFragment name f) f.selections inner →
      Expands fragment? site rest others →
      Expands fragment? site (.spread name directives :: rest) (inner ++ others)

namespace Expands

variable {fragment? : String → Option Fragment} {site : Site}

theorem append {ss rest : List Selection} {os others : List Occurrence}
    (h : Expands fragment? site ss os) (h' : Expands fragment? site rest others) :
    Expands fragment? site (ss ++ rest) (os ++ others) := by
  induction h with
  | nil => exact h'
  | field hb _ _ ih =>
    rw [List.cons_append, List.cons_append, List.cons_append, List.append_assoc]
    exact .field hb (ih h')
  | inline hb _ _ ih =>
    rw [List.cons_append, List.append_assoc]
    exact .inline hb (ih h')
  | spread hf hb _ _ ih =>
    rw [List.cons_append, List.append_assoc]
    exact .spread hf hb (ih h')

/-- Selections have at most one expansion. -/
theorem unique {ss : List Selection} {os os' : List Occurrence}
    (h : Expands fragment? site ss os) (h' : Expands fragment? site ss os') : os = os' := by
  induction h generalizing os' with
  | nil => cases h'; rfl
  | field _ _ ihb ih =>
    cases h' with
    | field hb' hr' => rw [ihb hb', ih hr']
  | inline _ _ ihb ih =>
    cases h' with
    | inline hb' hr' => rw [ihb hb', ih hr']
  | spread hf _ _ ihb ih =>
    cases h' with
    | spread hf' hb' hr' =>
      obtain rfl := Option.some.inj (hf.symm.trans hf')
      rw [ihb hb', ih hr']

/-- **An expansion only looks at the fragments that are spread**: at those of a set of names that
is closed under spreading. -/
theorem congr {fragment?' : String → Option Fragment} (names : String → Prop)
    (same : ∀ name, names name → fragment?' name = fragment? name)
    (closed : ∀ name, names name → ∀ f, fragment? name = some f →
      ∀ other ∈ spreadNamesOf f.selections, names other)
    {ss : List Selection} {os : List Occurrence} (h : Expands fragment? site ss os)
    (hss : ∀ name ∈ spreadNamesOf ss, names name) : Expands fragment?' site ss os := by
  induction h with
  | nil => exact .nil
  | field _ _ ihb ih =>
    simp only [spreadNamesOf, spreadNames, List.mem_append] at hss
    exact .field (ihb fun n hn => hss n (.inl hn)) (ih fun n hn => hss n (.inr hn))
  | inline _ _ ihb ih =>
    simp only [spreadNamesOf, spreadNames, List.mem_append] at hss
    exact .inline (ihb fun n hn => hss n (.inl hn)) (ih fun n hn => hss n (.inr hn))
  | @spread _ name _ f _ _ _ hf _ _ ihb ih =>
    simp only [spreadNamesOf, spreadNames, List.mem_append, List.mem_singleton] at hss
    have hname : names name := hss name (.inl rfl)
    exact .spread (by rw [same name hname, hf]) (ihb (closed name hname f hf))
      (ih fun n hn => hss n (.inr hn))

/-- `other` is spread in the fragment called `name`. -/
def SpreadIn (fragment? : String → Option Fragment) (other name : String) : Prop :=
  ∃ f, fragment? name = some f ∧ other ∈ spreadNamesOf f.selections

/-- Selections lead to a fragment through spreads inside each other. -/
def ReachedFrom (fragment? : String → Option Fragment) (ss : List Selection) (name : String) :
    Prop :=
  ∃ first ∈ spreadNamesOf ss, Relation.ReflTransGen (SpreadIn fragment?) name first

theorem ReachedFrom.mono {ss rest : List Selection}
    (h : ∀ name ∈ spreadNamesOf ss, name ∈ spreadNamesOf rest) {name : String}
    (hr : ReachedFrom fragment? ss name) : ReachedFrom fragment? rest name := by
  obtain ⟨first, hfirst, hname⟩ := hr
  exact ⟨first, h first hfirst, hname⟩

/-- What a fragment leads to is reached wherever the fragment is spread. -/
theorem ReachedFrom.through {ss : List Selection} {spread name : String} {f : Fragment}
    (hf : fragment? spread = some f) (hspread : spread ∈ spreadNamesOf ss)
    (hr : ReachedFrom fragment? f.selections name) : ReachedFrom fragment? ss name := by
  obtain ⟨first, hfirst, hname⟩ := hr
  exact ⟨spread, hspread, hname.tail ⟨f, hf, hfirst⟩⟩

/-- What is spread in a fragment is reached wherever the fragment is. -/
theorem ReachedFrom.step {ss : List Selection} {other name : String}
    (hr : ReachedFrom fragment? ss name) (h : SpreadIn fragment? other name) :
    ReachedFrom fragment? ss other := by
  obtain ⟨first, hfirst, hname⟩ := hr
  exact ⟨first, hfirst, .head h hname⟩

/-- A name from which spreads come to an end does not lead back to itself. -/
theorem not_transGen_of_acc {name : String} (h : Acc (SpreadIn fragment?) name) :
    ¬ Relation.TransGen (SpreadIn fragment?) name name := by
  induction h.transGen with
  | intro _ _ ih => exact fun hcircle => ih _ hcircle (h.inv_of_transGen hcircle) hcircle

/-- **Nothing that is expanded goes in a circle.** -/
theorem acc_spread {ss : List Selection} {os : List Occurrence}
    (h : Expands fragment? site ss os) :
    ∀ name ∈ spreadNamesOf ss, Acc (SpreadIn fragment?) name := by
  induction h with
  | nil => exact fun _ hn => absurd hn List.not_mem_nil
  | field _ _ ihb ih | inline _ _ ihb ih =>
    simp only [spreadNamesOf, spreadNames, List.mem_append]
    rintro name (hn | hn)
    · exact ihb name hn
    · exact ih name hn
  | @spread _ spread _ f _ _ _ hf _ _ ihb ih =>
    simp only [spreadNamesOf, spreadNames, List.mem_append, List.mem_singleton]
    rintro name (rfl | hn)
    · refine Acc.intro name fun other ⟨f', hf', hother⟩ => ?_
      obtain rfl := Option.some.inj (hf.symm.trans hf')
      exact ihb other hother
    · exact ih name hn

end Expands

/-! ## 3. Keys in the order in which they are met -/

/-- The last key of a path that leads from `p` one level down. -/
def keyBelow? : List String → List String → Option String
  | [], [k] => some k
  | a :: p, b :: path => if a = b then keyBelow? p path else none
  | _, _ => none

/-- The keys that an expansion has below a path, each at the place of its first occurrence.
There is something below a path when some field selected there has selections. -/
def keysAt (os : List Occurrence) (p : List String) : Option (List String) :=
  if p = [] ∨ ∃ o ∈ os, o.path = p ∧ o.selections ≠ [] then
    some (os.filterMap fun o => keyBelow? p o.path).eraseDups
  else none

theorem keyBelow?_eq_some {k : String} : ∀ {p path : List String},
    keyBelow? p path = some k ↔ path = p ++ [k]
  | [], [] => by simp [keyBelow?]
  | [], [b] => by simp [keyBelow?]
  | [], _ :: _ :: _ => by simp [keyBelow?]
  | a :: p, [] => by simp [keyBelow?]
  | a :: p, b :: path => by
    rw [keyBelow?]
    by_cases h : a = b
    · subst h
      rw [if_pos rfl, keyBelow?_eq_some, List.cons_append, List.cons.injEq]
      exact ⟨fun he => ⟨rfl, he⟩, fun he => he.2⟩
    · rw [if_neg h, List.cons_append, List.cons.injEq]
      exact ⟨nofun, fun he => absurd he.1.symm h⟩

/-- Keys in the order of two lists: those of the second that are new come behind. -/
def joinKeys (a b : List String) : List String := a ++ b.filter (fun k => decide (k ∉ a))

theorem eraseDups_filter (q : String → Bool) (ks : List String) :
    (ks.filter q).eraseDups = ks.eraseDups.filter q := by
  induction hn : ks.length using Nat.strongRecOn generalizing ks with
  | ind n ih =>
    cases ks with
    | nil => rfl
    | cons k ks =>
      have hlen : (ks.filter fun b => !b == k).length < n := by
        have := List.length_filter_le (fun b => !b == k) ks
        simp only [List.length_cons] at hn
        omega
      rw [List.eraseDups_cons]
      by_cases hq : q k = true
      · rw [List.filter_cons_of_pos hq, List.filter_cons_of_pos hq, List.eraseDups_cons,
          ← ih _ hlen _ rfl, List.filter_filter, List.filter_filter]
        simp only [Bool.and_comm]
      · rw [List.filter_cons_of_neg hq, List.filter_cons_of_neg hq, ← ih _ hlen _ rfl,
          List.filter_filter]
        congr 1
        refine List.filter_congr fun b _ => ?_
        by_cases hb : b = k
        · subst hb; simp [hq]
        · simp [hb]

theorem eraseDups_append_eq_joinKeys (as bs : List String) :
    (as ++ bs).eraseDups = joinKeys as.eraseDups bs.eraseDups := by
  rw [List.eraseDups_append, joinKeys, List.removeAll, eraseDups_filter]
  congr 1
  refine List.filter_congr fun k _ => ?_
  simp [List.elem_eq_contains]

theorem eraseDups_concat (names : List String) (name : String) :
    (names ++ [name]).eraseDups
      = if name ∈ names then names.eraseDups else names.eraseDups ++ [name] := by
  rw [List.eraseDups_append, List.removeAll]
  split <;> rename_i hname <;> simp [hname, List.eraseDups_cons]

theorem nodup_eraseDups (names : List String) : names.eraseDups.Nodup := by
  induction names using List.reverseRecOn with
  | nil => simp
  | append_singleton names name ih =>
    rw [eraseDups_concat]
    split
    · exact ih
    · rename_i hname
      refine List.Nodup.append ih (List.nodup_singleton name) ?_
      simpa using hname

/-- Names that are put at the end when they are new stand where they first came. -/
theorem foldl_new (names : List String) :
    names.foldl (fun met name => if name ∈ met then met else met ++ [name]) []
      = names.eraseDups := by
  induction names using List.reverseRecOn with
  | nil => rfl
  | append_singleton names name ih =>
    rw [List.foldl_append, List.foldl_cons, List.foldl_nil, ih, eraseDups_concat]
    simp only [List.mem_eraseDups]

/-- Every place lies right below the top or below a place of the list that has selections. -/
def Rooted (os : List Occurrence) : Prop :=
  ∀ o ∈ os, ∃ p k, o.path = p ++ [k] ∧
    (p = [] ∨ ∃ above ∈ os, above.path = p ∧ above.selections ≠ [])

theorem Rooted.append {os others : List Occurrence} (h : Rooted os) (h' : Rooted others) :
    Rooted (os ++ others) := by
  intro o ho
  rcases List.mem_append.mp ho with ho | ho
  · obtain ⟨p, k, hp, hor⟩ := h o ho
    exact ⟨p, k, hp, hor.imp_right fun ⟨a, ha, h⟩ => ⟨a, List.mem_append_left _ ha, h⟩⟩
  · obtain ⟨p, k, hp, hor⟩ := h' o ho
    exact ⟨p, k, hp, hor.imp_right fun ⟨a, ha, h⟩ => ⟨a, List.mem_append_right _ ha, h⟩⟩

theorem Rooted.path_ne_nil {os : List Occurrence} (h : Rooted os) {o : Occurrence}
    (ho : o ∈ os) : o.path ≠ [] := by
  obtain ⟨p, k, hp, -⟩ := h o ho
  rw [hp]
  exact List.append_ne_nil_of_right_ne_nil _ (List.cons_ne_nil _ _)

/-- The places below a field with selections, and the field itself. -/
theorem Rooted.field (head : FieldHead) (site : Site) {selections : List Selection}
    {inner : List Occurrence} (h : Rooted inner) (hne : inner ≠ [] → selections ≠ []) :
    Rooted ({ path := [head.responseKey], site, field := head, selections }
      :: inner.map (·.beneath head.responseKey)) := by
  intro o ho
  rcases List.mem_cons.mp ho with rfl | ho
  · exact ⟨[], head.responseKey, rfl, .inl rfl⟩
  · obtain ⟨o, ho', rfl⟩ := List.mem_map.mp ho
    obtain ⟨p, k, hp, hor⟩ := h o ho'
    refine ⟨head.responseKey :: p, k, by rw [Occurrence.beneath, hp]; rfl, .inr ?_⟩
    rcases hor with rfl | ⟨above, ha, hap, has⟩
    · exact ⟨_, List.mem_cons_self, rfl, hne (List.ne_nil_of_mem ho')⟩
    · exact ⟨above.beneath head.responseKey,
        List.mem_cons_of_mem _ (List.mem_map.mpr ⟨above, ha, rfl⟩),
        by rw [Occurrence.beneath, hap], has⟩

theorem Expands.rooted {fragment? : String → Option Fragment} {site : Site}
    {ss : List Selection} {os : List Occurrence} (h : Expands fragment? site ss os) :
    Rooted os := by
  induction h with
  | nil => exact fun _ ho => absurd ho List.not_mem_nil
  | @field _ head selections _ inner _ hb _ ihb ih =>
    refine Rooted.append (ihb.field head _ fun hne hnil => ?_) ih
    subst hnil
    cases hb
    exact hne rfl
  | inline _ _ ihb ih => exact ihb.append ih
  | spread _ _ _ ihb ih => exact ihb.append ih

theorem keysAt_top (os : List Occurrence) :
    keysAt os [] = some (os.filterMap fun o => keyBelow? [] o.path).eraseDups :=
  if_pos (.inl rfl)

/-- Right below the top a field has its own key only. -/
theorem Rooted.keysAt_field_top {head : FieldHead} {site : Site} {selections : List Selection}
    {inner : List Occurrence} (h : Rooted inner) :
    keysAt ({ path := [head.responseKey], site, field := head, selections }
      :: inner.map (·.beneath head.responseKey)) [] = some [head.responseKey] := by
  have hnone : ((inner.map (·.beneath head.responseKey)).filterMap
      fun o => keyBelow? [] o.path) = [] := by
    rw [List.filterMap_eq_nil_iff]
    intro o ho
    obtain ⟨o, ho', rfl⟩ := List.mem_map.mp ho
    obtain ⟨k, path, hpath⟩ := List.exists_cons_of_ne_nil (h.path_ne_nil ho')
    rw [Occurrence.beneath, hpath]
    rfl
  rw [keysAt_top, List.filterMap_cons, hnone]
  rfl

/-- Below its own key a field has what its selections have. -/
theorem keysAt_field_below {head : FieldHead} {site : Site} {selections : List Selection}
    {inner : List Occurrence} (hne : selections ≠ []) (p : List String) :
    keysAt ({ path := [head.responseKey], site, field := head, selections }
      :: inner.map (·.beneath head.responseKey)) (head.responseKey :: p) = keysAt inner p := by
  have hkeys : (({ path := [head.responseKey], site, field := head, selections } : Occurrence)
        :: inner.map (·.beneath head.responseKey)).filterMap
          (fun o => keyBelow? (head.responseKey :: p) o.path)
      = inner.filterMap fun o => keyBelow? p o.path := by
    rw [List.filterMap_cons_none (by cases p <;> simp [keyBelow?]), List.filterMap_map]
    congr 1
    funext o
    simp [Occurrence.beneath, keyBelow?]
  unfold keysAt
  rw [hkeys]
  refine if_congr ?_ rfl rfl
  constructor
  · rintro (hnil | ⟨o, ho, hpath, hsel⟩)
    · exact absurd hnil (List.cons_ne_nil _ _)
    · rcases List.mem_cons.mp ho with rfl | ho
      · exact .inl (List.cons.inj hpath).2.symm
      · obtain ⟨o, ho', rfl⟩ := List.mem_map.mp ho
        exact .inr ⟨o, ho', (List.cons.inj hpath).2, hsel⟩
  · rintro (rfl | ⟨o, ho, rfl, hsel⟩)
    · exact .inr ⟨_, List.mem_cons_self, rfl, hne⟩
    · exact .inr ⟨_, List.mem_cons_of_mem _ (List.mem_map.mpr ⟨o, ho, rfl⟩), rfl, hsel⟩

/-- A field has nothing below other keys, and without selections nothing below its own. -/
theorem keysAt_field_none {head : FieldHead} {site : Site} {selections : List Selection}
    {inner : List Occurrence} {k : String} {p : List String}
    (h : head.responseKey ≠ k ∨ selections = [] ∧ inner = []) :
    keysAt ({ path := [head.responseKey], site, field := head, selections }
      :: inner.map (·.beneath head.responseKey)) (k :: p) = none := by
  refine if_neg ?_
  rintro (hnil | ⟨o, ho, hpath, hsel⟩)
  · exact absurd hnil (List.cons_ne_nil _ _)
  · rcases List.mem_cons.mp ho with rfl | ho
    · exact h.elim (fun hk => hk (List.cons.inj hpath).1) fun hn => hsel hn.1
    · obtain ⟨o, ho', rfl⟩ := List.mem_map.mp ho
      exact h.elim (fun hk => hk (List.cons.inj hpath).1) fun hn =>
        absurd ho' (hn.2 ▸ List.not_mem_nil)

/-- Without selections at a path there is nothing below it. -/
theorem Rooted.filterMap_keyBelow? {os : List Occurrence} (h : Rooted os) {p : List String}
    (hp : ¬ (p = [] ∨ ∃ o ∈ os, o.path = p ∧ o.selections ≠ [])) :
    (os.filterMap fun o => keyBelow? p o.path) = [] := by
  rw [List.filterMap_eq_nil_iff]
  intro o ho
  obtain ⟨q, k, hq, hor⟩ := h o ho
  cases hk : keyBelow? p o.path with
  | none => rfl
  | some k' =>
    have hpath : q ++ [k] = p ++ [k'] := hq.symm.trans (keyBelow?_eq_some.mp hk)
    obtain ⟨rfl, -⟩ := List.append_inj' hpath rfl
    exact absurd hor hp

/-- **The keys of two expansions, one behind the other.** -/
theorem keysAt_append {os others : List Occurrence} (h : Rooted os) (h' : Rooted others)
    (p : List String) :
    keysAt (os ++ others) p = (keysAt os p).merge joinKeys (keysAt others p) := by
  unfold keysAt
  rw [List.filterMap_append]
  have hor : (p = [] ∨ ∃ o ∈ os ++ others, o.path = p ∧ o.selections ≠ [])
      ↔ (p = [] ∨ ∃ o ∈ os, o.path = p ∧ o.selections ≠ [])
        ∨ (p = [] ∨ ∃ o ∈ others, o.path = p ∧ o.selections ≠ []) := by
    simp only [List.mem_append, or_and_right, exists_or]
    exact or_or_distrib_left
  by_cases h₁ : p = [] ∨ ∃ o ∈ os, o.path = p ∧ o.selections ≠ []
  · rw [if_pos (hor.mpr (.inl h₁)), if_pos h₁]
    by_cases h₂ : p = [] ∨ ∃ o ∈ others, o.path = p ∧ o.selections ≠ []
    · rw [if_pos h₂, Option.merge_some_some, eraseDups_append_eq_joinKeys]
    · rw [if_neg h₂, h'.filterMap_keyBelow? h₂, List.append_nil, Option.merge_none_right]
  · rw [if_neg h₁, h.filterMap_keyBelow? h₁, List.nil_append, Option.merge_none_left]
    by_cases h₂ : p = [] ∨ ∃ o ∈ others, o.path = p ∧ o.selections ≠ []
    · rw [if_pos (hor.mpr (.inr h₂)), if_pos h₂]
    · rw [if_neg fun hc => (hor.mp hc).elim h₁ h₂, if_neg h₂]

end QueryCompiler
