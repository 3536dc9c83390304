import QueryCompiler.Proofs.Outcome
import QueryCompiler.Proofs.Selection.Expansion
/-
# Searching for fragments

The search for the fragments of a definition (`findFragment`) remembers what it has found, and
passes over a fragment that it meets again, although it may still be busy inside of it.  The walk
that it is measured against remembers nothing but the fragments that it is inside of (`visited`): it
enters a fragment at every spread of it, except within the fragment itself, where it would go in a
circle.

* `foldlM_findFragment`: the search finds what the walk meets, in the order in which the walk first
  meets it, and fails at the first unknown fragment that the walk meets.  No bound on the depth of
  the search shows in that, once it is not less than the number of fragments;
* `mem_visitedIn_iff`: the walk meets what the definition leads to.
-/
namespace QueryCompiler

variable {fragments found found' : Table String Fragment}

/-! ## 1. How far a search can go -/

/-- The number of names still to be found. -/
def missing (names found : List String) : Nat :=
  (names.filter fun name => decide (name ∉ found)).length

theorem missing_sublist {names found found' : List String} (h : ∀ name ∈ found, name ∈ found') :
    (names.filter fun name => decide (name ∉ found')).Sublist
      (names.filter fun name => decide (name ∉ found)) := by
  refine List.monotone_filter_right _ fun name hname => ?_
  rw [decide_eq_true_iff] at hname ⊢
  exact fun hf => hname (h name hf)

theorem missing_le {names found found' : List String} (h : ∀ name ∈ found, name ∈ found') :
    missing names found' ≤ missing names found := (missing_sublist h).length_le

/-- Finding a name leaves fewer to be found. -/
theorem missing_lt {names found found' : List String} (h : ∀ name ∈ found, name ∈ found')
    {name : String} (hname : name ∈ names) (hnew : name ∉ found) (hfound : name ∈ found') :
    missing names found' < missing names found := by
  refine Nat.lt_of_not_le fun hle => ?_
  have hmem : name ∈ names.filter fun name => decide (name ∉ found) :=
    List.mem_filter.mpr ⟨hname, decide_eq_true hnew⟩
  rw [← (missing_sublist h).eq_of_length_le hle] at hmem
  exact of_decide_eq_true (List.mem_filter.mp hmem).2 hfound

/-- No more names are to be found than a table has rows. -/
theorem missing_le_length (fragments : Table String Fragment) (found : List String) :
    missing (Table.keys fragments) found ≤ fragments.length :=
  Nat.le_trans (List.length_filter_le _ _) (Nat.le_of_eq (List.length_map _))

theorem mem_keys_insert {name other : String} {f : Fragment} :
    other ∈ Table.keys (Table.insert found name f) ↔ other ∈ Table.keys found ∨ other = name := by
  rw [Table.keys_insert]
  split
  · rename_i h
    exact ⟨.inl, fun ho => ho.elim id fun he => he ▸ h⟩
  · rw [List.mem_append, List.mem_singleton]

/-! ## 2. The walk -/

/-- The names that a walk meets at a spread: the name itself and what it meets in the fragment, if
it is not inside of that one already. -/
def visited (fragments : Table String Fragment) (inside : List String) (name : String) :
    List String :=
  if _h : name ∈ inside then [name]
  else match _hf : Table.get? fragments name with
    | none => [name]
    | some f => name :: (spreadNamesOf f.selections).flatMap fun other =>
        visited fragments (name :: inside) other
termination_by missing (Table.keys fragments) inside
decreasing_by
  exact missing_lt (fun _ => List.mem_cons_of_mem name) (Table.mem_keys_of_get? _hf) _h
    List.mem_cons_self

/-- The names that a walk meets in some selections. -/
def visitedIn (fragments : Table String Fragment) (inside : List String) (names : List String) :
    List String :=
  names.flatMap (visited fragments inside)

variable {inside names : List String} {name : String}

theorem visited_unknown (h : Table.get? fragments name = none) :
    visited fragments inside name = [name] := by
  rw [visited]
  split
  · rfl
  · split
    · rfl
    · rename_i hf
      exact absurd (h.symm.trans hf) nofun

theorem visited_known {f : Fragment} (h : Table.get? fragments name = some f)
    (hname : name ∉ inside) : visited fragments inside name
      = name :: visitedIn fragments (name :: inside) (spreadNamesOf f.selections) := by
  rw [visited, dif_neg hname]
  split
  · rename_i hf
    exact absurd (h.symm.trans hf) nofun
  · rename_i g hg
    obtain rfl := Option.some.inj (h.symm.trans hg)
    rfl

theorem mem_visited_self : name ∈ visited fragments inside name := by
  fun_cases visited fragments inside name with
  | case1 | case2 | case3 => exact List.mem_cons_self

theorem mem_visitedIn_of_mem (h : name ∈ names) : name ∈ visitedIn fragments inside names :=
  List.mem_flatMap.mpr ⟨name, h, mem_visited_self⟩

/-- What is met where a fragment is spread leads there. -/
theorem reflTransGen_of_mem_visited {other : String} (h : other ∈ visited fragments inside name) :
    Relation.ReflTransGen (Expands.SpreadIn (Table.get? fragments)) other name := by
  fun_induction visited fragments inside name with
  | case1 | case2 => exact List.mem_singleton.mp h ▸ .refl
  | case3 inside name _ f hf ih =>
    rcases List.mem_cons.mp h with rfl | h
    · exact .refl
    · obtain ⟨spread, hspread, h⟩ := List.mem_flatMap.mp h
      exact (ih spread h).tail ⟨f, hf, hspread⟩

/-- With every fragment that it is not inside of, the walk meets all that this one spreads. -/
theorem visited_closed {other spread : String} {f : Fragment}
    (h : other ∈ visited fragments inside name) (hother : other ∉ inside)
    (hf : Table.get? fragments other = some f) (hspread : spread ∈ spreadNamesOf f.selections) :
    spread ∈ visited fragments inside name := by
  fun_induction visited fragments inside name with
  | case1 inside name hname => exact absurd (List.mem_singleton.mp h ▸ hname) hother
  | case2 inside name _ hnone =>
    rw [← List.mem_singleton.mp h, hf] at hnone
    exact absurd hnone nofun
  | case3 inside name _ g hg ih =>
    by_cases he : other = name
    · subst he
      obtain rfl := Option.some.inj (hf.symm.trans hg)
      exact List.mem_cons_of_mem _ (mem_visitedIn_of_mem hspread)
    · obtain ⟨first, hfirst, h⟩ := List.mem_flatMap.mp ((List.mem_cons.mp h).resolve_left he)
      refine List.mem_cons_of_mem _ (List.mem_flatMap.mpr ⟨first, hfirst, ih first h ?_⟩)
      exact fun hin => (List.mem_cons.mp hin).elim he hother

/-- **The walk meets what the selections lead to**, and nothing else. -/
theorem mem_visitedIn_iff {ss : List Selection} :
    name ∈ visitedIn fragments [] (spreadNamesOf ss)
      ↔ Expands.ReachedFrom (Table.get? fragments) ss name := by
  constructor
  · intro h
    obtain ⟨first, hfirst, h⟩ := List.mem_flatMap.mp h
    exact ⟨first, hfirst, reflTransGen_of_mem_visited h⟩
  · rintro ⟨first, hfirst, h⟩
    refine List.mem_flatMap.mpr ⟨first, hfirst, ?_⟩
    induction h using Relation.ReflTransGen.head_induction_on with
    | refl => exact mem_visited_self
    | head hstep _ ih =>
      obtain ⟨f, hf, hspread⟩ := hstep
      exact visited_closed ih List.not_mem_nil hf hspread

/-! ## 3. What is found along a walk -/

/-- A fragment is put to those that have been found. -/
def enter (fragments found : Table String Fragment) (name : String) :
    Except Error (Table String Fragment) :=
  match Table.get? fragments name with
  | none => .error (.unknownFragment name)
  | some f => .ok (Table.insert found name f)

theorem enter_eq_ok : enter fragments found name = .ok found' ↔
    ∃ f, Table.get? fragments name = some f ∧ Table.insert found name f = found' := by
  rw [enter]
  cases Table.get? fragments name with
  | none => exact ⟨nofun, nofun⟩
  | some f => simp

/-- The fragments that have been found are those of the table. -/
def Sourced (fragments found : Table String Fragment) : Prop :=
  ∀ name f, Table.get? found name = some f → Table.get? fragments name = some f

theorem Sourced.insert (hs : Sourced fragments found) {f : Fragment}
    (hf : Table.get? fragments name = some f) : Sourced fragments (Table.insert found name f) := by
  intro other g hg
  rw [Table.get?_insert] at hg
  split at hg
  · rename_i he
    exact he ▸ hf.trans hg
  · exact hs other g hg

/-- Names that have been found change nothing. -/
theorem foldlM_enter_found (hs : Sourced fragments found) :
    ∀ {names : List String}, (∀ name ∈ names, name ∈ Table.keys found) →
      names.foldlM (enter fragments) found = .ok found
  | [], _ => rfl
  | name :: names, h => by
    obtain ⟨hname, hnames⟩ := List.forall_mem_cons.mp h
    obtain ⟨f, hf⟩ := Option.ne_none_iff_exists'.mp fun hn =>
      (Table.get?_eq_none_iff found name).mp hn hname
    have hsame : enter fragments found name = .ok found :=
      enter_eq_ok.mpr ⟨f, hs name f hf, Table.insert_of_get? hf⟩
    rw [List.foldlM_cons, hsame]
    exact foldlM_enter_found hs hnames

/-- What has been found along some names are these names, with their fragments. -/
theorem found_of_foldlM_enter : ∀ {names : List String} {found found' : Table String Fragment},
    names.foldlM (enter fragments) found = .ok found' →
      (∀ other, other ∈ Table.keys found' ↔ other ∈ Table.keys found ∨ other ∈ names) ∧
      (Sourced fragments found → Sourced fragments found')
  | [], found, found', h => by
    rw [List.foldlM_nil, pure_eq_ok] at h
    subst h
    exact ⟨fun other => by simp, id⟩
  | name :: names, found, found', h => by
    rw [List.foldlM_cons, bind_eq_ok] at h
    obtain ⟨between, hname, h⟩ := h
    obtain ⟨f, hf, rfl⟩ := enter_eq_ok.mp hname
    obtain ⟨hkeys, hsourced⟩ := found_of_foldlM_enter h
    refine ⟨fun other => ?_, fun hs => hsourced (hs.insert hf)⟩
    rw [hkeys, mem_keys_insert, List.mem_cons, or_assoc]

/-- The fragments stand in the order in which their names first come. -/
theorem keys_of_foldlM_enter : ∀ {names : List String} {found found' : Table String Fragment},
    names.foldlM (enter fragments) found = .ok found' → Table.keys found'
      = names.foldl (fun met name => if name ∈ met then met else met ++ [name]) (Table.keys found)
  | [], found, found', h => by
    rw [List.foldlM_nil, pure_eq_ok] at h
    rw [h, List.foldl_nil]
  | name :: names, found, found', h => by
    rw [List.foldlM_cons, bind_eq_ok] at h
    obtain ⟨between, hname, h⟩ := h
    obtain ⟨f, -, rfl⟩ := enter_eq_ok.mp hname
    rw [keys_of_foldlM_enter h, Table.keys_insert, List.foldl_cons]

/-- **Names are looked up in their order**, and the first one that is unknown is reported. -/
theorem foldlM_enter_eq_error {error : Error} : ∀ (names : List String)
    (found : Table String Fragment), names.foldlM (enter fragments) found = .error error ↔
      ∃ name, names.find? (fun name => (Table.get? fragments name).isNone) = some name ∧
        error = .unknownFragment name
  | [], found => by simp [pure, Except.pure]
  | name :: names, found => by
    rw [List.foldlM_cons, enter]
    cases hf : Table.get? fragments name with
    | none =>
      rw [List.find?_cons_of_pos (by rw [hf]; rfl)]
      constructor
      · rintro ⟨⟩
        exact ⟨name, rfl, rfl⟩
      · rintro ⟨_, ⟨⟩, rfl⟩
        rfl
    | some f =>
      rw [List.find?_cons_of_neg (by simp [hf])]
      exact foldlM_enter_eq_error names _

/-! ## 4. The search -/

/-- A search stands inside of some fragments.  What has been found are fragments of the table, and
with each one that the search is done with all that this one spreads. -/
structure Searching (fragments found : Table String Fragment) (inside : List String) : Prop where
  sourced : Sourced fragments found
  around : ∀ name ∈ inside, name ∈ Table.keys found
  closed : ∀ name ∈ Table.keys found, name ∉ inside → ∀ f, Table.get? fragments name = some f →
    ∀ other ∈ spreadNamesOf f.selections, other ∈ Table.keys found

namespace Searching

theorem start (fragments : Table String Fragment) : Searching fragments [] [] where
  sourced _ _ h := absurd h nofun
  around _ h := absurd h List.not_mem_nil
  closed _ h := absurd h List.not_mem_nil

/-- The search may take itself to be inside of what it has found. -/
theorem within (h : Searching fragments found inside) (hname : name ∈ Table.keys found) :
    Searching fragments found (name :: inside) where
  sourced := h.sourced
  around other ho := (List.mem_cons.mp ho).elim (fun he => he ▸ hname) (h.around other)
  closed other ho hn := h.closed other ho fun hin => hn (List.mem_cons_of_mem _ hin)

/-- A new fragment is found before the search goes inside. -/
theorem entered (h : Searching fragments found inside) {f : Fragment}
    (hf : Table.get? fragments name = some f) :
    Searching fragments (Table.insert found name f) (name :: inside) where
  sourced := h.sourced.insert hf
  around other ho := mem_keys_insert.mpr ((List.mem_cons.mp ho).symm.imp_left (h.around other))
  closed other ho hn g hg spread hspread := by
    obtain ⟨hne, hout⟩ := not_or.mp (mt List.mem_cons.mpr hn)
    have hfound := (mem_keys_insert.mp ho).resolve_right hne
    exact mem_keys_insert.mpr (.inl (h.closed other hfound hout g hg spread hspread))

/-- What has been found leads to nothing new. -/
theorem visited_found (h : Searching fragments found inside) (hname : name ∈ Table.keys found) :
    ∀ other ∈ visited fragments inside name, other ∈ Table.keys found := by
  intro other ho
  fun_induction visited fragments inside name with
  | case1 | case2 => exact List.mem_singleton.mp ho ▸ hname
  | case3 inside name hout f hf ih =>
    rcases List.mem_cons.mp ho with rfl | ho
    · exact hname
    · obtain ⟨spread, hspread, ho⟩ := List.mem_flatMap.mp ho
      exact ih spread (h.within hname) (h.closed name hname hout f hf spread hspread) ho

/-- **After a spread** the search is done with all that the walk meets there. -/
theorem after (h : Searching fragments found inside)
    (hfound : (visited fragments inside name).foldlM (enter fragments) found = .ok found') :
    Searching fragments found' inside := by
  obtain ⟨hkeys, hsourced⟩ := found_of_foldlM_enter hfound
  refine ⟨hsourced h.sourced, fun other ho => (hkeys other).mpr (.inl (h.around other ho)), ?_⟩
  intro other ho hout f hf spread hspread
  rcases (hkeys other).mp ho with ho | ho
  · exact (hkeys spread).mpr (.inl (h.closed other ho hout f hf spread hspread))
  · exact (hkeys spread).mpr (.inr (visited_closed ho hout hf hspread))

end Searching

/-- At a spread the search finds what the walk meets, whatever has been found before. -/
def FindsVisited (fragments : Table String Fragment) (depth : Nat) : Prop :=
  ∀ {found : Table String Fragment} {inside : List String} (name : String),
    Searching fragments found inside →
    missing (Table.keys fragments) (Table.keys found) ≤ depth →
      findFragment fragments depth found name
        = (visited fragments inside name).foldlM (enter fragments) found

theorem FindsVisited.foldlM {depth : Nat} (hstep : FindsVisited fragments depth) :
    ∀ (names : List String) {found : Table String Fragment} {inside : List String},
      Searching fragments found inside →
      missing (Table.keys fragments) (Table.keys found) ≤ depth →
        names.foldlM (findFragment fragments depth) found
          = (visitedIn fragments inside names).foldlM (enter fragments) found
  | [], _, _, _, _ => rfl
  | name :: names, found, inside, h, hdepth => by
    rw [List.foldlM_cons, hstep name h hdepth, visitedIn, List.flatMap_cons, List.foldlM_append]
    cases hname : (visited fragments inside name).foldlM (enter fragments) found with
    | error e => rfl
    | ok found' =>
      have hkeys := (found_of_foldlM_enter hname).1
      have hless : missing (Table.keys fragments) (Table.keys found') ≤ depth :=
        Nat.le_trans (missing_le fun other ho => (hkeys other).mpr (.inl ho)) hdepth
      exact hstep.foldlM names (h.after hname) hless

/-- **The search finds what the walk meets**, if it may go as deep as there are fragments left. -/
theorem findsVisited (fragments : Table String Fragment) : ∀ depth, FindsVisited fragments depth
  | depth, found, inside, name, h, hdepth => by
    unfold findFragment
    by_cases hname : name ∈ Table.keys found
    · rw [if_pos ((Table.contains_iff found name).mpr hname),
        foldlM_enter_found h.sourced (h.visited_found hname)]
    · rw [if_neg (mt (Table.contains_iff found name).mp hname)]
      cases hf : Table.get? fragments name with
      | none =>
        rw [visited_unknown hf, List.foldlM_cons, enter, hf]
        rfl
      | some f =>
        have hfewer : missing (Table.keys fragments) (Table.keys (Table.insert found name f))
            < missing (Table.keys fragments) (Table.keys found) :=
          missing_lt (fun _ ho => mem_keys_insert.mpr (.inl ho)) (Table.mem_keys_of_get? hf) hname
            (mem_keys_insert.mpr (.inr rfl))
        cases depth with
        | zero => omega
        | succ depth =>
          have hinside := FindsVisited.foldlM (findsVisited fragments depth)
            (spreadNamesOf f.selections) (h.entered hf) (by omega)
          rw [visited_known hf (mt (h.around name) hname), List.foldlM_cons,
            enter_eq_ok.mpr ⟨f, hf, rfl⟩]
          exact hinside

/-- **The search of a table** finds what the walk meets, with any bound on its depth that is not
less than the number of fragments. -/
theorem foldlM_findFragment (names : List String) {depth : Nat}
    (hdepth : fragments.length ≤ depth) : names.foldlM (findFragment fragments depth) []
      = (visitedIn fragments [] names).foldlM (enter fragments) [] :=
  FindsVisited.foldlM (findsVisited fragments depth) names (.start fragments)
    (Nat.le_trans (missing_le_length fragments _) hdepth)

end QueryCompiler
