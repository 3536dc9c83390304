import QueryCompiler.Proofs.Artifact.Sent
import QueryCompiler.Proofs.Selection.Missing
/-
# Fragments in a circle

Compiling a selection goes into every fragment that is spread, and remembers none of those that it
is inside of.  It comes to an end if no fragment on its way leads back to itself.  A fragment that
does would be gone into without an end, which the bound on the spreads inside each other stands for.

* `Compilation.forest_ends`: from selections that lead to no circle a compilation ends, and no bound
  shows in what it comes to.  The fragments that it is inside of are all different, so there are no
  more of them than the table has;
* `Compilation.acyclic_of_forest`: a compilation that has succeeded has gone into every fragment
  that its selections lead to, and has met no circle.  A field that asks for the name of a type is
  compiled without what is selected below it, so nothing may be;
* `compile_ends_acyclic`: both, for artifacts and for selections.

A fragment that is compiled itself is the one under its name, also where another document has a
fragment of that name (`Executable.ownTable`).
-/
namespace QueryCompiler

open Expands (SpreadIn ReachedFrom)

/-! ## 1. Circles -/

/-- No fragment that the selections lead to leads back to itself. -/
def Acyclic (fragment? : String → Option Fragment) (ss : List Selection) : Prop :=
  ∀ name, ReachedFrom fragment? ss name → ¬ Relation.TransGen (SpreadIn fragment?) name name

variable {fragment? fragment?' : String → Option Fragment} {ss : List Selection}

/-- Without more spreads there are no more circles. -/
theorem Acyclic.mono (h : Acyclic fragment? ss) {ss' : List Selection}
    (hss : ∀ name ∈ spreadNamesOf ss', name ∈ spreadNamesOf ss)
    (hin : ∀ other name, SpreadIn fragment?' other name → SpreadIn fragment? other name) :
    Acyclic fragment?' ss' := by
  rintro name ⟨first, hfirst, hreach⟩ hcircle
  exact h name ⟨first, hss first hfirst, Relation.ReflTransGen.mono hin _ _ hreach⟩
    (Relation.TransGen.mono hin _ _ hcircle)

/-- Where all spreads come to an end there are no circles. -/
theorem acyclic_of_acc (h : ∀ name ∈ spreadNamesOf ss, Acc (SpreadIn fragment?) name) :
    Acyclic fragment? ss := by
  rintro name ⟨first, hfirst, hreach⟩
  refine Expands.not_transGen_of_acc ?_
  induction hreach using Relation.ReflTransGen.head_induction_on with
  | refl => exact h first hfirst
  | head hstep _ ih => exact ih.inv hstep

/-- Names with ranks that fall with every spread do not come in circles. -/
theorem acyclic_of_rank {fragments : Table String Fragment} (rank : String → Nat)
    (h : ∀ row ∈ fragments, ∀ other ∈ spreadNamesOf row.2.selections, rank other < rank row.1) :
    Acyclic (Table.get? fragments) ss := by
  have hlower : ∀ other name, SpreadIn (Table.get? fragments) other name →
      rank other < rank name := by
    rintro other name ⟨f, hf, hother⟩
    exact h (name, f) (Table.mem_of_get? hf) other hother
  refine acyclic_of_acc fun name _ => ?_
  exact Subrelation.accessible (hlower _ _) ((measure rank).wf.apply name)

namespace Compilation

variable {x : Compilation} {follow follow' : Follow}

/-! ## 2. Which spreads a compilation follows -/

mutual

/-- Only the spreads in a selection are followed. -/
theorem tree_congr_follow : ∀ (s : Selection) {parent : Option NamedType} {masked : Bool},
    (∀ name ∈ spreadNames s, follow name = follow' name) →
      x.tree follow parent masked s = x.tree follow' parent masked s
  | .field head ss, _, _, h => by
    rw [spreadNames] at h
    rw [tree, tree]
    simp only [forest_congr_follow ss h]
  | .spread name _, _, _, h => by
    rw [spreadNames, List.forall_mem_singleton] at h
    rw [tree, tree, h]
  | .inline _ _ ss, _, _, h => by
    rw [spreadNames] at h
    rw [tree, tree, forest_congr_follow ss h]

theorem forest_congr_follow : ∀ (ss : List Selection) {parent : Option NamedType} {masked : Bool}
    {merged : SelectionTree}, (∀ name ∈ spreadNamesOf ss, follow name = follow' name) →
      x.forest follow parent masked merged ss = x.forest follow' parent masked merged ss
  | [], _, _, _, _ => by rw [forest, forest]
  | s :: ss, _, _, _, h => by
    rw [spreadNamesOf, List.forall_mem_append] at h
    rw [forest, forest, tree_congr_follow s h.1]
    exact bind_congr fun entries => forest_congr_follow ss h.2

end

/-- When the computation fails, the error does not say that there is no end to fragments. -/
abbrev Ends {α : Type} (m : Except Error α) : Prop := FailsOnly (· ≠ .endlessSpread) m

theorem ends_of_entry {α : Type} {m : Except Error α} (hm : FailsOnly Error.OfEntry m) : Ends m :=
  hm.mono fun _ he hendless => by rwa [hendless] at he

theorem ends_definition (parent : Option NamedType) (name : String) :
    Ends (definition parent name) := by
  unfold definition
  split
  · exact .error nofun
  · split
    · exact .ok _
    · exact .error nofun

mutual

/-- A compilation ends when what it follows does. -/
theorem ends_tree : ∀ (s : Selection) (parent : Option NamedType) (masked : Bool),
    (∀ name ∈ spreadNames s, Ends (follow name)) → Ends (x.tree follow parent masked s)
  | .field head ss, parent, masked, h => by
    rw [spreadNames] at h
    rw [tree]
    split
    · exact .ok _
    · refine (ends_definition parent head.name).bind fun f _ => ?_
      refine (ends_of_entry (failsOnly_cacheKey head (some f))).bind fun key _ => ?_
      refine (ends_forest ss _ masked [] h).bind fun below _ => ?_
      exact (ends_of_entry (failsOnly_entryHead head ss f key masked)).map
  | .spread name _, _, _, h => by
    rw [spreadNames, List.forall_mem_singleton] at h
    rw [tree]
    exact h
  | .inline _ _ ss, _, masked, h => by
    rw [spreadNames] at h
    rw [tree]
    exact ends_forest ss _ masked [] h

theorem ends_forest : ∀ (ss : List Selection) (parent : Option NamedType) (masked : Bool)
    (merged : SelectionTree), (∀ name ∈ spreadNamesOf ss, Ends (follow name)) →
      Ends (x.forest follow parent masked merged ss)
  | [], _, _, _, _ => by
    rw [forest]
    exact .ok _
  | s :: ss, parent, masked, _, h => by
    rw [spreadNamesOf, List.forall_mem_append] at h
    rw [forest]
    exact (ends_tree s parent masked h.1).bind fun _ _ => ends_forest ss parent masked _ h.2

end

mutual

/-- What has compiled has followed all its spreads. -/
theorem follow_of_tree : ∀ (s : Selection) {parent : Option NamedType} {masked : Bool}
    {t : SelectionTree}, s.typenamesAreLeaves = true → x.tree follow parent masked s = .ok t →
      ∀ name ∈ spreadNames s, ∃ entries, follow name = .ok entries
  | .field head ss, parent, masked, t, hleaf, h => by
    rw [Selection.typenamesAreLeaves, Bool.and_eq_true, Bool.or_eq_true, decide_eq_true_iff]
      at hleaf
    rw [spreadNames]
    rw [tree] at h
    split at h
    · rename_i hname
      obtain rfl : ss = [] := List.isEmpty_iff.mp (hleaf.1.resolve_left fun hn => hn hname)
      exact fun _ hn => absurd hn List.not_mem_nil
    · simp only [bind_eq_ok] at h
      obtain ⟨f, -, key, -, below, hbelow, -⟩ := h
      exact follow_of_forest ss hleaf.2 hbelow
  | .spread name _, _, _, t, _, h => by
    rw [spreadNames, List.forall_mem_singleton]
    rw [tree] at h
    exact ⟨t, h⟩
  | .inline _ _ ss, _, _, _, hleaf, h => by
    rw [Selection.typenamesAreLeaves] at hleaf
    rw [spreadNames]
    rw [tree] at h
    exact follow_of_forest ss hleaf h

theorem follow_of_forest : ∀ (ss : List Selection) {parent : Option NamedType} {masked : Bool}
    {merged t : SelectionTree}, typenamesAreLeavesIn ss = true →
      x.forest follow parent masked merged ss = .ok t →
        ∀ name ∈ spreadNamesOf ss, ∃ entries, follow name = .ok entries
  | [], _, _, _, _, _, _ => fun _ hn => absurd hn List.not_mem_nil
  | s :: ss, _, _, _, _, hleaf, h => by
    rw [typenamesAreLeavesIn, Bool.and_eq_true] at hleaf
    rw [forest, bind_eq_ok] at h
    obtain ⟨entries, hentries, h⟩ := h
    rw [spreadNamesOf, List.forall_mem_append]
    exact ⟨follow_of_tree s hleaf.1 hentries, follow_of_forest ss hleaf.2 h⟩

end

/-! ## 3. Compilations that end -/

theorem follow_unknown {name : String} (h : Table.get? x.fragments name = none) (depth : Nat) :
    x.follow depth name = .error (.unknownFragment name) := by
  rw [follow.eq_def, h]

theorem follow_known {name : String} {f : Fragment} (h : Table.get? x.fragments name = some f)
    (depth : Nat) : x.follow (depth + 1) name
      = x.forest (x.follow depth) (x.config.schema.type? f.condition) true [] f.selections := by
  rw [follow.eq_def, h]

/-- **A fragment that leads to no circle is followed to its end.**  The fragments that it is inside
of are all above it, so it is none of them, and there are fewer fragments left than before. -/
theorem follow_ends (hss : Acyclic (Table.get? x.fragments) ss) : ∀ (depth : Nat) (name : String)
    (inside : List String), ReachedFrom (Table.get? x.fragments) ss name →
    (∀ other ∈ inside, Relation.TransGen (SpreadIn (Table.get? x.fragments)) name other) →
    missing (Table.keys x.fragments) inside ≤ depth →
      Ends (x.follow depth name) ∧ ∀ more, x.follow (depth + more) name = x.follow depth name
  | depth, name, inside, hname, hinside, hdepth => by
    cases hf : Table.get? x.fragments name with
    | none =>
      rw [follow_unknown hf]
      exact ⟨.error nofun, fun more => follow_unknown hf _⟩
    | some f =>
      have hfewer : missing (Table.keys x.fragments) (name :: inside)
          < missing (Table.keys x.fragments) inside :=
        missing_lt (fun _ => List.mem_cons_of_mem name) (Table.mem_keys_of_get? hf)
          (fun hin => hss name hname (hinside name hin)) List.mem_cons_self
      cases depth with
      | zero => omega
      | succ depth =>
        have hnext : ∀ other ∈ spreadNamesOf f.selections, Ends (x.follow depth other) ∧
            ∀ more, x.follow (depth + more) other = x.follow depth other := by
          intro other hother
          have hstep : SpreadIn (Table.get? x.fragments) other name := ⟨f, hf, hother⟩
          refine follow_ends hss depth other (name :: inside) (hname.step hstep) ?_ (by omega)
          rw [List.forall_mem_cons]
          exact ⟨.single hstep, fun above habove => .head hstep (hinside above habove)⟩
        refine ⟨?_, fun more => ?_⟩
        · rw [follow_known hf]
          exact ends_forest _ _ _ _ fun other hother => (hnext other hother).1
        · rw [Nat.succ_add, follow_known hf, follow_known hf]
          exact forest_congr_follow _ fun other hother => (hnext other hother).2 more

/-- **Without circles a compilation ends**, and comes to the same with every bound on the spreads
inside each other that is not less than the number of fragments. -/
theorem forest_ends (hss : Acyclic (Table.get? x.fragments) ss) {depth : Nat}
    (hdepth : x.fragments.length ≤ depth) (parent : Option NamedType) (masked : Bool)
    (merged : SelectionTree) : Ends (x.forest (x.follow depth) parent masked merged ss) ∧
      x.forest (x.follow depth) parent masked merged ss
        = x.forest (x.follow x.fragments.length) parent masked merged ss := by
  have hfollow : ∀ name ∈ spreadNamesOf ss, Ends (x.follow x.fragments.length name) ∧
      ∀ more, x.follow (x.fragments.length + more) name = x.follow x.fragments.length name :=
    fun name hname => follow_ends hss _ name [] ⟨name, hname, .refl⟩
      (fun _ hother => absurd hother List.not_mem_nil) (missing_le_length _ _)
  have hsame : x.forest (x.follow depth) parent masked merged ss
      = x.forest (x.follow x.fragments.length) parent masked merged ss := by
    obtain ⟨more, rfl⟩ := Nat.exists_eq_add_of_le hdepth
    exact forest_congr_follow ss fun name hname => (hfollow name hname).2 more
  refine ⟨?_, hsame⟩
  rw [hsame]
  exact ends_forest ss parent masked merged fun name hname => (hfollow name hname).1

/-! ## 4. Compilations that have ended -/

/-- A spread that has been followed comes to an end. -/
theorem acc_of_follow (hx : x.LeavesIn) : ∀ {depth : Nat} {name : String} {t : SelectionTree},
    x.follow depth name = .ok t → Acc (SpreadIn (Table.get? x.fragments)) name
  | 0, _, _, h => absurd h follow_zero_ne_ok
  | depth + 1, name, t, h => by
    obtain ⟨f, hf, h⟩ := follow_succ_eq_ok.mp h
    refine Acc.intro name fun other ⟨g, hg, hother⟩ => ?_
    obtain rfl := Option.some.inj (hf.symm.trans hg)
    obtain ⟨entries, hentries⟩ := follow_of_forest f.selections (hx name f hf) h other hother
    exact acc_of_follow hx hentries

/-- **What has compiled leads to no circle.** -/
theorem acyclic_of_forest (hx : x.LeavesIn) (hleaf : typenamesAreLeavesIn ss = true) {depth : Nat}
    {parent : Option NamedType} {masked : Bool} {merged t : SelectionTree}
    (h : x.forest (x.follow depth) parent masked merged ss = .ok t) :
    Acyclic (Table.get? x.fragments) ss := by
  refine acyclic_of_acc fun name hname => ?_
  obtain ⟨entries, hentries⟩ := follow_of_forest ss hleaf h name hname
  exact acc_of_follow hx hentries

end Compilation

/-! ## 5. Artifacts -/

/-- The table in which a definition is compiled: a fragment finds itself under its own name,
whatever else there is under it. -/
def Executable.ownTable (fragments : Table String Fragment) : Executable → Table String Fragment
  | .operation _ => fragments
  | .fragment f => Table.insert fragments f.name f

namespace ArtifactContext

variable {x : ArtifactContext} {d : Document} {e : Executable} {fs : List Fragment}

/-- A fragment that is compiled stands under its name. -/
theorem get?_compiledFragments_own (x : ArtifactContext) (f : Fragment) (others : List Fragment) :
    Table.get? (x.compiledFragments (.fragment f) others) f.name = some f := by
  rw [get?_compiledFragments_eq, List.map_append, List.reverse_append]
  simp [Table.get?_cons]

/-- **Compiled fragments spread what they spread in the table**: they only gain names of types. -/
theorem spreadIn_of_compiledFragments (hx : NamedByKey x.fragments) (he : d.executable = .ok e)
    (hfs : referenced x.fragments e = .ok fs) {other name : String}
    (h : SpreadIn (Table.get? (x.compiledFragments (e.withTypenames x.config.schema)
      (fs.map (·.withTypenames x.config.schema)))) other name) :
    SpreadIn (Table.get? (e.ownTable x.fragments)) other name := by
  obtain ⟨f, hf, hother⟩ := h
  have hdefinitions : x.compiledDefinitions d = .ok (e.withTypenames x.config.schema,
      fs.map (·.withTypenames x.config.schema)) := by
    rw [compiledDefinitions, he]
    change (referenced x.fragments e >>= _) = _
    rw [hfs]
    rfl
  have hsource := compiledFragments_source hx hdefinitions hf
  have hspread {g : Fragment} (hg : f = g ∨ f = g.withTypenames x.config.schema) :
      other ∈ spreadNamesOf g.selections := by
    rcases hg with rfl | rfl
    · exact hother
    · rwa [Fragment.spreadNamesOf_withTypenames] at hother
  cases e with
  | operation o =>
    rcases hsource with ⟨-, hmain⟩ | ⟨g, hg, hfrom⟩
    · cases hmain
    · exact ⟨g, hg, hspread hfrom⟩
  | fragment own =>
    by_cases hname : own.name = name
    · subst hname
      refine ⟨own, Table.get?_insert_self _ _ _, hspread (.inr ?_)⟩
      have hown := x.get?_compiledFragments_own (own.withTypenames x.config.schema)
        (fs.map (·.withTypenames x.config.schema))
      exact Option.some.inj (hf.symm.trans hown)
    · rcases hsource with ⟨hfname, hmain⟩ | ⟨g, hg, hfrom⟩
      · exact absurd ((congrArg Executable.fragmentName? hmain).trans
          (congrArg some hfname)) fun h => hname (Option.some.inj h)
      · exact ⟨g, (Table.get?_insert_of_ne _ _ hname).trans hg, hspread hfrom⟩

/-- **Without circles an artifact is compiled to the end.** -/
theorem compile_ends (hx : NamedByKey x.fragments) (hacyclic : ∀ e, d.executable = .ok e →
    Acyclic (Table.get? (e.ownTable x.fragments)) e.selections) :
    Compilation.Ends (x.compile d) := by
  have hexecutable : Compilation.Ends d.executable := by
    unfold Document.executable
    split
    · exact .ok _
    · exact .error nofun
  refine hexecutable.bind fun e he => ?_
  have hreferenced : Compilation.Ends (referenced x.fragments e) := by
    rintro error herror rfl
    obtain ⟨name, -, hname⟩ := referenced_eq_error.mp herror
    exact absurd hname nofun
  refine hreferenced.bind fun fs hfs => ?_
  dsimp only
  split
  · exact .error nofun
  · rename_i type _
    have hcompiled : Acyclic (Table.get? (x.compilation d (e.withTypenames x.config.schema)
        (fs.map (·.withTypenames x.config.schema))).fragments)
          (e.withTypenames x.config.schema).selections := by
      refine (hacyclic e he).mono (fun name hname => ?_) fun _ _ =>
        spreadIn_of_compiledFragments hx he hfs
      rwa [e.spreadNamesOf_withTypenames] at hname
    have hends := (Compilation.forest_ends hcompiled (Nat.le_refl _) (some type) false []).1
    exact FailsOnly.map hends

end ArtifactContext

/-- **A compilation ends exactly without circles.**  If no fragment that a definition leads to leads
back to itself, its artifact is compiled to the end, with a result or an error of another kind; and
so are selections with any table of fragments, where no bound on the spreads inside each other shows
in the result.  If selections have compiled, no fragment that they lead to leads back to itself. -/
theorem compile_ends_acyclic :
    (∀ (c : Config) (r : Registry) (documents : List Document) (d : Document),
      (∀ e, d.executable = .ok e →
        Acyclic (Table.get? (e.ownTable (fragmentTable documents))) e.selections) →
      (ArtifactContext.ofDocuments c r documents).compile d ≠ .error .endlessSpread) ∧
    (∀ (x : Compilation) (ss : List Selection), Acyclic (Table.get? x.fragments) ss →
      ∀ (parent : Option NamedType) (masked : Bool) (depth : Nat), x.fragments.length ≤ depth →
        x.forest (x.follow depth) parent masked [] ss ≠ .error .endlessSpread ∧
        x.forest (x.follow depth) parent masked [] ss
          = x.forest (x.follow x.fragments.length) parent masked [] ss) ∧
    ∀ (x : Compilation) (ss : List Selection), x.LeavesIn → typenamesAreLeavesIn ss = true →
      ∀ (parent : Option NamedType) (masked : Bool) (depth : Nat) (t : SelectionTree),
        x.forest (x.follow depth) parent masked [] ss = .ok t →
          Acyclic (Table.get? x.fragments) ss := by
  refine ⟨fun c r documents d hacyclic hendless => ?_,
    fun x ss hss parent masked depth hdepth => ?_, fun x ss hx hleaf _ _ _ _ h => ?_⟩
  · have hends := ArtifactContext.compile_ends (x := .ofDocuments c r documents)
      (namedByKey_fragmentTable documents) hacyclic
    exact hends _ hendless rfl
  · obtain ⟨hends, hsame⟩ := Compilation.forest_ends hss hdepth parent masked []
    exact ⟨fun hendless => hends _ hendless rfl, hsame⟩
  · exact Compilation.acyclic_of_forest hx hleaf h

open Sample in
theorem hero_ends : (∀ e, hero.executable = .ok e →
      Acyclic (Table.get? (e.ownTable (fragmentTable friends))) e.selections) ∧
    (ArtifactContext.ofDocuments (config characters) [] friends).compile hero
      ≠ .error .endlessSpread := by
  have hacyclic : ∀ e, hero.executable = .ok e →
      Acyclic (Table.get? (e.ownTable (fragmentTable friends))) e.selections := by
    intro e he
    obtain rfl := Except.ok.inj he
    exact acyclic_of_rank (fun name => if name = "Names" then 0 else 1) (by decide)
  exact ⟨hacyclic, compile_ends_acyclic.1 _ _ _ _ hacyclic⟩

/-- A fragment that spreads itself does not compile. -/
example : let friends := Sample.fragment "Friends" "Character" [.spread "Friends" []]
    (ArtifactContext.ofDocuments (Sample.config Sample.characters) [] [friends]).compile friends
      = .error .endlessSpread := by rfl

end QueryCompiler
