import QueryCompiler.Proofs.Lists.Members
import QueryCompiler.Proofs.Lists.Pass
/-
# Tagged fields are left settled

The list pass leaves selections settled, and registers each list that is made in them with the
verdict of its field, under a name that has not come before (`Registered`).

* `sound_selections`: what a run over some selections leaves.
-/
namespace QueryCompiler.Tagging

variable {c : Config} {P : Argument → Prop}

/-! ## 1. Directives -/

/-- A fault that is noted rules the end out. -/
theorem sound_complain (filename : String) (d : Directive) (fault : NamingFault) :
    Sound c P (complain filename d fault) fun _ _ _ => False where
  captured hrun hu := by
    obtain rfl := runs_modify.mp hrun
    exact hu
  result hrun _ _ hl := by
    obtain rfl := runs_modify.mp hrun
    exact absurd hl.errors (List.append_ne_nil_of_right_ne_nil _ (List.cons_ne_nil _ _))

/-- A list with a name that has not come before. -/
def enlist (c : Config) (filename : String) (ancestors : List Ancestor) (target : Option Target)
    (name : String) (d : Directive) : Tagging Directive := do
  if Table.contains (← get).registry name then complain filename d .repeated
  register c filename ancestors target name d

/-- A directive either makes a list or stays as it is. -/
theorem sound_directive_of {filename : String} {ancestors : List Ancestor}
    {target : Option Target} {d : Directive} {Q : Registry → Bool → Directive → Prop}
    (hother : c.listName? d = none → ∀ r replaced, Q r replaced d)
    (hlist : ∀ name, c.listName? d = some name →
      Sound c P (enlist c filename ancestors target name d) Q) :
    Sound c P (directive c filename ancestors target d) Q := by
  unfold directive
  by_cases htag : c.Tags d
  · rw [if_pos htag]
    cases ha : argument? d.arguments "name" with
    | none =>
      have hname : c.listName? d = none := by rw [Config.listName?, if_pos htag, ha]
      dsimp only
      split
      · exact (sound_complain _ _ _).bind fun _ => Sound.pure fun _ _ hf => hf.elim
      · exact Sound.pure (hother hname)
    | some argument =>
      obtain ⟨key, value⟩ := argument
      cases value with
      | string name block =>
        refine hlist name ?_
        rw [Config.listName?, if_pos htag, ha]
      | _ => exact (sound_complain _ _ _).bind fun _ => Sound.pure fun _ _ hf => hf.elim
  · rw [if_neg htag]
    exact Sound.pure (hother (if_neg htag))

/-- A repeated name is noted before its field is looked at. -/
theorem runs_enlist {filename : String} {ancestors : List Ancestor} {target : Option Target}
    {name : String} {d d' : Directive} {st st' : TagState}
    (h : Runs (enlist c filename ancestors target name d) st d' st') :
    ∃ st₁, Runs (register c filename ancestors target name d) st₁ d' st' ∧
      st₁.registry = st.registry ∧
        (st₁.errors = [] → st₁ = st ∧ name ∉ Table.keys st.registry) := by
  unfold enlist at h
  obtain ⟨now, _, hget, hrest⟩ := runs_bind.mp h
  obtain ⟨rfl, rfl⟩ := runs_get.mp hget
  dsimp only at hrest
  split at hrest
  · obtain ⟨_, st₁, hnoted, hreg⟩ := runs_bind.mp hrest
    obtain rfl := runs_modify.mp hnoted
    exact ⟨_, hreg, rfl, fun hn => absurd hn
      (List.append_ne_nil_of_right_ne_nil _ (List.cons_ne_nil _ _))⟩
  · rename_i hnew
    exact ⟨_, hrest, rfl, fun _ => ⟨rfl, fun hm => hnew ((Table.contains_iff _ _).mpr hm)⟩⟩

/-- Directives of something else than a field stay as they are. -/
theorem sound_directives (filename : String) (ds : List Directive) :
    Sound c P (directives c filename ds) fun _ _ ds' => ds' = ds := by
  have hone (d : Directive) : Sound c P (directive c filename [] none d) fun _ _ d' => d' = d := by
    refine sound_directive_of (fun _ _ _ => rfl) fun name _ => ⟨?_, ?_⟩
    · intro st a st' hrun hu
      obtain ⟨st₁, hreg, hst₁, -⟩ := runs_enlist hrun
      obtain ⟨-, rfl⟩ := runs_pure.mp hreg
      exact hst₁ ▸ hu
    · intro st a st' hrun r replaced hl
      obtain ⟨st₁, hreg, -, hst₁⟩ := runs_enlist hrun
      obtain ⟨rfl, rfl⟩ := runs_pure.mp hreg
      obtain ⟨rfl, -⟩ := hst₁ hl.errors
      exact ⟨hl, rfl⟩
  refine (Sound.mapM fun d _ => hone d).weaken fun r replaced ds' h => ?_
  exact (List.forall₂_eq_eq_eq ▸ List.Forall₂.flip h : ds' = ds)

/-! ## 2. Fields -/

theorem marksIn_selectionsOf? {name : String} {ss below : List Selection} (hu : MarksIn c P ss)
    (h : selectionsOf? ss name = some below) : MarksIn c P below := by
  obtain ⟨head, -, hmem⟩ := of_selectionsOf? h
  exact (marksIn_field.mp (everyIn_singleton.mpr (everyIn_iff.mp hu _ hmem))).2

/-- The marks in the members of a field are marks in its selections. -/
theorem marksIn_members {s : Schema} {f : SchemaField} {type : NamedType}
    {ss : List Selection} {m : Members} (hu : MarksIn c P ss)
    (h : members s f type ss = .ok m) : MarksIn c P m.selections := by
  obtain rfl | ⟨-, nodes, -, -, -, hnodes, -, rfl⟩ := members_cases h
  · exact hu
  · obtain ⟨below, hedges, hnode⟩ := of_selectedNodes? hnodes
    exact marksIn_selectionsOf? (marksIn_selectionsOf? hu hedges) hnode

theorem marksIn_membersAt {ancestors : List Ancestor} {name : String} {ss : List Selection}
    {f : SchemaField} {m : Members} (hu : MarksIn c P ss)
    (h : membersAt c.schema ancestors name ss = .ok (some (f, m))) : MarksIn c P m.selections := by
  obtain ⟨type, -, -, hm⟩ := membersAt_eq_some h
  exact marksIn_members hu hm

/-- What registering a field does. -/
theorem runs_register {filename : String} {ancestors : List Ancestor} {target : Target}
    {name : String} {d d' : Directive} {st st' : TagState}
    (h : Runs (register c filename ancestors (some target) name d) st d' st') :
    (membersAt c.schema ancestors target.1.name target.2 = .ok none ∧ d' = d ∧ st' = st) ∨
    ∃ f m l, membersAt c.schema ancestors target.1.name target.2 = .ok (some (f, m)) ∧
      l.name = name ∧ l.selections = m.selections ∧ l.connection = m.connection ∧
      d' = d.mark m.connection ∧
      st' = { st with
        registry := st.registry.register l
        changed := st.changed || m.connection } := by
  unfold register at h
  obtain ⟨found, _, hlookup, hrest⟩ := runs_bind.mp h
  obtain ⟨hfound, rfl⟩ := runs_lift.mp hlookup
  cases found with
  | none =>
    obtain ⟨rfl, rfl⟩ := runs_pure.mp hrest
    exact .inl ⟨hfound, rfl, rfl⟩
  | some row =>
    obtain ⟨f, m⟩ := row
    obtain ⟨l, _, hlifted, hrest'⟩ := runs_bind.mp hrest
    obtain ⟨hlist, rfl⟩ := runs_lift.mp hlifted
    obtain ⟨_, _, hmodified, hend⟩ := runs_bind.mp hrest'
    obtain rfl := runs_modify.mp hmodified
    obtain ⟨rfl, rfl⟩ := runs_pure.mp hend
    rw [listDefinition] at hlist
    simp only [bind_eq_ok, pure_eq_ok] at hlist
    obtain ⟨arguments, -, rfl⟩ := hlist
    exact .inr ⟨f, m, _, hfound, rfl, rfl, rfl, rfl, rfl⟩

theorem registryMarks_register {r : Registry} {l : ListDefinition} (hr : RegistryMarks c P r)
    (hl : MarksIn c P l.selections) : RegistryMarks c P (r.register l) := by
  intro row hrow
  rcases Table.mem_insert hrow with hrow | rfl
  · exact hr row hrow
  · exact hl

/-- What is registered under a new name is there at the end, and what was there before as well. -/
theorem LeadsTo.of_register {st : TagState} {l : ListDefinition} {marked : Bool} {r : Registry}
    {replaced : Bool}
    (h : LeadsTo { st with
      registry := st.registry.register l
      changed := st.changed || marked } r replaced)
    (hnew : l.name ∉ Table.keys st.registry) :
    LeadsTo st r replaced ∧ Table.get? r l.name = some l ∧ (replaced = false → marked = false) := by
  refine ⟨⟨h.errors, fun other l' hother => ?_, fun hc => ?_⟩, ?_, fun hr => ?_⟩
  · have hne : l.name ≠ other := fun he => hnew (he ▸ Table.mem_keys_of_get? hother)
    exact h.registry other l' ((Table.get?_insert_of_ne _ _ hne).trans hother)
  · exact h.changed (by rw [hc, Bool.true_or])
  · exact h.registry _ _ (Table.get?_insert_self st.registry l.name l)
  · by_contra hm
    have hchanged : replaced = true := h.changed (by simp [hm])
    exact Bool.false_ne_true (hr.symm.trans hchanged)

/-- A list that a directive makes is in the registry, with the verdict of its field.  A directive
whose field is unknown makes none. -/
def Registers (c : Config) (r : Registry) (ancestors : List Ancestor) (target : Target)
    (d : Directive) : Prop :=
  ∀ name, c.listName? d = some name →
    ∃ found, membersAt c.schema ancestors target.1.name target.2 = .ok found ∧
      ∀ f m, found = some (f, m) → ∃ l, Table.get? r name = some l ∧ l.connection = m.connection

/-- **A directive of a field** is left with its mark, and its list is registered. -/
theorem sound_directive (filename : String) (ancestors : List Ancestor) {target : Target}
    (hu : MarksIn c P target.2) (d : Directive) :
    Sound c P (directive c filename ancestors (some target) d) fun r replaced d' =>
      d' = settledDirective c ancestors target d ∧ (replaced = false → d' = d) ∧
        Registers c r ancestors target d := by
  refine sound_directive_of (fun hnone r replaced => ?_) fun name hname => ⟨?_, ?_⟩
  · refine ⟨?_, fun _ => rfl, fun name hname => ?_⟩
    · rw [settledDirective, hnone]
      rfl
    · exact absurd (hnone.symm.trans hname) nofun
  · intro st d' st' hrun hst
    obtain ⟨st₁, hreg, hst₁, -⟩ := runs_enlist hrun
    rcases runs_register hreg with ⟨-, -, rfl⟩ | ⟨f, m, l, hm, -, hsel, -, -, rfl⟩
    · exact hst₁ ▸ hst
    · refine registryMarks_register (hst₁ ▸ hst) ?_
      rw [hsel]
      exact marksIn_membersAt hu hm
  · intro st d' st' hrun r replaced hl
    obtain ⟨st₁, hreg, -, hst₁⟩ := runs_enlist hrun
    rcases runs_register hreg with ⟨hm, rfl, rfl⟩ | ⟨f, m, l, hm, rfl, -, hcon, rfl, rfl⟩
    · obtain ⟨rfl, -⟩ := hst₁ hl.errors
      refine ⟨hl, ?_, fun _ => rfl, fun other hother => ⟨none, hm, fun f m hf => absurd hf nofun⟩⟩
      rw [settledDirective, connected, hm, Bool.and_false]
      rfl
    · obtain ⟨rfl, hnew⟩ := hst₁ hl.errors
      obtain ⟨hbefore, hregistered, hmarked⟩ := hl.of_register hnew
      refine ⟨hbefore, ?_, fun hr => ?_, ?_⟩
      · rw [settledDirective, connected, hm, hname, Option.isSome_some, Bool.true_and]
      · rw [hmarked hr]
        rfl
      · intro other hother
        obtain rfl := Option.some.inj (hname.symm.trans hother)
        refine ⟨_, hm, fun f' m' hfound => ⟨l, hregistered, ?_⟩⟩
        rw [hcon, (Prod.mk.inj (Option.some.inj hfound)).2]

/-- **A field gains** the page information, if a list directive makes it a connection. -/
theorem sound_gained (ancestors : List Ancestor) (head : FieldHead) (ss : List Selection) :
    Sound c P (gained c ancestors head ss) fun _ replaced extra =>
      extra = gains c ancestors head ss ∧ (replaced = false → extra = []) := by
  unfold gained
  by_cases hlist : hasDirective head.directives c.listDirective = true
  · rw [if_pos hlist]
    refine (Sound.lift _).bind fun found => ?_
    cases found with
    | none =>
      refine Sound.pure fun r replaced hm => ⟨?_, fun _ => rfl⟩
      rw [gains, connected, hm, Bool.and_false]
      rfl
    | some row =>
      obtain ⟨f, m⟩ := row
      dsimp only
      by_cases hc : m.connection = true
      · rw [if_pos hc]
        have hchange : Sound c P (modify fun st => { st with changed := true })
            fun _ replaced _ => replaced = true :=
          ⟨fun hrun hu => (runs_modify.mp hrun) ▸ hu, fun hrun _ _ hl => by
            obtain rfl := runs_modify.mp hrun
            exact ⟨⟨hl.errors, hl.registry, fun _ => hl.changed rfl⟩, hl.changed rfl⟩⟩
        refine hchange.bind fun _ => Sound.pure fun r replaced hr hm => ⟨?_, fun hf => ?_⟩
        · rw [gains, connected, hm, hlist]
          simp [hc]
        · exact absurd (hf.symm.trans hr) Bool.false_ne_true
      · rw [if_neg hc]
        refine Sound.pure fun r replaced hm => ⟨?_, fun _ => rfl⟩
        rw [gains, connected, hm]
        simp [hc]
  · rw [if_neg hlist]
    refine Sound.pure fun r replaced => ⟨?_, fun _ => rfl⟩
    rw [gains]
    simp [hlist]

theorem marksIn_gained {ancestors : List Ancestor} {head : FieldHead}
    {ss extra : List Selection} {st st' : TagState}
    (h : Runs (gained c ancestors head ss) st extra st') : MarksIn c P extra := by
  unfold gained at h
  split at h
  · obtain ⟨found, _, -, hrest⟩ := runs_bind.mp h
    split at hrest
    · split at hrest
      · obtain ⟨_, _, -, hend⟩ := runs_bind.mp hrest
        obtain ⟨rfl, -⟩ := runs_pure.mp hend
        exact marksIn_pageInfo
      · obtain ⟨rfl, -⟩ := runs_pure.mp hrest
        exact everyIn_nil _
    · obtain ⟨rfl, -⟩ := runs_pure.mp hrest
      exact everyIn_nil _
  · obtain ⟨rfl, -⟩ := runs_pure.mp h
    exact everyIn_nil _

/-! ## 3. Selections -/

/-- The lists that the directives of a field make are in the registry. -/
def Registered (c : Config) (r : Registry) : FieldProperty := fun ancestors head ss =>
  ∀ d ∈ head.directives, Registers c r ancestors (head, ss ++ gains c ancestors head ss) d

/-- What is said of directives one by one is said of their list. -/
theorem forall₂_left {f : Directive → Directive} {kept : Prop} {P : Directive → Prop} :
    ∀ {ds ds' : List Directive},
      List.Forall₂ (fun d d' => d' = f d ∧ (kept → d' = d) ∧ P d) ds ds' →
        ds' = ds.map f ∧ (kept → ds' = ds) ∧ ∀ d ∈ ds, P d
  | _, _, .nil => ⟨rfl, fun _ => rfl, fun _ hd => absurd hd List.not_mem_nil⟩
  | _, _, .cons hd hds => by
    obtain ⟨hmap, hkept, hall⟩ := forall₂_left hds
    obtain ⟨hf, hk, hP⟩ := hd
    refine ⟨?_, fun h => ?_, List.forall_mem_cons.mpr ⟨hP, hall⟩⟩
    · rw [List.map_cons, hf, hmap]
    · rw [hk h, hkept h]

mutual

theorem sound_selection (filename : String) : ∀ (s : Selection) (ancestors : List Ancestor),
    MarksIn c P [s] → Sound c P (selection c filename ancestors s) fun r replaced s' =>
      s' = settled c ancestors s ∧ (replaced = false → s' = s) ∧ s.Every (Registered c r) ancestors
  | .field head ss, ancestors, hu => by
    obtain ⟨-, hss⟩ := marksIn_field.mp hu
    rw [selection]
    refine (sound_gained ancestors head ss).bind_of_runs fun extra ⟨_, _, hextra⟩ => ?_
    have htarget : MarksIn c P (head, ss ++ extra).2 :=
      marksIn_append.mpr ⟨hss, marksIn_gained hextra⟩
    refine (Sound.mapM fun d _ => sound_directive filename ancestors htarget d).bind fun ds => ?_
    refine (sound_selections filename ss _ hss).bind fun below => Sound.pure fun r replaced => ?_
    rintro ⟨rfl, hbelow, hevery⟩ hds ⟨rfl, hextra⟩
    obtain ⟨rfl, hkept, hregistered⟩ := forall₂_left hds
    refine ⟨?_, fun hr => ?_, ?_⟩
    · rw [settled, settledHead]
    · rw [hkept hr, hbelow hr, hextra hr, List.append_nil]
    · rw [Selection.Every]
      exact ⟨hregistered, hevery⟩
  | .spread name ds, ancestors, _ => by
    rw [selection]
    refine (sound_directives filename ds).bind fun ds' => Sound.pure fun r replaced hds => ?_
    subst hds
    refine ⟨rfl, fun _ => rfl, ?_⟩
    rw [Selection.Every]
    trivial
  | .inline condition ds ss, ancestors, hu => by
    rw [selection]
    refine (sound_directives filename ds).bind fun ds' => ?_
    refine (sound_selections filename ss _ (marksIn_inline.mp hu)).bind fun below =>
      Sound.pure fun r replaced => ?_
    rintro ⟨rfl, hbelow, hevery⟩ rfl
    refine ⟨?_, fun hr => ?_, ?_⟩
    · rw [settled]
    · rw [hbelow hr]
    · rw [Selection.Every]
      exact hevery

/-- **Selections are left settled**, and the lists in them are registered. -/
theorem sound_selections (filename : String) : ∀ (ss : List Selection) (ancestors : List Ancestor),
    MarksIn c P ss → Sound c P (selections c filename ancestors ss) fun r replaced ss' =>
      ss' = settledAll c ancestors ss ∧ (replaced = false → ss' = ss) ∧
        EveryIn (Registered c r) ancestors ss
  | [], ancestors, _ => by
    rw [selections]
    exact Sound.pure fun r replaced => ⟨rfl, fun _ => rfl, everyIn_nil _⟩
  | s :: ss, ancestors, hu => by
    obtain ⟨hs, hss⟩ := marksIn_cons.mp hu
    rw [selections]
    refine (sound_selection filename s ancestors hs).bind fun first => ?_
    refine (sound_selections filename ss ancestors hss).bind fun rest =>
      Sound.pure fun r replaced => ?_
    rintro ⟨rfl, hrest, hevery⟩ ⟨rfl, hfirst, hevery₁⟩
    refine ⟨?_, fun hr => ?_, ?_⟩
    · rw [settledAll]
    · rw [hfirst hr, hrest hr]
    · rw [EveryIn]
      exact ⟨hevery₁, hevery⟩

end

end QueryCompiler.Tagging
