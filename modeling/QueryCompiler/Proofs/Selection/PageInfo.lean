import QueryCompiler.Proofs.Selection.Compiled
import QueryCompiler.Proofs.Selection.Trimming
/-
# The page information of a connection

A connection has to select the cursors and the types of its members, and the state of the page.
What selects this says so by fields without labels (`Selects`), so a pass that only adds fields, or
only changes what stands below them, keeps it (`Selects.map`).  In the end every place that selects
it has it in its entry:

* `Expands.exists_of_selects`: what a place selects is a place of its own;
* `Shows.hasPageInfo`: the entry of a place that selects the page information has it.
-/
namespace QueryCompiler

/-! ## 1. Selected paths -/

/-- Some selections lead along a path of fields without labels, arguments and directives. -/
def Selects : List Selection → List String → Prop
  | _, [] => True
  | ss, k :: p => ∃ below, plainField k below ∈ ss ∧ Selects below p

/-- The paths of the page information. -/
def pageInfoPaths : List (List String) :=
  [["edges", "cursor"], ["edges", "node", typenameField], ["pageInfo", "hasPreviousPage"],
    ["pageInfo", "hasNextPage"], ["pageInfo", "startCursor"], ["pageInfo", "endCursor"]]

/-- All of the page information is selected. -/
def SelectsPageInfo (ss : List Selection) : Prop := ∀ p ∈ pageInfoPaths, Selects ss p

theorem Selects.mono {ss rest : List Selection} (hss : ∀ s ∈ ss, s ∈ rest) :
    ∀ {p : List String}, Selects ss p → Selects rest p
  | [], _ => by rw [Selects]; trivial
  | k :: p, h => by
    obtain ⟨below, hmem, hp⟩ := h
    exact ⟨below, hss _ hmem, hp⟩

/-- A pass that keeps fields without labels, arguments and directives, and what is selected below
them, keeps the paths. -/
theorem Selects.map {F : List Ancestor → List Selection → List Selection}
    (hF : ∀ ancestors k below ss, plainField k below ∈ ss → ∃ ancestors' rest,
      plainField k (F ancestors' below ++ rest) ∈ F ancestors ss) :
    ∀ {p : List String} {ss : List Selection} (ancestors : List Ancestor),
      Selects ss p → Selects (F ancestors ss) p
  | [], _, _, _ => by rw [Selects]; trivial
  | k :: p, ss, ancestors, h => by
    obtain ⟨below, hmem, hp⟩ := h
    obtain ⟨ancestors', rest, hfield⟩ := hF ancestors k below ss hmem
    exact ⟨_, hfield, (hp.map hF ancestors').mono fun _ => List.mem_append_left _⟩

theorem selectsPageInfo_pageInfo (ss : List Selection) : SelectsPageInfo (ss ++ pageInfo) := by
  intro p hp
  refine Selects.mono (fun _ => List.mem_append_right ss) ?_
  simp only [pageInfoPaths, List.mem_cons, List.not_mem_nil, or_false] at hp
  rcases hp with rfl | rfl | rfl | rfl | rfl | rfl <;> simp [Selects, pageInfo, plainField]

theorem SelectsPageInfo.append {ss : List Selection} (h : SelectsPageInfo ss)
    (rest : List Selection) : SelectsPageInfo (ss ++ rest) := fun p hp =>
  (h p hp).mono fun _ => List.mem_append_left rest

theorem SelectsPageInfo.map {F : List Ancestor → List Selection → List Selection}
    (hF : ∀ ancestors k below ss, plainField k below ∈ ss → ∃ ancestors' rest,
      plainField k (F ancestors' below ++ rest) ∈ F ancestors ss)
    {ss : List Selection} (h : SelectsPageInfo ss) (ancestors : List Ancestor) :
    SelectsPageInfo (F ancestors ss) := fun p hp => (h p hp).map hF ancestors

/-! ## 2. Passes before an artifact is compiled -/

theorem injectTypenames_eq_map (s : Schema) (ancestors : List Ancestor) (ss : List Selection) :
    injectTypenames s ancestors ss = ss.map (injectTypename s ancestors) := by
  induction ss with
  | nil => rfl
  | cons first ss ih => rw [injectTypenames, ih, List.map_cons]

/-- The names of types come behind what is selected. -/
theorem SelectsPageInfo.injectTypenames {ss : List Selection} (h : SelectsPageInfo ss) (s : Schema)
    (ancestors : List Ancestor) : SelectsPageInfo (injectTypenames s ancestors ss) := by
  refine h.map (fun ancestors k below ss hmem => ?_) ancestors
  rw [injectTypenames_eq_map]
  exact ⟨_, _, List.mem_map.mpr ⟨_, hmem, rfl⟩⟩

theorem trimAll_eq_map (ss : List Selection) : trimAll ss = ss.map (·.trimmed) := by
  induction ss with
  | nil => rfl
  | cons first ss ih => rw [trimAll, ih, List.map_cons]

theorem Selects.trimAll : ∀ {p : List String} {ss : List Selection},
    typenameField ∉ p.dropLast → Selects ss p → Selects (trimAll ss) p
  | [], _, _, _ => by rw [Selects]; trivial
  | [k], ss, _, h => by
    obtain ⟨below, hmem, -⟩ := h
    rw [trimAll_eq_map]
    exact ⟨_, List.mem_map.mpr ⟨_, hmem, rfl⟩, by rw [Selects]; trivial⟩
  | k :: k' :: p, ss, hp, h => by
    rw [List.dropLast_cons_cons, List.mem_cons, not_or] at hp
    obtain ⟨below, hmem, hbelow⟩ := h
    have htrimmed : (plainField k below).trimmed = plainField k (QueryCompiler.trimAll below) := by
      rw [plainField, Selection.trimmed, if_neg (Ne.symm hp.1)]
      rfl
    rw [trimAll_eq_map]
    exact ⟨_, List.mem_map.mpr ⟨_, hmem, htrimmed⟩, hbelow.trimAll hp.2⟩

/-- Nothing of the page information stands below the name of a type. -/
theorem SelectsPageInfo.trimAll {ss : List Selection} (h : SelectsPageInfo ss) :
    SelectsPageInfo (trimAll ss) := by
  have hpaths : ∀ p ∈ pageInfoPaths, typenameField ∉ p.dropLast := by decide
  exact fun p hp => (h p hp).trimAll (hpaths p hp)

/-! ## 3. Places and entries -/

section Places

variable {fragment? : String → Option Fragment} {site : Site}

theorem Expands.of_mem_field {head : FieldHead} {below ss : List Selection} {os : List Occurrence}
    (h : Expands fragment? site ss os) (hmem : .field head below ∈ ss) :
    ∃ inner, Expands fragment? (site.under (.field head)) below inner ∧
      ({ path := [head.responseKey], site, field := head, selections := below } : Occurrence) ∈ os ∧
      ∀ o ∈ inner, o.beneath head.responseKey ∈ os := by
  induction h with
  | nil => exact absurd hmem List.not_mem_nil
  | @field site first selections rest inner others hb hrest _ ih =>
    rcases List.mem_cons.mp hmem with heq | hmem
    · obtain ⟨rfl, rfl⟩ := Selection.field.inj heq
      refine ⟨inner, hb, List.mem_append_left _ List.mem_cons_self, fun o ho => ?_⟩
      exact List.mem_append_left _ (List.mem_cons_of_mem _ (List.mem_map.mpr ⟨o, ho, rfl⟩))
    · obtain ⟨inner, hinner, hplace, hbelow⟩ := ih hmem
      exact ⟨inner, hinner, List.mem_append_right _ hplace,
        fun o ho => List.mem_append_right _ (hbelow o ho)⟩
  | inline _ _ _ ih | spread _ _ _ _ ih =>
    rcases List.mem_cons.mp hmem with heq | hmem
    · exact absurd heq nofun
    · obtain ⟨inner, hinner, hplace, hbelow⟩ := ih hmem
      exact ⟨inner, hinner, List.mem_append_right _ hplace,
        fun o ho => List.mem_append_right _ (hbelow o ho)⟩

/-- A path that is selected leads to a place. -/
theorem Expands.exists_of_path : ∀ {p : List String} {site : Site} {ss : List Selection}
    {os : List Occurrence}, Expands fragment? site ss os → Selects ss p → p ≠ [] →
      ∃ o ∈ os, o.path = p
  | [], _, _, _, _, _, hne => absurd rfl hne
  | [k], _, _, _, h, hp, _ => by
    obtain ⟨below, hmem, -⟩ := hp
    obtain ⟨-, -, hplace, -⟩ := h.of_mem_field hmem
    exact ⟨_, hplace, rfl⟩
  | k :: k' :: p, _, _, _, h, hp, _ => by
    obtain ⟨below, hmem, hbelow⟩ := hp
    obtain ⟨inner, hinner, -, hplaces⟩ := h.of_mem_field hmem
    obtain ⟨o, ho, hpath⟩ := hinner.exists_of_path hbelow (List.cons_ne_nil k' p)
    exact ⟨_, hplaces o ho, congrArg (k :: ·) hpath⟩

/-- What leads to a place from the selections of a place leads to one further down. -/
theorem Expands.exists_below {Q : List Selection → Prop} {p : List String}
    (hQ : ∀ {site : Site} {ss : List Selection} {os : List Occurrence},
      Expands fragment? site ss os → Q ss → ∃ o ∈ os, o.path = p)
    {ss : List Selection} {os : List Occurrence} (h : Expands fragment? site ss os) :
    ∀ o ∈ os, Q o.selections → ∃ o' ∈ os, o'.path = o.path ++ p := by
  induction h with
  | nil => exact fun _ ho => absurd ho List.not_mem_nil
  | @field site head selections rest inner others hb hrest ihb ih =>
    intro o ho hs
    rcases List.mem_append.mp ho with ho | ho
    · have hbelow : ∀ o' ∈ inner, o'.beneath head.responseKey ∈
          { path := [head.responseKey], site, field := head, selections }
            :: inner.map (·.beneath head.responseKey) ++ others := fun o' ho' =>
        List.mem_append_left _ (List.mem_cons_of_mem _ (List.mem_map.mpr ⟨o', ho', rfl⟩))
      rcases List.mem_cons.mp ho with rfl | ho
      · obtain ⟨o', ho', hpath⟩ := hQ hb hs
        exact ⟨_, hbelow o' ho', congrArg (head.responseKey :: ·) hpath⟩
      · obtain ⟨below, hmem, rfl⟩ := List.mem_map.mp ho
        obtain ⟨o', ho', hpath⟩ := ihb below hmem hs
        exact ⟨_, hbelow o' ho', congrArg (head.responseKey :: ·) hpath⟩
    · obtain ⟨o', ho', hpath⟩ := ih o ho hs
      exact ⟨o', List.mem_append_right _ ho', hpath⟩
  | inline _ _ ihb ih | spread _ _ _ ihb ih =>
    intro o ho hs
    rcases List.mem_append.mp ho with ho | ho
    · obtain ⟨o', ho', hpath⟩ := ihb o ho hs
      exact ⟨o', List.mem_append_left _ ho', hpath⟩
    · obtain ⟨o', ho', hpath⟩ := ih o ho hs
      exact ⟨o', List.mem_append_right _ ho', hpath⟩

/-- **What a place selects is a place of its own**, further down. -/
theorem Expands.exists_of_selects {ss : List Selection} {os : List Occurrence}
    (h : Expands fragment? site ss os) {p : List String} (hp : p ≠ []) :
    ∀ o ∈ os, Selects o.selections p → ∃ o' ∈ os, o'.path = o.path ++ p :=
  h.exists_below (Q := (Selects · p)) fun hb hs => hb.exists_of_path hs hp

end Places

/-- The page information is among the fields of an entry. -/
def Entry.HasPageInfo (e : Entry String EntryHead) : Prop :=
  ∀ p ∈ pageInfoPaths, ∃ fields below, e.fields = some fields ∧ Entry.at? fields p = some below

/-- Every place has an entry. -/
theorem Shows.exists_at? {t : SelectionTree} {rows : List Row} (h : Shows t rows) {o : Occurrence}
    (ho : o ∈ places rows) : ∃ e, Entry.at? t o.path = some e := by
  obtain ⟨row, hrow, rfl⟩ := List.mem_map.mp ho
  have hne : Entry.headAt? t row.1.path ≠ none := h.heads _ ▸ headOf_ne_none hrow rfl
  cases he : Entry.at? t row.1.path with
  | none => exact absurd (by rw [Entry.headAt?, he, Option.map_none]) hne
  | some e => exact ⟨e, rfl⟩

/-- Where a place lies below another, so does its entry. -/
theorem Shows.exists_below {t : SelectionTree} {rows : List Row} (h : Shows t rows)
    {o : Occurrence} (ho : o ∈ places rows) {q p : List String} (hpath : o.path = q ++ p)
    (hne : p ≠ []) {e : Entry String EntryHead} (he : Entry.at? t q = some e) :
    ∃ fields below, e.fields = some fields ∧ Entry.at? fields p = some below := by
  obtain ⟨below, hbelow⟩ := h.exists_at? ho
  rw [hpath, Entry.at?_append he hne, Option.bind_eq_some_iff] at hbelow
  obtain ⟨fields, hfields, hbelow⟩ := hbelow
  exact ⟨fields, below, hfields, hbelow⟩

/-- **The entry of a place that selects the page information has it.** -/
theorem Shows.hasPageInfo {fragment? : String → Option Fragment} {site : Site}
    {ss : List Selection} {rows : List Row} {t : SelectionTree} (h : Shows t rows)
    (hrows : Expands fragment? site ss (places rows)) {o : Occurrence} (ho : o ∈ places rows)
    (hs : SelectsPageInfo o.selections) {e : Entry String EntryHead}
    (he : Entry.at? t o.path = some e) : e.HasPageInfo := by
  intro p hp
  have hne : p ≠ [] := by
    rintro rfl
    exact absurd hp (by decide)
  obtain ⟨o', ho', hpath⟩ := hrows.exists_of_selects hne o ho (hs p hp)
  exact h.exists_below ho' hpath hne he

end QueryCompiler
