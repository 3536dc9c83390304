import QueryCompiler.Proofs.Artifact.Sent
/-
# Which entries are masked

An entry is masked when its field is only reached through fragments.  The compiler finds this out
while it goes: every place says whether a spread leads to it, and merging keeps the best answer.
Read off the text it is a question of the definition alone: whether its own selections reach the
path through fields and inline fragments (`directPathsOf`).

* `ArtifactContext.masked_eq_false_iff`: the two answers agree at every entry.
-/
namespace QueryCompiler

/-! ## 1. Paths without spreads -/

mutual

/-- The paths that a selection reaches through fields and inline fragments. -/
def directPaths : Selection → List (List String)
  | .field head selections =>
    [head.responseKey] :: (directPathsOf selections).map (head.responseKey :: ·)
  | .spread _ _ => []
  | .inline _ _ selections => directPathsOf selections

def directPathsOf : List Selection → List (List String)
  | [] => []
  | s :: selections => directPaths s ++ directPathsOf selections

end

/-- Within a fragment, a spread leads to every place. -/
theorem Expands.isSpread_of_fragment {fragment? : String → Option Fragment} {site : Site}
    {ss : List Selection} {os : List Occurrence} (h : Expands fragment? site ss os)
    (hs : site.fragment.isSome = true) : ∀ o ∈ os, o.isSpread = true := by
  induction h with
  | nil => exact fun _ ho => absurd ho List.not_mem_nil
  | field _ _ ihb ih =>
    intro o ho
    rcases List.mem_append.mp ho with ho | ho
    · rcases List.mem_cons.mp ho with rfl | ho
      · exact hs
      · obtain ⟨o, ho', rfl⟩ := List.mem_map.mp ho
        exact ihb hs o ho'
    · exact ih hs o ho
  | inline _ _ ihb ih =>
    intro o ho
    exact (List.mem_append.mp ho).elim (ihb hs o) (ih hs o)
  | spread _ _ _ ihb ih =>
    intro o ho
    exact (List.mem_append.mp ho).elim (ihb rfl o) (ih hs o)

/-- **Outside of fragments, the paths without spreads are those of the places that no spread
leads to.** -/
theorem Expands.mem_directPathsOf {fragment? : String → Option Fragment} {site : Site}
    {ss : List Selection} {os : List Occurrence} (h : Expands fragment? site ss os)
    (hs : site.fragment = none) : ∀ p : List String,
    p ∈ directPathsOf ss ↔ ∃ o ∈ os, o.path = p ∧ o.isSpread = false := by
  induction h with
  | nil =>
    intro p
    exact ⟨fun hp => absurd hp List.not_mem_nil,
      fun ⟨o, ho, _⟩ => absurd ho List.not_mem_nil⟩
  | @field site head selections _ inner _ _ _ ihb ih =>
    intro p
    have hhead : ({ path := [head.responseKey], site, field := head, selections }
        : Occurrence).isSpread = false := by rw [Occurrence.isSpread, hs]; rfl
    rw [directPathsOf, directPaths, List.mem_append, List.mem_cons, ih hs]
    constructor
    · rintro ((rfl | hp) | ⟨o, ho, hpath, hspread⟩)
      · exact ⟨_, List.mem_append_left _ List.mem_cons_self, rfl, hhead⟩
      · obtain ⟨q, hq, rfl⟩ := List.mem_map.mp hp
        obtain ⟨o, ho, rfl, hspread⟩ := (ihb hs q).mp hq
        exact ⟨o.beneath head.responseKey,
          List.mem_append_left _ (List.mem_cons_of_mem _ (List.mem_map.mpr ⟨o, ho, rfl⟩)),
          rfl, hspread⟩
      · exact ⟨o, List.mem_append_right _ ho, hpath, hspread⟩
    · rintro ⟨o, ho, rfl, hspread⟩
      rcases List.mem_append.mp ho with ho | ho
      · refine .inl ?_
        rcases List.mem_cons.mp ho with rfl | ho
        · exact .inl rfl
        · obtain ⟨o, ho', rfl⟩ := List.mem_map.mp ho
          exact .inr (List.mem_map.mpr ⟨o.path, (ihb hs o.path).mpr ⟨o, ho', rfl, hspread⟩, rfl⟩)
      · exact .inr ⟨o, ho, rfl, hspread⟩
  | inline _ _ ihb ih =>
    intro p
    rw [directPathsOf, directPaths, List.mem_append, ihb hs, ih hs]
    simp only [List.mem_append, or_and_right, exists_or]
  | @spread _ _ _ _ _ inner _ _ hb _ _ ih =>
    intro p
    have hinner : ¬ ∃ o ∈ inner, o.path = p ∧ o.isSpread = false := by
      rintro ⟨o, ho, -, hspread⟩
      exact absurd (hb.isSpread_of_fragment rfl o ho) (by rw [hspread]; exact nofun)
    rw [directPathsOf, directPaths, List.nil_append, ih hs]
    simp only [List.mem_append, or_and_right, exists_or, hinner, false_or]

/-! ## 2. What a place says -/

theorem EntryHead.masked_withList {c : Config} {field : FieldHead} {h h' : EntryHead}
    (hw : h.withList c field = .ok h') : h'.masked = h.masked := by
  rw [withList] at hw
  cases hn : namedList? c field.directives with
  | none =>
    rw [hn, Except.ok.injEq] at hw
    rw [hw]
  | some list =>
    rw [hn] at hw
    simp only [bind_eq_ok, pure_eq_ok] at hw
    obtain ⟨connection, -, filters, -, rfl⟩ := hw
    rfl

/-- A place masks its entry exactly if a spread leads to it. -/
theorem Compilation.HeadOf.masked {x : Compilation} {o : Occurrence} {h : EntryHead}
    (hh : x.HeadOf o h) : h.masked = o.isSpread := by
  rw [HeadOf] at hh
  split at hh
  · rw [hh]
    rfl
  · obtain ⟨f, key, -, -, hh⟩ := hh
    simp only [entryHead, bind_eq_ok] at hh
    obtain ⟨listed, hlisted, hh⟩ := hh
    have hmasked : listed.masked = o.isSpread := EntryHead.masked_withList hlisted
    split at hh
    · simp only [bind_eq_ok, pure_eq_ok] at hh
      obtain ⟨operations, -, rfl⟩ := hh
      exact hmasked
    · rw [pure_eq_ok] at hh
      exact hh ▸ hmasked

/-- An entry is not masked if one of its places is not. -/
theorem Shows.masked_iff {x : Compilation} {fragment? : String → Option Fragment}
    {site : Site} {ss : List Selection} {rows : List Row} {t : SelectionTree}
    (hrows : x.Rows fragment? site ss rows) (ht : Shows t rows) {p : List String}
    {e : Entry String EntryHead} (he : Entry.at? t p = some e) :
    e.head.masked = false ↔ ∃ o ∈ places rows, o.path = p ∧ o.isSpread = false := by
  have hmerge : ∀ a b : EntryHead,
      (a.merge b).masked = false ↔ a.masked = false ∨ b.masked = false :=
    fun a b => Bool.and_eq_false_iff
  have hplace : ∀ row ∈ rows, row.2.masked = false ↔ row.1.isSpread = false :=
    fun row hrow => by rw [(hrows.heads row hrow).masked]
  exact ht.head_iff (·.masked = false) (·.isSpread = false) hmerge hplace he

/-! ## 3. Artifacts -/

/-- **An entry is masked unless the definition reaches it without a spread.**  Here the definition
is the one that is compiled, with the names of types in it; every path that it reaches has an
entry. -/
theorem ArtifactContext.masked_eq_false_iff {c : Config} {r : Registry}
    {documents : List Document} {d : Document} {a : Artifact}
    (hl : ∀ d' ∈ d :: documents, d'.typenamesAreLeaves = true)
    (h : (ofDocuments c r documents).compile d = .ok a) :
    ∃ main others, (ofDocuments c r documents).compiledDefinitions d = .ok (main, others) ∧
      (∀ p ∈ directPathsOf main.selections, ∃ e, Entry.at? a.selection p = some e) ∧
      ∀ p e, Entry.at? a.selection p = some e →
        (e.head.masked = false ↔ p ∈ directPathsOf main.selections) := by
  obtain ⟨main, others, rows, hdefs, -, hrows, hshows⟩ := compile_shows hl h
  refine ⟨main, others, hdefs, fun p hp => ?_, fun p e he => ?_⟩
  · obtain ⟨o, ho, hpath, -⟩ := (hrows.expands.mem_directPathsOf rfl p).mp hp
    obtain ⟨row, hrow, rfl⟩ := List.mem_map.mp ho
    have hne : Entry.headAt? a.selection p ≠ none := hshows.heads p ▸ headOf_ne_none hrow hpath
    cases he : Entry.at? a.selection p with
    | none => exact absurd (by rw [Entry.headAt?, he, Option.map_none]) hne
    | some e => exact ⟨e, rfl⟩
  · rw [hshows.masked_iff hrows he, hrows.expands.mem_directPathsOf rfl]

open Sample in
theorem hero_masked :
    (∀ d ∈ hero :: friends, d.typenamesAreLeaves = true) ∧
    ∃ a main others,
      (ArtifactContext.ofDocuments (config characters) [] friends).compile hero = .ok a ∧
      (ArtifactContext.ofDocuments (config characters) [] friends).compiledDefinitions hero
        = .ok (main, others) ∧
      (∀ p ∈ directPathsOf main.selections, ∃ e, Entry.at? a.selection p = some e) ∧
      ∀ p e, Entry.at? a.selection p = some e →
        (e.head.masked = false ↔ p ∈ directPathsOf main.selections) := by
  have hl : ∀ d ∈ hero :: friends, d.typenamesAreLeaves = true := by decide
  have hok : ((ArtifactContext.ofDocuments (config characters) [] friends).compile hero).isOk
      = true := by decide +kernel
  cases h : (ArtifactContext.ofDocuments (config characters) [] friends).compile hero with
  | error e => rw [h] at hok; exact absurd hok nofun
  | ok a =>
    obtain ⟨main, others, hmasked⟩ := ArtifactContext.masked_eq_false_iff hl h
    exact ⟨hl, a, main, others, rfl, hmasked⟩

end QueryCompiler
