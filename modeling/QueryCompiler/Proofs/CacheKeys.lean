import Mathlib.Data.List.Nodup
import QueryCompiler.Proofs.Artifact.Places
import QueryCompiler.Proofs.Selection.Pieces
/-
# Under which key an entry is cached

An entry has one cache key, and every place of its path has one.  The key of the entry is that of
the first place.  It is the key of all places if these make the same call; on types that put
different fields under one response key they do not.

* `inOrder_perm`: sorted as they are declared, the same arguments come in one order;
* `ArtifactContext.compile_cacheKeys`: the key of every entry of an artifact.
-/
namespace QueryCompiler

/-! ## 1. Arguments in one order -/

/-- The same arguments, with each name once, are sorted in one way by orders that have all their
names and agree on them. -/
theorem inOrder_perm {order order' : List String} {arguments arguments' : List Argument}
    (hperm : arguments.Perm arguments') (hnodup : (arguments.map (·.name)).Nodup)
    (hall : ∀ a ∈ arguments, a.name ∈ order)
    (hsame : ∀ a ∈ arguments, ∀ b ∈ arguments,
      (order.idxOf a.name ≤ order.idxOf b.name ↔ order'.idxOf a.name ≤ order'.idxOf b.name)) :
    inOrder order arguments = inOrder order' arguments' := by
  have hsorted (order : List String) (arguments : List Argument) :
      (inOrder order arguments).Pairwise
        fun a b => order.idxOf a.name ≤ order.idxOf b.name := by
    refine (List.pairwise_mergeSort ?_ ?_ arguments).imp of_decide_eq_true
    · simp only [decide_eq_true_eq]
      omega
    · simp only [Bool.or_eq_true, decide_eq_true_eq]
      omega
  have hleft : (inOrder order arguments).Perm arguments := List.mergeSort_perm _ _
  have hright : (inOrder order' arguments').Perm arguments :=
    (List.mergeSort_perm _ _).trans hperm.symm
  refine List.Perm.eq_of_pairwise (fun a b ha hb hab hba => ?_) (hsorted order arguments)
    ((hsorted order' arguments').imp_of_mem fun ha hb => ?_) (hleft.trans hright.symm)
  · have ha := hleft.mem_iff.mp ha
    have hname : a.name = b.name :=
      (List.idxOf_inj (hall a ha)).mp (Nat.le_antisymm hab hba)
    exact List.inj_on_of_nodup_map hnodup ha (hright.mem_iff.mp hb) hname
  · exact (hsame _ (hright.mem_iff.mp ha) _ (hright.mem_iff.mp hb)).mpr

/-! ## 2. Places -/

namespace Occurrence

/-- The key under which the field of a place is cached. -/
def cacheKey (s : Schema) (o : Occurrence) : Except Error String :=
  if o.field.name = typenameField then .ok typenameField
  else do
    let f ← Compilation.definition (s.typeAt o.site.ancestors) o.field.name
    QueryCompiler.cacheKey o.field (some f)

/-- The names of the arguments of a place in the order in which they are declared there. -/
def declared (s : Schema) (o : Occurrence) : List String :=
  (((s.fieldAt o.site.ancestors o.field.name).bind (·.arguments)).map Table.keys).getD []

/-- Two places have the same arguments, each of them once, whatever the order in which they are
written.  All are declared, and in the same order at both places. -/
structure SameArguments (s : Schema) (o o' : Occurrence) : Prop where
  perm : o.field.arguments.Perm o'.field.arguments
  distinct : (o.field.arguments.map (·.name)).Nodup
  declared : ∀ a ∈ o.field.arguments, a.name ∈ o.declared s
  order : ∀ a ∈ o.field.arguments, ∀ b ∈ o.field.arguments,
    ((o.declared s).idxOf a.name ≤ (o.declared s).idxOf b.name ↔
      (o'.declared s).idxOf a.name ≤ (o'.declared s).idxOf b.name)

/-- Two places make the same call: the fields are called the same, and their arguments are the
same, if not as they are written and declared, then at least in another order. -/
structure SameCall (s : Schema) (o o' : Occurrence) : Prop where
  name : o'.field.name = o.field.name
  arguments : (o'.field.arguments = o.field.arguments ∧ o'.declared s = o.declared s) ∨
    o.SameArguments s o'

variable {s : Schema} {o o' : Occurrence}

/-- What the key of a field says. -/
theorem cacheKey_eq_ok {key : String} (hname : o.field.name ≠ typenameField)
    (h : o.cacheKey s = .ok key) :
    key = if o.field.arguments = [] then o.field.name
      else printedCall o.field.name (inOrder (o.declared s) o.field.arguments) := by
  rw [cacheKey, if_neg hname] at h
  simp only [bind_eq_ok] at h
  obtain ⟨f, hf, h⟩ := h
  have hfield : s.fieldAt o.site.ancestors o.field.name = some f :=
    Compilation.definition_eq_ok hf
  have hdeclared : o.declared s = (f.arguments.map Table.keys).getD [] := by
    rw [declared, hfield, Option.bind_some]
  unfold QueryCompiler.cacheKey at h
  cases harguments : o.field.arguments with
  | nil =>
    rw [harguments] at h
    exact (Except.ok.inj h).symm
  | cons a arguments =>
    rw [if_neg (List.cons_ne_nil _ _), hdeclared]
    rw [harguments] at h
    dsimp only at h
    cases hf' : f.arguments with
    | none => rw [hf'] at h; cases h
    | some declared =>
      rw [hf'] at h
      exact (Except.ok.inj h).symm

/-- **The same call has the same key.** -/
theorem SameCall.cacheKey_eq (h : SameCall s o o') {key key' : String}
    (hkey : o.cacheKey s = .ok key) (hkey' : o'.cacheKey s = .ok key') : key' = key := by
  by_cases hname : o.field.name = typenameField
  · rw [cacheKey, if_pos hname, Except.ok.injEq] at hkey
    rw [cacheKey, if_pos (h.name.trans hname), Except.ok.injEq] at hkey'
    rw [← hkey, ← hkey']
  · have hname' : o'.field.name ≠ typenameField := h.name ▸ hname
    rw [cacheKey_eq_ok hname hkey, cacheKey_eq_ok hname' hkey', h.name]
    rcases h.arguments with ⟨harguments, hdeclared⟩ | hsame
    · rw [harguments, hdeclared]
    · rw [inOrder_perm hsame.perm hsame.distinct hsame.declared hsame.order]
      refine if_congr ?_ rfl rfl
      exact ⟨fun hnil => (hnil ▸ hsame.perm).eq_nil, fun hnil => (hnil ▸ hsame.perm.symm).eq_nil⟩

end Occurrence

/-! ## 3. Artifacts -/

/-- A place gives its entry the key under which its field is cached. -/
theorem Compilation.HeadOf.cacheKey {x : Compilation} {o : Occurrence} {h : EntryHead}
    (hh : x.HeadOf o h) : o.cacheKey x.config.schema = .ok h.cacheKey := by
  rw [HeadOf] at hh
  rw [Occurrence.cacheKey]
  split at hh
  · rename_i hname
    rw [if_pos hname, hh]
    rfl
  · rename_i hname
    obtain ⟨f, key, hf, hkey, hh⟩ := hh
    rw [if_neg hname, (entryHead_type_cacheKey hh).2, hf]
    exact hkey

/-- **Under which key an entry is cached.**  It is the key of the first place of its path, and if
all places of the path make the same call, the key of each of them. -/
theorem ArtifactContext.compile_cacheKeys {x : ArtifactContext} {d : Document} {a : Artifact}
    (h : x.compile d = .ok a) :
    ∃ main others os, x.compiledDefinitions d = .ok (main, others) ∧
      Expands (Table.get? (x.compilation d main others).trimmed.fragments)
        { fragment := none, ancestors := [main.ancestor] } (trimAll main.selections) os ∧
      ∀ p e, Entry.at? a.selection p = some e →
        (∃ o, os.find? (fun o => o.path = p) = some o ∧
          o.cacheKey x.config.schema = .ok e.head.cacheKey) ∧
        ((∀ o ∈ os, ∀ o' ∈ os, o.path = p → o'.path = p → o.SameCall x.config.schema o') →
          ∀ o ∈ os, o.path = p → o.cacheKey x.config.schema = .ok e.head.cacheKey) := by
  obtain ⟨main, others, rows, hdefs, hrows, hshows⟩ := compile_shows_trimmed h
  have hkey : ∀ row ∈ rows, row.1.cacheKey x.config.schema = .ok row.2.cacheKey :=
    fun row hrow => (hrows.heads row hrow).cacheKey
  refine ⟨main, others, places rows, hdefs, hrows.expands, fun p e he => ?_⟩
  obtain ⟨first, hmem, hpath, hfirst, hmerged⟩ := headOf_first (hshows.headOf_at he)
  have hcached : first.2.cacheKey = e.head.cacheKey := by
    rcases hmerged with hmerged | ⟨rest, hmerged⟩
    · rw [hmerged]
    · rw [hmerged]
      rfl
  refine ⟨⟨first.1, hfirst, hcached ▸ hkey first hmem⟩, fun hsame o ho ho' => ?_⟩
  obtain ⟨row, hrow, rfl⟩ := List.mem_map.mp ho
  have hplaces := hsame first.1 (List.mem_map.mpr ⟨first, hmem, rfl⟩) row.1 ho hpath ho'
  rw [hkey row hrow, hplaces.cacheKey_eq (hkey first hmem) (hkey row hrow), hcached]

/-! ## 4. One key on two types -/

namespace Sample

/-- Dogs have nicknames, and cats have names only. -/
def pets : Schema :=
  { types := [.scalar "String",
      .object "Dog" [] [⟨"name", some [], .named "String"⟩, ⟨"nick", some [], .named "String"⟩],
      .object "Cat" [] [⟨"name", some [], .named "String"⟩],
      .union "Pet" ["Dog", "Cat"],
      .object "Query" [] [⟨"pets", some [], .list (.named "Pet")⟩]]
    query := some "Query", mutation := none, subscription := none }

/-- A field under another key. -/
def labelled (key name : String) : Selection :=
  .field { label := some key, name, arguments := [], directives := [] } []

/-- What is asked of pets to label them. -/
def petLabels : List Selection :=
  [.inline (some "Dog") [] [labelled "label" "nick"],
    .inline (some "Cat") [] [labelled "label" "name"]]

def labels : Document := operation .query "Labels" [plainField "pets" petLabels]

/-- What the artifact of this query is compiled with. -/
def labelling : ArtifactContext := .ofDocuments (config pets) [] [labels]

/-- What is compiled: a pet may be of any of two types, so its type is asked for. -/
def labelsWithTypename : Executable :=
  .operation { description := none, kind := .query, name := some "Labels", declarations := [],
               directives := [],
               selections := [plainField "pets" (petLabels ++ [plainField typenameField []])] }

end Sample

open Sample in
theorem labels_cacheKeys :
    ∃ a, labelling.compile labels = .ok a ∧
      ∃ main others os, labelling.compiledDefinitions labels = .ok (main, others) ∧
        Expands (Table.get? (labelling.compilation labels main others).trimmed.fragments)
          { fragment := none, ancestors := [main.ancestor] } (trimAll main.selections) os ∧
        ∀ p e, Entry.at? a.selection p = some e →
          (∃ o, os.find? (fun o => o.path = p) = some o ∧
            o.cacheKey pets = .ok e.head.cacheKey) ∧
          ((∀ o ∈ os, ∀ o' ∈ os, o.path = p → o'.path = p → o.SameCall pets o') →
            ∀ o ∈ os, o.path = p → o.cacheKey pets = .ok e.head.cacheKey) := by
  have hok : (labelling.compile labels).isOk = true := by decide +kernel
  cases h : labelling.compile labels with
  | error e => rw [h] at hok; exact absurd hok nofun
  | ok a => exact ⟨a, rfl, ArtifactContext.compile_cacheKeys h⟩

open Sample in
/-- Dogs and cats are labelled by different fields.  No type has two fields under one key, but the
entry has the key of one of them only. -/
theorem labels_of_dogs :
    ∃ a, labelling.compile labels = .ok a ∧
      ∃ main others os, labelling.compiledDefinitions labels = .ok (main, others) ∧
        Expands (Table.get? (labelling.compilation labels main others).trimmed.fragments)
          { fragment := none, ancestors := [main.ancestor] } (trimAll main.selections) os ∧
        (os.map fun o => (o.path, (pets.typeAt o.site.ancestors).map (·.name), o.field.name))
          = [(["pets"], some "Query", "pets"), (["pets", "label"], some "Dog", "nick"),
            (["pets", "label"], some "Cat", "name"),
            (["pets", "__typename"], some "Pet", "__typename")] ∧
        ∃ e, Entry.at? a.selection ["pets", "label"] = some e ∧ e.head.cacheKey = "nick" ∧
          ∃ o ∈ os, o.path = ["pets", "label"] ∧ o.cacheKey pets = .ok "name" := by
  have hentry : (labelling.compile labels).toOption.any (fun a =>
      (Entry.at? a.selection ["pets", "label"]).any (·.head.cacheKey = "nick")) = true := by
    decide +kernel
  cases h : labelling.compile labels with
  | error e => rw [h] at hentry; exact absurd hentry nofun
  | ok a =>
    rw [h, Except.toOption, Option.any_some, Option.any_eq_true] at hentry
    obtain ⟨e, he, hkey⟩ := hentry
    refine ⟨a, rfl, labelsWithTypename, [], _, rfl,
      .field (.inline (.field .nil .nil) (.inline (.field .nil .nil) (.field .nil .nil))) .nil,
      ?_, e, he, by simpa using hkey, ?_⟩
    · rfl
    · exact ⟨_, List.mem_cons_of_mem _ (List.mem_cons_of_mem _ List.mem_cons_self), rfl, rfl⟩

end QueryCompiler
