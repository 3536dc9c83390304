import QueryCompiler.Proofs.Connection
import QueryCompiler.Proofs.Selection.Anywhere
import QueryCompiler.Proofs.Selection.Behind
/-
# Spreading a fragment again

A level that spreads a fragment may spread it once more.  The first occurrence of a key says most
about its entry, so the place of the new spread matters, and operations are counted, so a mutation
matters.

* `Compilation.compile_respread`: behind the others a spread changes nothing, up to operations of
  mutations; anywhere else it leaves the paths and the marks of their entries, and loses no
  operation.
-/
namespace QueryCompiler

/-! ## 1. What stays -/

/-- What all places with a path have a say in, wherever they come. -/
def EntryHead.marks (h : EntryHead) : Bool × Bool × Bool := (h.masked, h.abstract, h.connection)

/-- All operations of the first selection are operations of the second one, at the same paths. -/
def KeepsOperations (t t' : SelectionTree) : Prop :=
  ∀ p h, Entry.headAt? t p = some h →
    ∃ h', Entry.headAt? t' p = some h' ∧ h.operations ⊆ h'.operations

namespace SelectionTree

theorem hasAt_still {P : EntryHead → Prop} (hP : ∀ h, P h.still ↔ P h) {t : SelectionTree}
    {p : List String} : HasAt P (still t) p ↔ HasAt P t p := by
  simp only [HasAt, headAt?_still]
  cases Entry.headAt? t p with
  | none => simp
  | some h => simp [hP]

/-- Selections with the same paths, masks and other marks. -/
theorem marks_eq {t t' : SelectionTree} {p : List String}
    (hpath : HasAt (fun _ => True) t p ↔ HasAt (fun _ => True) t' p)
    (hopen : HasAt (·.masked = false) t p ↔ HasAt (·.masked = false) t' p)
    (habstract : HasAt (·.abstract = true) t p ↔ HasAt (·.abstract = true) t' p)
    (hconnection : HasAt (·.connection = true) t p ↔ HasAt (·.connection = true) t' p) :
    (Entry.headAt? t' p).map EntryHead.marks = (Entry.headAt? t p).map EntryHead.marks := by
  simp only [HasAt] at hpath hopen habstract hconnection
  cases ht : Entry.headAt? t p with
  | none =>
    cases ht' : Entry.headAt? t' p with
    | none => rfl
    | some h' => simp [ht, ht'] at hpath
  | some h =>
    cases ht' : Entry.headAt? t' p with
    | none => simp [ht, ht'] at hpath
    | some h' =>
      simp only [ht, ht', Option.some.injEq, exists_eq_left'] at hopen habstract hconnection
      have hmasked : h.masked = h'.masked := by
        rw [← Bool.not_inj_iff, Bool.eq_iff_iff, Bool.not_eq_true', Bool.not_eq_true', hopen]
      rw [Option.map_some, Option.map_some, EntryHead.marks, EntryHead.marks, hmasked,
        Bool.eq_iff_iff.mpr habstract, Bool.eq_iff_iff.mpr hconnection]

end SelectionTree

namespace Compilation

variable {x : Compilation} {fragments' : Table String Fragment} {may : String → Prop}
  {ss ss' : List Selection} {type : NamedType} {t t' : SelectionTree}

/-- In a mutation the fragments may ask for something; without operations nothing changes. -/
theorem compile_behind_still (hnamed : x.ListsAreNamed ss)
    (h : x.Respreads unseen may ss fragments' ss') (ht : x.compile type ss = .ok t)
    (ht' : (x.withFragments fragments').compile type ss' = .ok t') :
    SelectionTree.still t' = SelectionTree.still t := by
  have hnone := asksNothing_of_kind (x := x.still) hnamed.fragments nofun
  have hsame := compile_behind (x := x.still) hnamed.fragments (fun name _ => hnone name)
    hnamed.own ⟨h.fragments, h.selections⟩ type
  exact Except.ok.inj ((compile_still ht').symm.trans (hsame.trans (compile_still ht)))

/-- What operations have no say in is found at the same paths. -/
theorem hasAt_respread {P : EntryHead → Prop} (hP : ∀ a b, P (a.merge b) ↔ P a ∨ P b)
    (hstill : ∀ h, P h.still ↔ P h) (hnamed : x.ListsAreNamed ss)
    (h : x.Respreads (SpreadsOnLevel (Table.get? x.fragments)) may ss fragments' ss')
    (ht : x.compile type ss = .ok t) (ht' : (x.withFragments fragments').compile type ss' = .ok t')
    (p : List String) : SelectionTree.HasAt P t p ↔ SelectionTree.HasAt P t' p := by
  constructor
  · refine compile_keeps hnamed.fragments hP (fun a b hab _ ha => ?_) hnamed.own h ht ht' p
    rwa [← hstill, hab, hstill]
  · have hnone := asksNothing_of_kind (x := x.still) hnamed.fragments nofun
    obtain ⟨t'', ht'', hfound⟩ := compile_anywhere (x := x.still) hnamed.fragments hP
      (fun name _ => hnone name) hnamed.own ⟨h.fragments, h.selections⟩ (compile_still ht)
    obtain rfl : SelectionTree.still t' = t'' := Except.ok.inj ((compile_still ht').symm.trans ht'')
    intro hp
    rw [← SelectionTree.hasAt_still hstill] at hp ⊢
    exact hfound p hp

theorem keepsOperations {start : List Selection → String → Prop} (hnamed : x.ListsAreNamed ss)
    (h : x.Respreads start may ss fragments' ss') (ht : x.compile type ss = .ok t)
    (ht' : (x.withFragments fragments').compile type ss' = .ok t') : KeepsOperations t t' := by
  intro p head hp
  have hkeeps {P : EntryHead → Prop} (hP : ∀ a b, P (a.merge b) ↔ P a ∨ P b)
      (hgrows : GrowsWith P) (hhead : P head) : SelectionTree.HasAt P t' p :=
    compile_keeps hnamed.fragments hP hgrows hnamed.own h ht ht' p ⟨head, hp, hhead⟩
  obtain ⟨head', hp', -⟩ := hkeeps (P := fun _ => True) (fun _ _ => by simp)
    (fun _ _ _ _ _ => trivial) trivial
  refine ⟨head', hp', fun o ho => ?_⟩
  obtain ⟨found, hfound, hmem⟩ := hkeeps (P := fun h => o ∈ h.operations)
    (fun _ _ => List.mem_append) (fun _ _ _ hsublist => (hsublist.subset ·)) ho
  obtain rfl := Option.some.inj (hp'.symm.trans hfound)
  exact hmem

/-- **Spreading a fragment again.**  If the new spreads come behind others of the same fragments on
their levels, a document compiles to the same as before; this takes, in a mutation, that the
fragments ask for no operations, and is otherwise so up to operations.  If they come anywhere on
their levels, the document compiles too, and has the same paths and marks.  In no case an operation
is lost. -/
theorem compile_respread (hnamed : x.ListsAreNamed ss) (type : NamedType) :
    (x.Respreads unseen may ss fragments' ss' →
      ((x.kind = .mutation → ∀ name, may name → x.AsksNothing name) →
        (x.withFragments fragments').compile type ss' = x.compile type ss) ∧
      ∀ t t', x.compile type ss = .ok t → (x.withFragments fragments').compile type ss' = .ok t' →
        SelectionTree.still t' = SelectionTree.still t ∧ KeepsOperations t t') ∧
    (x.Respreads (SpreadsOnLevel (Table.get? x.fragments)) may ss fragments' ss' →
      ∀ t, x.compile type ss = .ok t →
        ((x.kind = .mutation → ∀ name, may name → x.AsksNothing name) →
          ∃ t', (x.withFragments fragments').compile type ss' = .ok t') ∧
        ∀ t', (x.withFragments fragments').compile type ss' = .ok t' → KeepsOperations t t' ∧
          ∀ p, (Entry.headAt? t' p).map EntryHead.marks
            = (Entry.headAt? t p).map EntryHead.marks) := by
  have hnone (hmay : x.kind = .mutation → ∀ name, may name → x.AsksNothing name) (name : String)
      (hname : may name) : x.AsksNothing name := by
    by_cases hk : x.kind = .mutation
    · exact hmay hk name hname
    · exact asksNothing_of_kind hnamed.fragments hk name
  refine ⟨fun h => ⟨fun hmay => ?_, fun t t' ht ht' => ?_⟩, fun h t ht => ⟨fun hmay => ?_,
    fun t' ht' => ⟨keepsOperations hnamed h ht ht', fun p => ?_⟩⟩⟩
  · exact compile_behind hnamed.fragments (hnone hmay) hnamed.own h type
  · exact ⟨compile_behind_still hnamed h ht ht', keepsOperations hnamed h ht ht'⟩
  · obtain ⟨t', ht', -⟩ := compile_anywhere (P := fun _ => True) hnamed.fragments
      (fun _ _ => by simp) (hnone hmay) hnamed.own h ht
    exact ⟨t', ht'⟩
  · have hall {P : EntryHead → Prop} (hP : ∀ a b, P (a.merge b) ↔ P a ∨ P b)
        (hstill : ∀ h, P h.still ↔ P h) := hasAt_respread hP hstill hnamed h ht ht' p
    exact SelectionTree.marks_eq (hall (fun _ _ => by simp) fun _ => Iff.rfl)
      (hall (fun a b => Bool.and_eq_false_iff)
        fun _ => Iff.rfl)
      (hall (fun a b => Iff.of_eq (Bool.or_eq_true a.abstract b.abstract)) fun _ => Iff.rfl)
      (hall (fun a b => Iff.of_eq (Bool.or_eq_true a.connection b.connection)) fun _ => Iff.rfl)

end Compilation

/-! ## 2. Fragments that are spread again -/

namespace Sample

def onCharacter (name : String) (selections : List Selection) : Fragment :=
  { description := none, name, condition := "Character", directives := [], selections }

/-- The name of a character, and what is asked of a character for its friend. -/
def characterFragments (friends : List Selection) : Table String Fragment :=
  [("Friends", onCharacter "Friends" (plainField "friend" [.spread "Names" []] :: friends)),
    ("Names", onCharacter "Names" [plainField "name" []])]

/-- A query for characters. -/
def characterQuery (friends : List Selection) : Compilation :=
  { config := config characters, registry := [], fragments := characterFragments friends,
    kind := .query }

def characterRoot : NamedType := .object "Query" [] [⟨"hero", some [], .named "Character"⟩]

end Sample

open Sample in
/-- Two fragments share a third one, which is spread once more behind each of them. -/
theorem characterQuery_respread :
    (characterQuery [.spread "Names" []]).ListsAreNamed
        [plainField "hero" [.spread "Friends" []]] ∧
      (characterQuery [.spread "Names" []]).Respreads unseen (fun name => name = "Names")
        [plainField "hero" [.spread "Friends" []]]
        (characterFragments [.spread "Names" [], .spread "Names" []])
        [plainField "hero" [.spread "Friends" [], .spread "Names" []]] ∧
      (characterQuery [.spread "Names" [], .spread "Names" []]).compile characterRoot
          [plainField "hero" [.spread "Friends" [], .spread "Names" []]]
        = (characterQuery [.spread "Names" []]).compile characterRoot
          [plainField "hero" [.spread "Friends" []]] := by
  have hnamed : (characterQuery [.spread "Names" []]).ListsAreNamed
      [plainField "hero" [.spread "Friends" []]] := by
    have hplain : namedList? (config characters) [] = none := rfl
    refine ⟨by simp [plainField, EveryIn, Selection.Every, ListIsNamed, characterQuery, hplain],
      fun name f hf => ?_⟩
    rcases List.mem_cons.mp (Table.mem_of_get? hf) with h | h
    · obtain ⟨rfl, rfl⟩ := Prod.mk.inj h
      simp [onCharacter, plainField, EveryIn, Selection.Every, ListIsNamed, characterQuery, hplain]
    · obtain ⟨rfl, rfl⟩ := Prod.mk.inj (List.mem_singleton.mp h)
      simp [onCharacter, plainField, EveryIn, Selection.Every, ListIsNamed, characterQuery, hplain]
  have hrespreads : (characterQuery [.spread "Names" []]).Respreads unseen
      (fun name => name = "Names") [plainField "hero" [.spread "Friends" []]]
      (characterFragments [.spread "Names" [], .spread "Names" []])
      [plainField "hero" [.spread "Friends" [], .spread "Names" []]] := by
    refine ⟨.cons ⟨rfl, _, rfl, ?_⟩ (.cons ⟨rfl, _, rfl, .field .nil .nil⟩ .nil), ?_⟩
    · exact .field (.spread .nil) (.spread (.again (.inr .spread) rfl .nil))
    · exact .field (.spread (.again (.inr (.within rfl (.later .spread))) rfl .nil)) .nil
  exact ⟨hnamed, hrespreads,
    ((Compilation.compile_respread hnamed characterRoot).1 hrespreads).1
      fun hk => absurd hk (by decide)⟩

namespace Sample

/-- Users, each of whom has a friend. -/
def friendship : Schema :=
  { types := [.scalar "String", .scalar "ID",
      .object "User" [] [⟨"id", some [], .named "ID"⟩, ⟨"friend", some [], .named "User"⟩],
      .object "Mutation" [] [⟨"addUser", some [], .named "User"⟩],
      .object "Query" [] [⟨"users", some [], .list (.named "User")⟩]]
    query := some "Query", mutation := some "Mutation", subscription := none }

/-- A mutation of users, which toggles the friend of a user in the list. -/
def befriending (ss : List Selection) : List Document :=
  [operation .query "Users" [listField "users" "Users" [plainField "id" []]],
    fragment "Befriend" "User" [plainField "friend" [.spread "Users_toggle" []]],
    operation .mutation "AddUser" [plainField "addUser" ss]]

/-- A query of users, who are also a list in a fragment. -/
def listing (ss : List Selection) : List Document :=
  [fragment "Listed" "Query" [listField "users" "Listed" [plainField "id" []]],
    operation .query "Users" ss]

/-- The head of an entry of an artifact, if some documents are compiled. -/
def headIn? (documents : List Document) (name : String) (path : List String) :
    Option EntryHead := do
  let artifacts ← (runPipeline (config friendship) documents).result.toOption
  let a ← artifacts.find? (·.name = name)
  Entry.headAt? a.selection path

end Sample

open Sample in
/-- Spread twice, a fragment toggles twice.  Spread in front as well, it decides which list the
users are. -/
theorem befriending_twice :
    ((headIn? (befriending [.spread "Befriend" []]) "AddUser" ["addUser", "friend"]).map
        (·.operations.length) = some 1 ∧
      (headIn? (befriending [.spread "Befriend" [], .spread "Befriend" []]) "AddUser"
        ["addUser", "friend"]).map (·.operations.length) = some 2) ∧
    (headIn? (listing [listField "users" "Users" [plainField "id" []], .spread "Listed" []])
        "Users" ["users"]).map (·.list) = some (some "Users") ∧
      (headIn? (listing [.spread "Listed" [], listField "users" "Users" [plainField "id" []],
        .spread "Listed" []]) "Users" ["users"]).map (·.list) = some (some "Listed") := by
  refine ⟨⟨?_, ?_⟩, ?_, ?_⟩ <;> decide +kernel

end QueryCompiler
