import QueryCompiler.Selection.Compile
import QueryCompiler.Proofs.Lists.Tagging
import QueryCompiler.Proofs.Selection.Directives
/-
# Marks and the registry

Whether a list is a connection is said twice: by the mark on the directive of its field, and by the
registry.  In what the list pass leaves a directive has got a mark exactly if the registry has a
connection of that name and the type of the field is known (`everyIn_verdict`).  What the pass has
not gone through has no marks but its own (`FieldHead.MarksIn.markedBy`), and a mark of its own
counts before the one of the pass (`marksConnection_mark`).
-/
namespace QueryCompiler

variable {c : Config} {P : Argument → Prop} {r : Registry}

/-! ## 1. Lists of fields -/

theorem listName?_of_namedList? {ds : List Directive} {name : String} {d : Directive}
    (h : namedList? c ds = some (name, d)) : d ∈ ds ∧ c.listName? d = some name := by
  rw [namedList?] at h
  cases hfound : (directive? ds c.listDirective).or (directive? ds c.paginateDirective) with
  | none => rw [hfound] at h; cases h
  | some found =>
    rw [hfound] at h
    dsimp only at h
    split at h
    · rename_i text _ _ ha
      obtain ⟨rfl, rfl⟩ := Prod.mk.inj (Option.some.inj h)
      have htag : found ∈ ds ∧ c.Tags found := by
        rcases Option.or_eq_some_iff.mp hfound with hd | ⟨-, hd⟩
        · exact ⟨List.mem_of_find?_eq_some hd, .inl (by simpa using List.find?_some hd)⟩
        · exact ⟨List.mem_of_find?_eq_some hd, .inr (by simpa using List.find?_some hd)⟩
      refine ⟨htag.1, ?_⟩
      rw [Config.listName?, if_pos htag.2, ha]
    · cases h

/-- Changes to directives that keep what a list is named after. -/
theorem namedList?_map {f : Directive → Directive} (hname : ∀ d, (f d).name = d.name)
    (hargument : ∀ d, argument? (f d).arguments "name" = argument? d.arguments "name")
    (ds : List Directive) :
    namedList? c (ds.map f) = (namedList? c ds).map fun row => (row.1, f row.2) := by
  have hfind (name : String) : directive? (ds.map f) name = (directive? ds name).map f := by
    rw [directive?, directive?, List.find?_map]
    congr 2
    funext d
    rw [Function.comp, hname]
  rw [namedList?, namedList?, hfind, hfind, ← Option.map_or]
  cases (directive? ds c.listDirective).or (directive? ds c.paginateDirective) with
  | none => rfl
  | some d =>
    rw [Option.map_some]
    dsimp only
    rw [hargument]
    split <;> rfl

/-! ## 2. Marked fields -/

/-- If the field is a list, its directive is one whose own mark satisfies `P`, with the mark of the
pass for lists of some names. -/
def FieldHead.MarkedBy (c : Config) (P : Argument → Prop) (marked : String → Bool)
    (head : FieldHead) : Prop :=
  ∀ name d, namedList? c head.directives = some (name, d) →
    ∃ own : Directive, d = own.mark (marked name) ∧
      ∀ a, argument? own.arguments "connection" = some a → P a

theorem FieldHead.MarksIn.markedBy {head : FieldHead} (h : head.MarksIn c P) :
    head.MarkedBy c P fun _ => false := by
  intro name d hlist
  obtain ⟨hd, hname⟩ := listName?_of_namedList? hlist
  exact ⟨d, rfl, h d hd (tags_of_listName? hname)⟩

theorem markedBy_plain (name : String) (marked : String → Bool) :
    (FieldHead.plain name).MarkedBy c P marked := fun _ _ h => absurd h nofun

/-- A directive says that its field is a connection on its own, or by the mark of the pass. -/
theorem marksConnection_mark {marked : Bool} {own : Directive} :
    marksConnection (own.mark marked) = .ok true ↔ marksConnection own = .ok true ∨
      argument? own.arguments "connection" = none ∧ marked = true := by
  cases marked with
  | false => exact ⟨.inl, fun h => h.resolve_right fun hn => Bool.false_ne_true hn.2⟩
  | true =>
    have harguments : (own.mark true).arguments = own.arguments ++ [Tagging.connectionMark] := rfl
    rw [marksConnection, marksConnection, harguments, argument?, List.find?_append, ← argument?]
    cases argument? own.arguments "connection" with
    | none => exact iff_of_true rfl (.inr ⟨rfl, rfl⟩)
    | some a => exact ⟨.inl, fun h => h.resolve_right fun hn => Option.some_ne_none a hn.1⟩

/-! ## 3. Verdicts -/

/-- Whether the type of a field is known below some ancestors. -/
def Schema.knows (s : Schema) (ancestors : List Ancestor) (name : String) : Bool :=
  ((s.fieldAt ancestors name).bind s.fieldType?).isSome

/-- Whether a list is registered as a connection. -/
def Registry.isConnection (r : Registry) (name : String) : Bool :=
  (Table.get? r name).any (·.connection)

/-- Which lists the pass marks at a field: those that the registry has as connections, if the type
of the field is known. -/
def Registry.marks (c : Config) (r : Registry) (ancestors : List Ancestor) (field list : String) :
    Bool :=
  c.schema.knows ancestors field && r.isConnection list

/-- The pass has marked the field as the registry has it. -/
def Verdict (c : Config) (P : Argument → Prop) (r : Registry) (ancestors : List Ancestor)
    (head : FieldHead) : Prop := head.MarkedBy c P (r.marks c ancestors head.name)

theorem verdict_plain (ancestors : List Ancestor) (name : String) :
    Verdict c P r ancestors (.plain name) := markedBy_plain name _

theorem isSome_membersAt {s : Schema} {ancestors : List Ancestor} {name : String}
    {ss : List Selection} {found : Option (SchemaField × Members)}
    (h : membersAt s ancestors name ss = .ok found) :
    found.isSome = s.knows ancestors name := by
  rw [membersAt] at h
  rw [Schema.knows]
  cases hf : s.fieldAt ancestors name with
  | none =>
    rw [hf] at h
    exact congrArg _ (Except.ok.inj h).symm
  | some f =>
    rw [hf] at h
    dsimp only at h
    rw [Option.bind_some]
    cases ht : s.fieldType? f with
    | none =>
      rw [ht] at h
      exact congrArg _ (Except.ok.inj h).symm
    | some type =>
      rw [ht] at h
      simp only [bind_eq_ok, pure_eq_ok] at h
      obtain ⟨m, -, rfl⟩ := h
      rfl

open Tagging

/-- A directive whose list is registered makes a connection if the registry says so. -/
theorem Registers.marks {ancestors others : List Ancestor} (hsame : SameAncestors ancestors others)
    {target : Target} {d : Directive} {name : String} (h : Registers c r ancestors target d)
    (hname : c.listName? d = some name) :
    ((c.listName? d).isSome && connected c ancestors target.1.name target.2)
      = r.marks c others target.1.name name := by
  obtain ⟨found, hfound, hregistered⟩ := h name hname
  have hknown : found.isSome = c.schema.knows others target.1.name := by
    rw [isSome_membersAt hfound, Schema.knows, Schema.knows, Schema.fieldAt, Schema.fieldAt,
      hsame.typeAt]
  rw [hname, Option.isSome_some, Bool.true_and, connected, hfound, Registry.marks, ← hknown]
  cases found with
  | none => rfl
  | some row =>
    obtain ⟨f, m⟩ := row
    obtain ⟨l, hl, hconnection⟩ := hregistered f m rfl
    rw [Registry.isConnection, hl]
    exact hconnection.symm

/-- The list that a settled field is was named by one of its directives before. -/
theorem of_namedList?_settledHead {ancestors : List Ancestor} {head : FieldHead}
    {ss : List Selection} {name : String} {d : Directive}
    (h : namedList? c (settledHead c ancestors head ss).directives = some (name, d)) :
    ∃ own ∈ head.directives, c.listName? own = some name ∧
      d = settledDirective c ancestors (head, ss) own := by
  have hkept := @namedList?_map c (settledDirective c ancestors (head, ss))
    (fun d => d.name_mark _) (fun d => d.argument?_mark _) head.directives
  rw [settledHead, hkept, Option.map_eq_some_iff] at h
  obtain ⟨⟨name, own⟩, hnamed, hrow⟩ := h
  obtain ⟨rfl, rfl⟩ := Prod.mk.inj hrow
  obtain ⟨hown, hname⟩ := listName?_of_namedList? hnamed
  exact ⟨own, hown, hname, rfl⟩

/-- A field whose lists are registered gets the marks of the registry. -/
theorem verdict_settledHead {ancestors others : List Ancestor}
    (hsame : SameAncestors ancestors others) {head : FieldHead} {ss : List Selection}
    (hu : head.MarksIn c P) (hr : Registered c r ancestors head ss) :
    Verdict c P r others (settledHead c ancestors head (ss ++ gains c ancestors head ss)) := by
  intro name d hlist
  obtain ⟨d, hd, hname, rfl⟩ := of_namedList?_settledHead hlist
  refine ⟨d, ?_, hu d hd (tags_of_listName? hname)⟩
  rw [settledDirective, Registers.marks hsame (hr d hd) hname]
  rfl

/-- **In settled selections the pass has marked what the registry has as connections.** -/
theorem everyIn_verdict {ss : List Selection} {ancestors others : List Ancestor}
    (hsame : SameAncestors ancestors others) (hu : MarksIn c P ss)
    (hr : EveryIn (Registered c r) ancestors ss) :
    EveryIn (fun a head _ => Verdict c P r a head) others (settledAll c ancestors ss) := by
  have hmarks : EveryIn (fun _ head _ => head.MarksIn c P) ancestors ss := hu.elsewhere
  exact everyIn_settledAll (.of_plain fun a name _ => verdict_plain a name)
    (fun _ _ _ _ hsame hr hu => verdict_settledHead hsame hu hr) hsame hr hmarks

end QueryCompiler
