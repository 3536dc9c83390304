import QueryCompiler.Lists.Tagging
import QueryCompiler.Proofs.Selection.Fields
/-
# Who marks connections

A directive that makes its field a list says by an argument that the list is a connection.  The
list pass adds this argument.  A document may also have it of its own, and what is said here of
such marks is that they satisfy some property (`MarksIn`); with a property that no argument has,
the document leaves it to the pass to mark connections.
-/
namespace QueryCompiler

/-- Whether a directive can make its field a list. -/
abbrev Config.Tags (c : Config) (d : Directive) : Prop :=
  d.name = c.listDirective ∨ d.name = c.paginateDirective

/-- The name of the list that a directive makes of its field. -/
def Config.listName? (c : Config) (d : Directive) : Option String :=
  if c.Tags d then
    match argument? d.arguments "name" with
    | some { value := .string name _, .. } => some name
    | _ => none
  else none

/-- What the directives of the field say of connections satisfies `P`. -/
def FieldHead.MarksIn (c : Config) (P : Argument → Prop) (head : FieldHead) : Prop :=
  ∀ d ∈ head.directives, c.Tags d → ∀ a, argument? d.arguments "connection" = some a → P a

/-- The marks of all fields of the selections satisfy `P`. -/
abbrev MarksIn (c : Config) (P : Argument → Prop) (ss : List Selection) : Prop :=
  EveryIn (fun _ head _ => head.MarksIn c P) [] ss

/-- The definitions of a document that select something. -/
def Document.executables (d : Document) : List Executable :=
  d.definitions.filterMap Executable.ofDefinition?

/-- The marks of a document satisfy `P`. -/
def Document.MarksIn (c : Config) (P : Argument → Prop) (d : Document) : Prop :=
  ∀ e ∈ d.executables, QueryCompiler.MarksIn c P e.selections

/-- The marks in what is selected of the members of lists satisfy `P`. -/
def RegistryMarks (c : Config) (P : Argument → Prop) (r : Registry) : Prop :=
  ∀ row ∈ r, MarksIn c P row.2.selections

variable {c : Config} {P : Argument → Prop}

theorem tags_of_listName? {d : Directive} {name : String} (h : c.listName? d = some name) :
    c.Tags d := by
  rw [Config.listName?] at h
  split at h
  · assumption
  · exact absurd h nofun

theorem marksIn_of_no_directives {head : FieldHead} (h : head.directives = []) :
    head.MarksIn c P := by
  intro d hd
  rw [h] at hd
  exact absurd hd List.not_mem_nil

theorem marksIn_field {head : FieldHead} {ss : List Selection} :
    MarksIn c P [.field head ss] ↔ head.MarksIn c P ∧ MarksIn c P ss := by
  rw [MarksIn, EveryIn, Selection.Every]
  exact ⟨fun h => ⟨h.1.1, h.1.2.elsewhere⟩, fun h => ⟨⟨h.1, h.2.elsewhere⟩, everyIn_nil _⟩⟩

theorem marksIn_inline {condition : Option String} {directives : List Directive}
    {ss : List Selection} : MarksIn c P [.inline condition directives ss] ↔ MarksIn c P ss := by
  rw [MarksIn, EveryIn, Selection.Every]
  exact ⟨fun h => h.1.elsewhere, fun h => ⟨h.elsewhere, everyIn_nil _⟩⟩

theorem marksIn_append {ss rest : List Selection} :
    MarksIn c P (ss ++ rest) ↔ MarksIn c P ss ∧ MarksIn c P rest := everyIn_append

theorem marksIn_cons {s : Selection} {ss : List Selection} :
    MarksIn c P (s :: ss) ↔ MarksIn c P [s] ∧ MarksIn c P ss :=
  @everyIn_append _ _ [s] ss

/-- Every document has some marks. -/
theorem Document.marksIn_true (d : Document) : d.MarksIn c fun _ => True := fun e _ =>
  everyIn_of_forall (fun _ _ _ _ _ _ _ _ => trivial) e.selections []

theorem marksIn_pageInfo : MarksIn c P pageInfo :=
  everyIn_pageInfo (fun _ _ _ => marksIn_of_no_directives rfl) []

end QueryCompiler
