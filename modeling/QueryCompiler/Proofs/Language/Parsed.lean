import QueryCompiler.Language.Grammar
import QueryCompiler.Proofs.Language.Tokens
/-
# What is read from a text is well-formed

Every rule of the grammar makes well-formed trees of well-formed tokens.

* `Grammar.gives_value`: a value;
* `wellFormed_of_parseDocument?`: every field of a document.
-/
namespace QueryCompiler

/-! ## 1. Fields -/

mutual

/-- The fields of a selection, those of its own selections among them. -/
def Selection.fieldHeads : Selection → List FieldHead
  | .field head selections => head :: fieldHeadsIn selections
  | .spread _ _ => []
  | .inline _ _ selections => fieldHeadsIn selections

def fieldHeadsIn : List Selection → List FieldHead
  | [] => []
  | s :: selections => s.fieldHeads ++ fieldHeadsIn selections

end

theorem mem_fieldHeadsIn {head : FieldHead} : ∀ {ss : List Selection},
    head ∈ fieldHeadsIn ss ↔ ∃ s ∈ ss, head ∈ s.fieldHeads
  | [] => by simp [fieldHeadsIn]
  | s :: ss => by simp [fieldHeadsIn, mem_fieldHeadsIn]

/-- The fields of a definition. -/
def Definition.fieldHeads : Definition → List FieldHead
  | .operation o => fieldHeadsIn o.selections
  | .fragment f => fieldHeadsIn f.selections
  | .schema _ | .type _ | .directive _ => []

/-- An argument that a text can have. -/
def Argument.WellFormed (a : Argument) : Prop := IsName a.name ∧ a.value.WellFormed

/-- A field that a text can have. -/
structure FieldHead.WellFormed (head : FieldHead) : Prop where
  name : IsName head.name
  arguments : ∀ a ∈ head.arguments, a.WellFormed

/-- A selection with fields that a text can have. -/
def Selection.WellFormed (s : Selection) : Prop := ∀ head ∈ s.fieldHeads, head.WellFormed

/-- Selections with fields that a text can have. -/
def FieldsWellFormed (ss : List Selection) : Prop := ∀ head ∈ fieldHeadsIn ss, head.WellFormed

theorem fieldsWellFormed_of_forall {ss : List Selection} (h : ∀ s ∈ ss, s.WellFormed) :
    FieldsWellFormed ss := by
  intro head hhead
  obtain ⟨s, hs, hhead⟩ := mem_fieldHeadsIn.mp hhead
  exact h s hs head hhead

/-- A definition with fields that a text can have. -/
def Definition.WellFormed (d : Definition) : Prop := ∀ head ∈ d.fieldHeads, head.WellFormed

/-! ## 2. Tokens and repetition -/

namespace Grammar

variable {α : Type} {P : α → Prop}

/-- From well-formed tokens a parser makes something with the property, and leaves well-formed
tokens. -/
abbrev Gives {α : Type} (p : Parser Token α) (P : α → Prop) : Prop :=
  Parser.Gives Token.WellFormed p P

/-- A parser that leaves well-formed tokens. -/
abbrev Passes {α : Type} (p : Parser Token α) : Prop := Gives p fun _ => True

theorem gives_name : Gives name IsName := by
  refine .next? fun t text ht h => ?_
  split at h
  · obtain rfl := Option.some.inj h
    exact ht
  · exact absurd h nofun

theorem passes_mark (c : Char) : Passes (mark c) := .next? fun _ _ _ _ => trivial

theorem passes_keyword (word : String) : Passes (keyword word) := .next? fun _ _ _ _ => trivial

/-- A parser that takes the next token if it is the one that it looks for. -/
theorem passes_ifNext {p : Parser Token Bool} {t : Token} (hnil : p [] = some (false, []))
    (hcons : ∀ u ts, p (u :: ts) = if u = t then some (true, ts) else some (false, u :: ts)) :
    Passes p := by
  intro ts b rest hts h
  refine ⟨trivial, ?_⟩
  cases ts with
  | nil =>
    rw [hnil] at h
    obtain ⟨-, rfl⟩ := Prod.mk.inj (Option.some.inj h)
    exact hts
  | cons u ts =>
    rw [hcons] at h
    split at h
    · obtain ⟨-, rfl⟩ := Prod.mk.inj (Option.some.inj h)
      exact (List.forall_mem_cons.mp hts).2
    · obtain ⟨-, rfl⟩ := Prod.mk.inj (Option.some.inj h)
      exact hts

theorem passes_accept (c : Char) : Passes (accept c) := passes_ifNext rfl fun _ _ => rfl

theorem passes_acceptWord (word : String) : Passes (acceptWord word) :=
  passes_ifNext rfl fun _ _ => rfl

theorem gives_upTo {p : Parser Token α} (h : Gives p P) (closing : Char) :
    Gives (upTo p closing) fun as => ∀ a ∈ as, P a :=
  h.repeatWhile.bind fun _ has => (passes_mark closing).bind fun _ _ => .pure has

theorem gives_between {p : Parser Token α} (h : Gives p P) (opening closing : Char) :
    Gives (between opening p closing) fun as => ∀ a ∈ as, P a :=
  (passes_mark opening).bind fun _ _ => h.bind fun _ ha => (gives_upTo h closing).bind fun _ has =>
    .pure (List.forall_mem_cons.mpr ⟨ha, has⟩)

theorem gives_optionalBetween {p : Parser Token α} (h : Gives p P) (opening closing : Char) :
    Gives (optionalBetween opening p closing) fun as => ∀ a ∈ as, P a := by
  refine Parser.Gives.peek.bind fun given _ => ?_
  split
  · exact gives_between h opening closing
  · exact .pure nofun

theorem passes_separated {p : Parser Token α} (h : Passes p) (separator : Char) :
    Passes (separated separator p) :=
  (passes_accept separator).bind fun _ _ => h.bind fun _ _ =>
    ((passes_mark separator).seqRight h).repeatWhile.bind fun _ _ => .pure trivial

/-! ## 3. Values -/

/-- The value that begins with a token.  Items are read by a parser, if there is room for them. -/
def valueFrom (constant : Bool) (item? : Option (Parser Token Value)) : Token → Parser Token Value
  | .int text => return .int text
  | .float text => return .float text
  | .string text => return .string text false
  | .blockString text => return .string text true
  | .name "true" => return .boolean true
  | .name "false" => return .boolean false
  | .name "null" => return .null
  | .name text => return .enumeration text
  | .mark '$' => if constant then failure else Value.variable <$> name
  | .mark opening =>
    match item? with
    | none => failure
    | some item =>
      if opening = '[' then Value.list <$> upTo item ']'
      else if opening = '\x7b' then
        Value.object <$> upTo (do let key ← name; mark ':'; return (key, ← item)) '\x7d'
      else failure
  | _ => failure

theorem value_zero (constant : Bool) :
    value constant 0 = Parser.next? some >>= valueFrom constant none := by
  delta value
  refine congrArg (Parser.next? some >>= ·) (funext fun t => ?_)
  unfold valueFrom
  rfl

theorem value_succ (constant : Bool) (room : Nat) :
    value constant (room + 1)
      = Parser.next? some >>= valueFrom constant (some (value constant room)) := by
  delta value
  refine congrArg (Parser.next? some >>= ·) (funext fun t => ?_)
  unfold valueFrom
  rfl

theorem gives_valueFrom (constant : Bool) {item? : Option (Parser Token Value)}
    (hitem : ∀ item ∈ item?, Gives item Value.WellFormed) {t : Token} (ht : t.WellFormed) :
    Gives (valueFrom constant item? t) Value.WellFormed := by
  unfold valueFrom
  split
  · exact .pure (.int ht)
  · exact .pure (.float ht)
  · exact .pure (.string _)
  · exact .pure (.block ht)
  · exact .pure (.boolean true)
  · exact .pure (.boolean false)
  · exact .pure .null
  · rename_i text htrue hfalse hnull
    refine .pure (.enumeration ht ?_)
    simp only [List.mem_cons, List.not_mem_nil, or_false, not_or]
    exact ⟨htrue, hfalse, hnull⟩
  · split
    · exact .failure
    · exact gives_name.map fun _ hname => .reference hname
  · cases item? with
    | none => exact .failure
    | some item =>
      have hitem := hitem item rfl
      dsimp only
      split
      · exact (gives_upTo hitem ']').map fun _ hitems => .list hitems
      · split
        · have hfield : Gives (do let key ← name; mark ':'; return (key, ← item))
              fun field => IsName field.1 ∧ field.2.WellFormed :=
            gives_name.bind fun key hkey => (passes_mark ':').bind fun _ _ =>
              hitem.bind fun v hv => .pure ⟨hkey, hv⟩
          exact (gives_upTo hfield '\x7d').map fun _ hfields =>
            .object (fun field h => (hfields field h).1) fun field h => (hfields field h).2
        · exact .failure
  · exact .failure

theorem gives_value (constant : Bool) : ∀ room, Gives (value constant room) Value.WellFormed
  | 0 => by
    rw [value_zero]
    exact .bind (P := Token.WellFormed) (.next? fun t _ ht h => Option.some.inj h ▸ ht)
      fun _ ht => gives_valueFrom constant (fun _ hitem => by cases hitem) ht
  | room + 1 => by
    rw [value_succ]
    refine .bind (P := Token.WellFormed) (.next? fun t _ ht h => Option.some.inj h ▸ ht)
      fun _ ht => gives_valueFrom constant ?_ ht
    rintro _ ⟨⟩
    exact gives_value constant room

theorem gives_argument (constant : Bool) (room : Nat) :
    Gives (argument constant room) Argument.WellFormed :=
  gives_name.bind fun _ hname => (passes_mark ':').bind fun _ _ =>
    (gives_value constant room).bind fun _ hvalue => .pure ⟨hname, hvalue⟩

theorem gives_arguments (constant : Bool) (room : Nat) :
    Gives (arguments constant room) fun as => ∀ a ∈ as, a.WellFormed :=
  gives_optionalBetween (gives_argument constant room) '(' ')'

theorem passes_directives (source : String) (constant : Bool) (room : Nat) :
    Passes (directives source constant room) := by
  refine Parser.Gives.mono (Parser.Gives.repeatWhile (P := fun _ => True) ?_) fun _ _ => trivial
  exact .bind (P := fun _ => True) (.next? fun _ _ _ _ => trivial) fun _ _ =>
    gives_name.bind fun _ _ => (gives_arguments constant room).bind fun _ _ => .pure trivial

theorem passes_defaultValue : Passes defaultValue := by
  refine (passes_accept '=').bind fun given _ => ?_
  split
  · exact (gives_value true deepest).map fun _ _ => trivial
  · exact .pure trivial

theorem passes_description : Passes description := by
  intro ts d rest hts h
  refine ⟨trivial, ?_⟩
  unfold description at h
  split at h
  · obtain ⟨-, rfl⟩ := Prod.mk.inj (Option.some.inj h)
    exact (List.forall_mem_cons.mp hts).2
  · obtain ⟨-, rfl⟩ := Prod.mk.inj (Option.some.inj h)
    exact (List.forall_mem_cons.mp hts).2
  · obtain ⟨-, rfl⟩ := Prod.mk.inj (Option.some.inj h)
    exact hts

/-! ## 4. Executable definitions -/

/-- A selection set is there when it begins. -/
theorem gives_optionalSet {p : Parser Token (List Selection)} (h : Gives p FieldsWellFormed) :
    Gives (Parser.peek (· == .mark '\x7b') >>= fun given => if given then p else return [])
      FieldsWellFormed := by
  refine Parser.Gives.peek.bind fun given _ => ?_
  split
  · exact h
  · exact .pure nofun

theorem gives_selectionSet (source : String) :
    ∀ room, Gives (selectionSet source room) FieldsWellFormed
  | 0 => .failure
  | room + 1 => by
    have below := gives_selectionSet source room
    rw [selectionSet]
    refine (gives_between (P := Selection.WellFormed) ?_ '\x7b' '\x7d').mono fun _ hss =>
      fieldsWellFormed_of_forall hss
    -- A selection is told by its first token, before any rule takes it.
    intro ts s rest hts h
    dsimp only at h
    split at h
    · refine (?_ : Gives _ Selection.WellFormed) (List.forall_mem_cons.mp hts).2 h
      refine (passes_acceptWord "on").bind fun conditional _ => ?_
      split
      · exact gives_name.bind fun _ _ => (passes_directives source false room).bind fun _ _ =>
          below.bind fun ss hss => .pure hss
      · refine Parser.Gives.peek.bind fun named _ => ?_
        split
        · exact gives_name.bind fun _ _ => (passes_directives source false room).bind fun _ _ =>
            .pure nofun
        · exact (passes_directives source false room).bind fun _ _ =>
            below.bind fun ss hss => .pure hss
    · refine (?_ : Gives _ Selection.WellFormed) hts h
      refine gives_name.bind fun first hfirst => (passes_accept ':').bind fun labelled _ => ?_
      refine .ite_bind (P := fun second => ∀ name ∈ second, IsName name)
        (gives_name.map fun name hname => ?_) (.pure ?_) fun second hsecond => ?_
      · rintro _ ⟨⟩
        exact hname
      · exact fun _ hname => by cases hname
      · refine (gives_arguments false room).bind fun arguments harguments =>
          (passes_directives source false room).bind fun directives _ =>
          (gives_optionalSet below).bind fun ss hss => .pure ?_
        refine List.forall_mem_cons.mpr ⟨?_, hss⟩
        cases second with
        | none => exact ⟨hfirst, harguments⟩
        | some name => exact ⟨hsecond name rfl, harguments⟩

/-! ## 5. Type systems -/

theorem passes_typeRef : ∀ room, Passes (typeRef room)
  | 0 => by
    unfold typeRef
    refine (passes_accept '[').bind fun isList _ => ?_
    dsimp only
    split
    · exact .bind (P := fun _ => True) .failure fun _ _ =>
        (passes_accept '!').bind fun _ _ => .pure trivial
    · exact (gives_name.map (R := fun _ => True) fun _ _ => trivial).bind fun _ _ =>
        (passes_accept '!').bind fun _ _ => .pure trivial
  | room + 1 => by
    unfold typeRef
    refine (passes_accept '[').bind fun isList _ => ?_
    dsimp only
    split
    · exact (passes_typeRef room).bind fun _ _ => (passes_mark ']').bind fun _ _ =>
        .bind (P := fun _ => True) (.pure trivial) fun _ _ =>
        (passes_accept '!').bind fun _ _ => .pure trivial
    · exact (gives_name.map (R := fun _ => True) fun _ _ => trivial).bind fun _ _ =>
        (passes_accept '!').bind fun _ _ => .pure trivial

theorem passes_inputValue (source : String) : Passes (inputValue source) :=
  passes_description.bind fun _ _ => gives_name.bind fun _ _ => (passes_mark ':').bind fun _ _ =>
    (passes_typeRef deepest).bind fun _ _ => passes_defaultValue.bind fun _ _ =>
    (passes_directives source true deepest).bind fun _ _ => .pure trivial

theorem passes_variableDefinition (source : String) : Passes (variableDefinition source) :=
  passes_description.bind fun _ _ => (passes_mark '$').bind fun _ _ => gives_name.bind fun _ _ =>
    (passes_mark ':').bind fun _ _ => (passes_typeRef deepest).bind fun _ _ =>
    passes_defaultValue.bind fun _ _ => (passes_directives source true deepest).bind fun _ _ =>
    .pure trivial

/-- Declared arguments, fields and the like between their marks. -/
theorem passes_optionalBetween {p : Parser Token α} (h : Passes p) (opening closing : Char) :
    Passes (optionalBetween opening p closing) :=
  (gives_optionalBetween h opening closing).mono fun _ _ => trivial

theorem passes_fieldDefinition (source : String) : Passes (fieldDefinition source) :=
  passes_description.bind fun _ _ => gives_name.bind fun _ _ =>
    (passes_optionalBetween (passes_inputValue source) '(' ')').bind fun _ _ =>
    (passes_mark ':').bind fun _ _ => (passes_typeRef deepest).bind fun _ _ =>
    (passes_directives source true deepest).bind fun _ _ => .pure trivial

theorem passes_enumValue (source : String) : Passes (enumValue source) :=
  passes_description.bind fun _ _ => gives_name.bind fun _ _ => .ite_failure fun _ =>
    (passes_directives source true deepest).bind fun _ _ => .pure trivial

theorem passes_interfaces : Passes interfaces := by
  refine (passes_acceptWord "implements").bind fun given _ => ?_
  split
  · exact passes_separated (gives_name.mono fun _ _ => trivial) '&'
  · exact .pure trivial

theorem passes_location : Passes location := by
  refine gives_name.bind fun name _ => ?_
  split
  · exact .pure trivial
  · exact .failure

theorem passes_operationKind : Passes operationKind := by
  refine gives_name.bind fun word _ => ?_
  split
  · exact .pure trivial
  · exact .pure trivial
  · exact .pure trivial
  · exact .failure

theorem passes_root : Passes root :=
  passes_operationKind.bind fun _ _ => (passes_mark ':').bind fun _ _ =>
    gives_name.bind fun _ _ => .pure trivial

theorem passes_directiveDefinition (source : String) (description : Option Description) :
    Passes (directiveDefinition source description) :=
  .bind (P := fun _ => True) (.next? fun _ _ _ _ => trivial) fun _ _ => gives_name.bind fun _ _ =>
    (passes_optionalBetween (passes_inputValue source) '(' ')').bind fun _ _ =>
    (passes_acceptWord "repeatable").bind fun _ _ => (passes_keyword "on").bind fun _ _ =>
    (passes_separated passes_location '|').bind fun _ _ => .pure trivial

theorem passes_typeDefinition (source : String) (extension : Bool)
    (description : Option Description) (word : String) :
    Passes (typeDefinition source extension description word) := by
  have hdirectives : Passes (constantDirectives source) := passes_directives source true deepest
  have hfields := passes_optionalBetween (passes_fieldDefinition source) '\x7b' '\x7d'
  refine gives_name.bind fun name _ => ?_
  split
  · exact hdirectives.bind fun _ _ => .pure trivial
  · exact passes_interfaces.bind fun _ _ => hdirectives.bind fun _ _ => hfields.bind fun _ _ =>
      .pure trivial
  · exact passes_interfaces.bind fun _ _ => hdirectives.bind fun _ _ => hfields.bind fun _ _ =>
      .pure trivial
  · refine hdirectives.bind fun _ _ => (passes_accept '=').bind fun given _ => ?_
    exact .ite_bind (passes_separated (gives_name.mono fun _ _ => trivial) '|')
      (.pure trivial) fun _ _ => .pure trivial
  · exact hdirectives.bind fun _ _ =>
      (passes_optionalBetween (passes_enumValue source) '\x7b' '\x7d').bind fun _ _ => .pure trivial
  · exact hdirectives.bind fun _ _ =>
      (passes_optionalBetween (passes_inputValue source) '\x7b' '\x7d').bind fun _ _ =>
      .pure trivial
  · exact .failure

theorem passes_schemaDefinition (source : String) (description : Option Description) :
    Passes (schemaDefinition source description) :=
  (passes_directives source true deepest).bind fun _ _ =>
    (gives_between passes_root '\x7b' '\x7d').bind fun _ _ => .pure trivial

/-! ## 6. Documents -/

theorem gives_operation (source : String) (description : Option Description)
    (kind : OperationKind) :
    Gives (operation source description kind) fun o => FieldsWellFormed o.selections := by
  refine Parser.Gives.peek.bind fun named _ => .ite_bind (P := fun _ => True)
    (gives_name.map fun _ _ => trivial) (.pure trivial) fun _ _ => ?_
  exact (passes_optionalBetween (passes_variableDefinition source) '(' ')').bind fun _ _ =>
    (passes_directives source false deepest).bind fun _ _ =>
    (gives_selectionSet source deepest).bind fun _ hss => .pure hss

theorem gives_fragment (source : String) (description : Option Description) :
    Gives (fragment source description) fun f => FieldsWellFormed f.selections :=
  gives_name.bind fun _ _ => .ite_failure fun _ => (passes_keyword "on").bind fun _ _ =>
    gives_name.bind fun _ _ => (passes_directives source false deepest).bind fun _ _ =>
    (gives_selectionSet source deepest).bind fun _ hss => .pure hss

theorem gives_extension (source : String) : Gives (extension source) Definition.WellFormed := by
  refine gives_name.bind fun word _ => ?_
  split
  · refine (passes_directives source true deepest).bind fun _ _ =>
      (passes_optionalBetween passes_root '\x7b' '\x7d').bind fun _ _ => .ite_failure fun _ =>
      .pure nofun
  · refine (passes_typeDefinition source true none _).bind fun _ _ => ?_
    split
    · exact .pure nofun
    · exact .failure

theorem gives_definition (source : String) : Gives (definition source) Definition.WellFormed := by
  refine Parser.Gives.peek.bind fun bare _ => ?_
  split
  · exact (gives_selectionSet source deepest).bind fun _ hss => .pure hss
  · refine passes_description.bind fun description _ => gives_name.bind fun word _ => ?_
    split
    · exact (gives_operation source _ .query).map fun _ hss => hss
    · exact (gives_operation source _ .mutation).map fun _ hss => hss
    · exact (gives_operation source _ .subscription).map fun _ hss => hss
    · exact (gives_fragment source _).map fun _ hss => hss
    · exact gives_extension source
    · exact (passes_schemaDefinition source _).map fun _ _ => nofun
    · exact (passes_directiveDefinition source _).map fun _ _ => nofun
    · exact (passes_typeDefinition source false _ _).map fun _ _ => nofun

theorem gives_document (source : String) :
    Gives (document source) fun definitions => ∀ d ∈ definitions, d.WellFormed :=
  (gives_definition source).bind fun _ hfirst =>
    (gives_definition source).repeatWhile.bind fun _ hothers =>
    .pure (List.forall_mem_cons.mpr ⟨hfirst, hothers⟩)

end Grammar

/-- **The fields of a document** are well-formed, wherever they stand. -/
theorem wellFormed_of_parseDocument? {source : String} {definitions : List Definition}
    (h : parseDocument? source = some definitions) : ∀ d ∈ definitions, d.WellFormed := by
  obtain ⟨ts, hts, h⟩ := Option.bind_eq_some_iff.mp h
  exact (Grammar.gives_document source).run? (Token.wellFormed_of_scan? hts) h

end QueryCompiler
