import QueryCompiler.Proofs.Outcome
import QueryCompiler.Selection.Compile
/-
# How a compilation fails

A compilation can fail in two ways that depend on where a selection stands and on what it spreads: a
field or a fragment is not there, or fragments spread each other without an end.  All else that can
go wrong lies in a field itself: its key, its list directives or its operations (`Error.OfEntry`).
-/
namespace QueryCompiler

/-! ## 1. Errors of some kind -/

/-- When the computation fails, the error satisfies `E`. -/
def FailsOnly (E : Error → Prop) {α : Type} (m : Except Error α) : Prop :=
  ∀ e, m = .error e → E e

section FailsOnly

variable {α β : Type} {E : Error → Prop} {m : Except Error α}

theorem FailsOnly.ok (a : α) : FailsOnly E (.ok a : Except Error α) := nofun

theorem FailsOnly.error {e : Error} (h : E e) : FailsOnly E (.error e : Except Error α) := by
  intro e' he
  exact Except.error.inj he ▸ h

theorem FailsOnly.mono {E' : Error → Prop} (hm : FailsOnly E m) (h : ∀ e, E e → E' e) :
    FailsOnly E' m := fun e he => h e (hm e he)

theorem FailsOnly.bind {f : α → Except Error β} (hm : FailsOnly E m)
    (hf : ∀ a, m = .ok a → FailsOnly E (f a)) : FailsOnly E (m >>= f) := by
  cases m with
  | error e => exact .error (hm e rfl)
  | ok a => exact hf a rfl

theorem FailsOnly.map {f : α → β} (hm : FailsOnly E m) :
    FailsOnly E (m >>= fun a => pure (f a)) := hm.bind fun _ _ => .ok _

theorem FailsOnly.mapM {f : α → Except Error β} (hf : ∀ a, FailsOnly E (f a)) (as : List α) :
    FailsOnly E (as.mapM f) := by
  intro e he
  obtain ⟨a, -, ha⟩ := exists_of_mapM_eq_error he
  exact hf a e ha

end FailsOnly

/-! ## 2. Errors of a field itself -/

/-- The error lies in a field itself: it does not say that a field or a fragment is missing, or that
there is no end to fragments. -/
def Error.OfEntry : Error → Prop
  | .noField _ _ | .fieldBelowUnknownType _ | .unknownFragment _ | .endlessSpread => False
  | _ => True

theorem failsOnly_intDatum (text : String) : FailsOnly Error.OfEntry (intDatum text) := by
  unfold intDatum
  split
  · exact .ok _
  · exact .error trivial

theorem failsOnly_floatDatum (text : String) : FailsOnly Error.OfEntry (floatDatum text) := by
  unfold floatDatum
  split
  · exact .ok _
  · exact .error trivial

theorem failsOnly_describe (v : Value) : FailsOnly Error.OfEntry v.describe := by
  cases v with
  | int text => exact (failsOnly_intDatum text).map
  | float text => exact (failsOnly_floatDatum text).map
  | _ => exact .ok _

theorem failsOnly_describeArguments (arguments : List Argument) :
    FailsOnly Error.OfEntry (describeArguments arguments) :=
  (FailsOnly.mapM (fun a : Argument => (failsOnly_describe a.value).map) arguments).map

theorem failsOnly_cacheKey (head : FieldHead) (definition : Option SchemaField) :
    FailsOnly Error.OfEntry (cacheKey head definition) := by
  unfold cacheKey
  split
  · exact .ok _
  · exact .ok _
  · split
    · exact .ok _
    · exact .error trivial

theorem failsOnly_withList (c : Config) (field : FieldHead) (h : EntryHead) :
    FailsOnly Error.OfEntry (h.withList c field) := by
  unfold EntryHead.withList
  split
  · exact .ok _
  · rename_i name d _
    have hmark : FailsOnly Error.OfEntry (marksConnection d) := by
      unfold marksConnection
      split
      · exact .ok _
      · split
        · exact .ok _
        · exact .error trivial
    exact hmark.bind fun _ _ => (failsOnly_describeArguments _).map

/-! ### List operations -/

variable (c : Config) (r : Registry)

theorem failsOnly_argumentType (list : Option String) (argument : Datum)
    (target : Option String) : FailsOnly Error.OfEntry (r.argumentType list argument target) := by
  have hone (l : ListDefinition) : FailsOnly Error.OfEntry (l.argumentType argument) := by
    unfold ListDefinition.argumentType
    split
    · exact .ok _
    · split
      · exact .ok _
      · exact .error trivial
  have hfirst (r : Registry) :
      FailsOnly Error.OfEntry (Registry.firstArgumentType argument target r) := by
    induction r with
    | nil => exact .ok _
    | cons row r ih =>
      unfold Registry.firstArgumentType
      split
      · exact .error trivial
      · split
        · split
          · exact ih
          · exact hone row.2
        · exact ih
  unfold Registry.argumentType
  split
  · exact hfirst r
  · split
    · exact .ok _
    · exact hone _

theorem failsOnly_coerceGuard (d : Datum) (type : Option String) :
    FailsOnly Error.OfEntry (coerceGuard d type) := by
  unfold coerceGuard
  split
  · exact .ok _
  · exact failsOnly_intDatum _
  · exact failsOnly_floatDatum _
  · exact .ok _

theorem failsOnly_add (s : GuardScope) (g : Guards) (kind : GuardKind)
    (argument value : Option Value) : FailsOnly Error.OfEntry (s.add g kind argument value) := by
  unfold GuardScope.add
  split
  · refine (failsOnly_argumentType _ _ _ _).bind fun type _ =>
      (failsOnly_coerceGuard _ type).bind fun d _ => ?_
    split
    · exact .ok _
    · exact .error trivial
  · exact .ok _

theorem failsOnly_guards (s : GuardScope) (directives : List Directive) :
    FailsOnly Error.OfEntry (s.guards c directives) := by
  have hobject (g : Guards) (kind : GuardKind) (value : Option Value) :
      FailsOnly Error.OfEntry (s.addObject g kind value) := by
    unfold GuardScope.addObject
    split
    · exact failsOnly_add _ _ _ _ _
    · exact .ok _
  exact (hobject _ _ _).bind fun _ _ => (hobject _ _ _).bind fun _ _ => (hobject _ _ _).bind
    fun _ _ => (hobject _ _ _).bind fun _ _ => (failsOnly_add _ _ _ _ _).bind fun _ _ =>
      failsOnly_add _ _ _ _ _

theorem failsOnly_listOperations (directives : List Directive) (ss : List Selection) :
    FailsOnly Error.OfEntry (listOperations c r directives ss) := by
  have hdeletion (d : Directive) : FailsOnly Error.OfEntry (deletion? c r directives d) := by
    unfold deletion?
    split
    · exact .ok _
    · exact (failsOnly_guards c _ _).map
  have hedit (s : Selection) : FailsOnly Error.OfEntry (edit? c r s) := by
    unfold edit?
    split
    · split
      · exact .ok _
      · have hparent (v : Option Value) : FailsOnly Error.OfEntry (describe? v) := by
          cases v with
          | none => exact .ok _
          | some v => exact (failsOnly_describe v).map
        exact (hparent _).bind fun _ _ => (failsOnly_guards c _ _).map
    · exact .ok _
  exact (FailsOnly.mapM hdeletion _).bind fun _ _ => (FailsOnly.mapM hedit _).map

/-- What an entry says of its field is found out without looking up fields. -/
theorem Compilation.failsOnly_entryHead {x : Compilation} (field : FieldHead) (ss : List Selection)
    (f : SchemaField) (key : String) (masked : Bool) :
    FailsOnly Error.OfEntry (x.entryHead field ss f key masked) := by
  refine (failsOnly_withList _ _ _).bind fun h _ => ?_
  split
  · exact (failsOnly_listOperations _ _ _ _).map
  · exact .ok _

end QueryCompiler
