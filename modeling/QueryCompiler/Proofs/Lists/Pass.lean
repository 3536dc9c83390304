import QueryCompiler.Proofs.Lists.Settled
import QueryCompiler.Proofs.Outcome
/-
# Runs of the list pass

The list pass goes through a document with a state.  What the state has to do with the result is
said from the end of a run (`Sound`): the registry at the end has every list that was found on the
way, and what it remembers of the members of a list was read before the pass changed anything below
that field, so the marks in it are those of the document (`RegistryMarks`).
-/
namespace QueryCompiler.Tagging

/-! ## 1. Runs -/

variable {α β : Type} {c : Config} {P : Argument → Prop}

/-- A pass succeeds with a result, from one state to another. -/
def Runs (m : Tagging α) (st : TagState) (a : α) (st' : TagState) : Prop :=
  m.run.run st = (.ok a, st')

theorem run_bind (m : Tagging α) (f : α → Tagging β) (st : TagState) :
    (m >>= f).run.run st = match m.run.run st with
      | (.ok a, st₁) => (f a).run.run st₁
      | (.error e, st₁) => (.error e, st₁) := by
  rw [ExceptT.run_bind, StateT.run_bind]
  change (match m.run.run st with | (r, st₁) => _) = _
  rcases m.run.run st with ⟨_ | _, _⟩ <;> rfl

theorem runs_bind {m : Tagging α} {f : α → Tagging β} {st st' : TagState} {b : β} :
    Runs (m >>= f) st b st' ↔ ∃ a st₁, Runs m st a st₁ ∧ Runs (f a) st₁ b st' := by
  unfold Runs
  rw [run_bind]
  rcases m.run.run st with ⟨e | a, st₁⟩
  · exact ⟨fun h => absurd (Prod.mk.inj h).1 nofun,
      fun ⟨_, _, h, _⟩ => absurd (Prod.mk.inj h).1 nofun⟩
  · constructor
    · exact fun h => ⟨a, st₁, rfl, h⟩
    · rintro ⟨a', st₁', h, h'⟩
      obtain ⟨ha, rfl⟩ := Prod.mk.inj h
      obtain rfl := Except.ok.inj ha
      exact h'

theorem runs_pure {a b : α} {st st' : TagState} :
    Runs (pure a) st b st' ↔ a = b ∧ st = st' := by
  constructor
  · intro h
    obtain ⟨ha, hst⟩ := Prod.mk.inj h
    exact ⟨Except.ok.inj ha, hst⟩
  · rintro ⟨rfl, rfl⟩
    rfl

theorem runs_modify {f : TagState → TagState} {st st' : TagState} {u : Unit} :
    Runs (modify f) st u st' ↔ st' = f st :=
  ⟨fun h => (Prod.mk.inj h).2.symm, fun h => h ▸ rfl⟩

theorem runs_get {st st' a : TagState} : Runs get st a st' ↔ a = st ∧ st' = st := by
  constructor
  · intro h
    obtain ⟨ha, hst⟩ := Prod.mk.inj h
    exact ⟨(Except.ok.inj ha).symm, hst.symm⟩
  · rintro ⟨rfl, rfl⟩
    rfl

theorem runs_lift {e : Except Error α} {st st' : TagState} {a : α} :
    Runs (liftM e : Tagging α) st a st' ↔ e = .ok a ∧ st' = st := by
  constructor
  · intro h
    obtain ⟨ha, hst⟩ := Prod.mk.inj h
    exact ⟨ha, hst.symm⟩
  · rintro ⟨rfl, rfl⟩
    rfl

/-! ## 2. Passes seen from their end -/

/-- A state on the way to the end: no fault has been noted, the registry at the end has all lists
found so far, and if the document at hand stays as it is then nothing has been changed. -/
structure LeadsTo (st : TagState) (r : Registry) (replaced : Bool) : Prop where
  errors : st.errors = []
  registry : ∀ name l, Table.get? st.registry name = some l → Table.get? r name = some l
  changed : st.changed = true → replaced = true

/-- Every run of the pass captures only members whose marks satisfy `P`; it leads from a state on
the way to the end to another one, and its result is as `Q` says. -/
structure Sound (c : Config) (P : Argument → Prop) (m : Tagging α)
    (Q : Registry → Bool → α → Prop) : Prop where
  captured : ∀ {st a st'}, Runs m st a st' →
    RegistryMarks c P st.registry → RegistryMarks c P st'.registry
  result : ∀ {st a st'}, Runs m st a st' → ∀ {r replaced}, LeadsTo st' r replaced →
    LeadsTo st r replaced ∧ Q r replaced a

namespace Sound

variable {Q : Registry → Bool → α → Prop}

theorem pure {a : α} (h : ∀ r replaced, Q r replaced a) : Sound c P (pure a) Q where
  captured hrun hu := by
    obtain ⟨-, rfl⟩ := runs_pure.mp hrun
    exact hu
  result hrun _ _ hl := by
    obtain ⟨rfl, rfl⟩ := runs_pure.mp hrun
    exact ⟨hl, h _ _⟩

/-- What the first of two passes says may be used for the second, which only has to be sound for
the results that the first one can have. -/
theorem bind_of_runs {m : Tagging α} {f : α → Tagging β} {Q' : Registry → Bool → β → Prop}
    (hm : Sound c P m Q) (hf : ∀ a, (∃ st st', Runs m st a st') →
      Sound c P (f a) fun r replaced b => Q r replaced a → Q' r replaced b) :
    Sound c P (m >>= f) Q' where
  captured hrun hu := by
    obtain ⟨a, st₁, hfirst, hrest⟩ := runs_bind.mp hrun
    exact (hf a ⟨_, _, hfirst⟩).captured hrest (hm.captured hfirst hu)
  result hrun _ _ hl := by
    obtain ⟨a, st₁, hfirst, hrest⟩ := runs_bind.mp hrun
    obtain ⟨hl₁, hQ'⟩ := (hf a ⟨_, _, hfirst⟩).result hrest hl
    obtain ⟨hl₀, hQ⟩ := hm.result hfirst hl₁
    exact ⟨hl₀, hQ' hQ⟩

theorem bind {m : Tagging α} {f : α → Tagging β} {Q' : Registry → Bool → β → Prop}
    (hm : Sound c P m Q)
    (hf : ∀ a, Sound c P (f a) fun r replaced b => Q r replaced a → Q' r replaced b) :
    Sound c P (m >>= f) Q' := hm.bind_of_runs fun a _ => hf a

theorem weaken {m : Tagging α} {Q' : Registry → Bool → α → Prop} (hm : Sound c P m Q)
    (h : ∀ r replaced a, Q r replaced a → Q' r replaced a) : Sound c P m Q' where
  captured := hm.captured
  result hrun _ _ hl := (hm.result hrun hl).imp_right (h _ _ _)

theorem lift (e : Except Error α) : Sound c P (liftM e : Tagging α) fun _ _ a => e = .ok a where
  captured hrun hu := by
    obtain ⟨-, rfl⟩ := runs_lift.mp hrun
    exact hu
  result hrun _ _ hl := by
    obtain ⟨he, rfl⟩ := runs_lift.mp hrun
    exact ⟨hl, he⟩

theorem mapM {f : α → Tagging β} {Q : α → Registry → Bool → β → Prop} : ∀ {as : List α},
    (∀ a ∈ as, Sound c P (f a) (Q a)) →
      Sound c P (as.mapM f) fun r replaced bs => List.Forall₂ (fun a b => Q a r replaced b) as bs
  | [], _ => by
    rw [List.mapM_nil]
    exact Sound.pure fun _ _ => .nil
  | a :: as, h => by
    obtain ⟨ha, has⟩ := List.forall_mem_cons.mp h
    rw [List.mapM_cons]
    exact ha.bind fun b => (mapM has).bind fun bs => Sound.pure fun _ _ hbs hb => .cons hb hbs

end Sound

end QueryCompiler.Tagging
