import Mathlib.Data.List.Forall2
import Mathlib.Data.List.Perm.Basic
import Mathlib.Control.Lawful
/-
# What a success says

A computation that can fail is a chain of steps, and when the whole of it succeeds so did every
step.  These lemmas take such a success apart: one step after another (`bind_eq_ok`), or all
items of a list at once (`mapM_eq_ok`, `exists_mapM_eq_ok`).
-/
namespace QueryCompiler

variable {ε α β : Type}

/-- A failure is no success. -/
theorem error_ne_ok {e : ε} {a : α} : Except.error e ≠ .ok a := nofun

/-- A chain of two steps succeeds when both do. -/
theorem bind_eq_ok {x : Except ε α} {f : α → Except ε β} {b : β} :
    x >>= f = .ok b ↔ ∃ a, x = .ok a ∧ f a = .ok b := by
  cases x with
  | error e => exact ⟨nofun, nofun⟩
  | ok a => exact ⟨fun h => ⟨a, rfl, h⟩, fun ⟨_, ha, h⟩ => Except.ok.inj ha ▸ h⟩

theorem pure_eq_ok {a b : α} : (pure a : Except ε α) = .ok b ↔ a = b :=
  ⟨fun h => Except.ok.inj h, fun h => h ▸ rfl⟩

/-- What is made of a result is there when the result is. -/
theorem map_eq_ok {x : Except ε α} {f : α → β} {b : β} :
    x.map f = .ok b ↔ ∃ a, x = .ok a ∧ f a = b := by
  cases x with
  | error e => exact ⟨nofun, nofun⟩
  | ok a => exact ⟨fun h => ⟨a, rfl, Except.ok.inj h⟩, fun ⟨_, ha, h⟩ => Except.ok.inj ha ▸ h ▸ rfl⟩

/-- A step over a list succeeds when it does for every item. -/
theorem mapM_eq_ok {f : α → Except ε β} : ∀ {as : List α} {bs : List β},
    as.mapM f = .ok bs ↔ List.Forall₂ (fun a b => f a = .ok b) as bs
  | [], bs => by rw [List.mapM_nil, pure_eq_ok, List.forall₂_nil_left_iff, eq_comm]
  | a :: as, bs => by
    simp only [List.mapM_cons, bind_eq_ok, pure_eq_ok, List.forall₂_cons_left_iff]
    constructor
    · rintro ⟨b, hb, rest, hrest, rfl⟩
      exact ⟨b, rest, hb, mapM_eq_ok.mp hrest, rfl⟩
    · rintro ⟨b, rest, hb, hrest, rfl⟩
      exact ⟨b, hb, rest, mapM_eq_ok.mpr hrest, rfl⟩

/-- The results are those that a total step has. -/
theorem eq_map_of_mapM {f : α → Except ε β} {g : α → β} (hg : ∀ a b, f a = .ok b → b = g a)
    {as : List α} {bs : List β} (h : as.mapM f = .ok bs) : bs = as.map g := by
  have hall := (mapM_eq_ok.mp h).flip.imp fun b a hb => hg a b hb
  rw [← List.forall₂_eq_eq_eq, List.forall₂_map_right_iff]
  exact hall

theorem exists_mapM_eq_ok {f : α → Except ε β} : ∀ {as : List α},
    (∃ bs, as.mapM f = .ok bs) ↔ ∀ a ∈ as, ∃ b, f a = .ok b
  | [] => iff_of_true ⟨[], rfl⟩ fun _ ha => absurd ha List.not_mem_nil
  | a :: as => by
    simp only [List.mapM_cons, bind_eq_ok, pure_eq_ok, List.forall_mem_cons, ← exists_mapM_eq_ok]
    constructor
    · rintro ⟨_, b, hb, bs, hbs, -⟩
      exact ⟨⟨b, hb⟩, bs, hbs⟩
    · rintro ⟨⟨b, hb⟩, bs, hbs⟩
      exact ⟨_, b, hb, bs, hbs, rfl⟩

/-- A step over a list fails with the failure of some item. -/
theorem exists_of_mapM_eq_error {f : α → Except ε β} {e : ε} : ∀ {as : List α},
    as.mapM f = .error e → ∃ a ∈ as, f a = .error e
  | [], h => absurd h nofun
  | a :: as, h => by
    rw [List.mapM_cons] at h
    cases ha : f a with
    | error e' =>
      rw [ha] at h
      obtain rfl := Except.error.inj h
      exact ⟨a, List.mem_cons_self, ha⟩
    | ok b =>
      cases has : as.mapM f with
      | error e' =>
        rw [ha, has] at h
        obtain rfl := Except.error.inj h
        obtain ⟨a', ha', he⟩ := exists_of_mapM_eq_error has
        exact ⟨a', List.mem_cons_of_mem _ ha', he⟩
      | ok bs =>
        rw [ha, has] at h
        exact absurd h nofun

/-- The results come in the order of the items. -/
theorem mapM_perm {f : α → Except ε β} {as as' : List α} {bs : List β} (hperm : as.Perm as')
    (h : as.mapM f = .ok bs) : ∃ bs', as'.mapM f = .ok bs' ∧ bs.Perm bs' := by
  obtain ⟨bs', hbs', hperm'⟩ := List.perm_comp_forall₂ hperm.symm (mapM_eq_ok.mp h)
  exact ⟨bs', mapM_eq_ok.mpr hbs', hperm'.symm⟩

/-- Items with their results are those that the items have one by one. -/
theorem zip_mapM {f : α → Except ε β} {as : List α} {bs : List β} (h : as.mapM f = .ok bs) :
    as.zip bs = as.filterMap fun a => (f a).toOption.map (a, ·) := by
  have hall := mapM_eq_ok.mp h
  clear h
  induction hall with
  | nil => rfl
  | cons hb _ ih =>
    rw [List.zip_cons_cons, ih, List.filterMap_cons, hb]
    rfl

/-- Every item on the right has one on the left that it is related to. -/
theorem exists_of_forall₂ {R : α → β → Prop} : ∀ {as : List α} {bs : List β},
    List.Forall₂ R as bs → ∀ {b : β}, b ∈ bs → ∃ a ∈ as, R a b
  | _, _, .nil, _, hb => absurd hb List.not_mem_nil
  | _, _, .cons h hs, _, hb => by
    rcases List.mem_cons.mp hb with rfl | hb
    · exact ⟨_, List.mem_cons_self, h⟩
    · obtain ⟨a, ha, hR⟩ := exists_of_forall₂ hs hb
      exact ⟨a, List.mem_cons_of_mem _ ha, hR⟩

end QueryCompiler
