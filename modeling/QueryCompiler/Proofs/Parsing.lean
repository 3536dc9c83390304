import QueryCompiler.Parsing
/-
# What parsers give

A parser keeps a property of symbols when what it leaves has the property as far as its input had
it.  What it makes of such symbols has a property of its own.  Both go through the ways in which
parsers are put together.

* `Parser.Gives`: what a parser makes of symbols that are as they should be;
* `Parser.Gives.bind`, `Parser.Gives.repeatWhile`: one parser after another, and one many times;
* `Parser.Gives.run?`: what a parser makes of a whole input.
-/
namespace QueryCompiler

namespace Parser

variable {τ α β : Type} {W : τ → Prop} {P Q : α → Prop} {R : β → Prop}

/-- From symbols with the property `W` the parser makes something with the property `P`, and the
symbols it leaves have the property `W`. -/
def Gives (W : τ → Prop) (p : Parser τ α) (P : α → Prop) : Prop :=
  ∀ ⦃ts a rest⦄, (∀ t ∈ ts, W t) → p ts = some (a, rest) → P a ∧ ∀ t ∈ rest, W t

namespace Gives

theorem mono {p : Parser τ α} (h : Gives W p P) (hPQ : ∀ a, P a → Q a) : Gives W p Q :=
  fun _ _ _ hts hp => (h hts hp).imp_left (hPQ _)

theorem pure {a : α} (h : P a) : Gives W (Pure.pure a : Parser τ α) P := by
  intro ts b rest hts hp
  obtain ⟨rfl, rfl⟩ := Prod.mk.inj (Option.some.inj hp)
  exact ⟨h, hts⟩

theorem failure : Gives W (Alternative.failure : Parser τ α) P :=
  fun _ _ _ _ hp => absurd hp nofun

theorem bind {p : Parser τ α} {f : α → Parser τ β} (hp : Gives W p P)
    (hf : ∀ a, P a → Gives W (f a) R) : Gives W (p >>= f) R := by
  intro ts b rest hts h
  obtain ⟨⟨a, left⟩, ha, hb⟩ := Option.bind_eq_some_iff.mp h
  obtain ⟨hP, hleft⟩ := hp hts ha
  exact hf a hP hleft hb

theorem map {p : Parser τ α} {f : α → β} (hp : Gives W p P) (hf : ∀ a, P a → R (f a)) :
    Gives W (f <$> p) R := by
  rw [← bind_pure_comp]
  exact hp.bind fun a ha => .pure (hf a ha)

theorem seqRight {p : Parser τ α} {q : Parser τ β} (hp : Gives W p P) (hq : Gives W q R) :
    Gives W (p *> q) R :=
  hp.bind fun _ _ => hq

/-- Two ways to something with which the parser goes on. -/
theorem ite_bind {c : Prop} [Decidable c] {p q : Parser τ α} {f : α → Parser τ β}
    (hp : Gives W p P) (hq : Gives W q P) (hf : ∀ a, P a → Gives W (f a) R) :
    Gives W (if c then p >>= f else q >>= f) R := by
  split
  · exact hp.bind hf
  · exact hq.bind hf

/-- A parser that does not go on when something is amiss. -/
theorem ite_failure {c : Prop} [Decidable c] {p : Parser τ β} (h : ¬ c → Gives W p R) :
    Gives W (if c then (Alternative.failure : Parser τ PUnit) >>= fun _ => p else p) R := by
  split
  · exact fun _ _ _ _ hp => absurd hp nofun
  · exact h ‹_›

/-- A parser that takes the next symbol when it knows it. -/
theorem next? {f : τ → Option α} (h : ∀ t a, W t → f t = some a → P a) :
    Gives W (Parser.next? f) P := by
  intro ts a rest hts hp
  cases ts with
  | nil => exact absurd hp nofun
  | cons t ts =>
    obtain ⟨ht, hts⟩ := List.forall_mem_cons.mp hts
    obtain ⟨b, hb, heq⟩ := Option.map_eq_some_iff.mp hp
    obtain ⟨rfl, rfl⟩ := Prod.mk.inj heq
    exact ⟨h t b ht hb, hts⟩

theorem peek {p : τ → Bool} : Gives W (Parser.peek p) fun _ => True := by
  intro ts b rest hts hp
  obtain ⟨-, rfl⟩ := Prod.mk.inj (Option.some.inj hp)
  exact ⟨trivial, hts⟩

theorem rounds {again : List τ → Bool} {p : Parser τ α} (h : Gives W p P) :
    ∀ n : Nat, Gives W (Parser.rounds again p n) fun as => ∀ a ∈ as, P a
  | 0 => by
    intro ts as rest hts hp
    rw [Parser.rounds] at hp
    split at hp
    · exact absurd hp nofun
    · obtain ⟨rfl, rfl⟩ := Prod.mk.inj (Option.some.inj hp)
      exact ⟨nofun, hts⟩
  | n + 1 => by
    intro ts as rest hts hp
    rw [Parser.rounds] at hp
    split at hp
    · simp only [Option.bind_eq_bind, Option.bind_eq_some_iff, Option.pure_def] at hp
      obtain ⟨⟨a, left⟩, ha, ⟨others, left'⟩, hothers, heq⟩ := hp
      obtain ⟨rfl, rfl⟩ := Prod.mk.inj (Option.some.inj heq)
      obtain ⟨hP, hleft⟩ := h hts ha
      obtain ⟨hPs, hrest⟩ := rounds h n hleft hothers
      exact ⟨List.forall_mem_cons.mpr ⟨hP, hPs⟩, hrest⟩
    · obtain ⟨rfl, rfl⟩ := Prod.mk.inj (Option.some.inj hp)
      exact ⟨nofun, hts⟩

/-- **What a parser gives in every round.** -/
theorem repeatWhile {again : List τ → Bool} {p : Parser τ α} (h : Gives W p P) :
    Gives W (Parser.repeatWhile again p) fun as => ∀ a ∈ as, P a :=
  fun ts _ _ hts hp => h.rounds ts.length hts hp

theorem run? {p : Parser τ α} (h : Gives W p P) {ts : List τ} {a : α} (hts : ∀ t ∈ ts, W t)
    (hp : p.run? ts = some a) : P a := by
  rw [Parser.run?] at hp
  split at hp
  · rename_i b hrun
    obtain rfl := Option.some.inj hp
    exact (h hts hrun).1
  · exact absurd hp nofun

end Gives

end Parser

end QueryCompiler
