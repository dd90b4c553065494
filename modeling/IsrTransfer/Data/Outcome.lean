import Mathlib.Tactic.Common

/-!
# Outcomes of computations that may fail

`Yields` says that a computation succeeds, and what of its result; `Refines` compares one that
may fail in several ways with a description of it that just may fail: where this has no result
the computation fails in the one way that is allowed, and elsewhere it succeeds.  `Ends` is for
computations that may fail in some ways for reasons that are not described.

The rules follow the structure of a computation in a monad.  A step that succeeds hands its result
to what follows, whichever of the three is to be shown of the whole (`Yields.bind`,
`Yields.refines_bind`, `Yields.ends_bind`).
-/

namespace IsrTransfer
namespace Outcome

variable {ε α β γ δ : Type}

/-- The computation succeeds with a result that satisfies `P`. -/
def Yields (r : Except ε α) (P : α → Prop) : Prop := ∃ a, r = .ok a ∧ P a

/-- The computation does what `o` says, and where that is nothing it fails with `e`. -/
inductive Refines (e : ε) (R : α → β → Prop) : Except ε α → Option β → Prop where
  | fails : Refines e R (.error e) none
  | yields {a : α} {b : β} (h : R a b) : Refines e R (.ok a) (some b)

/-- The computation succeeds with a result that satisfies `P`, or fails in a way that is allowed. -/
inductive Ends (E : ε → Prop) (P : α → Prop) : Except ε α → Prop where
  | ok {a : α} (h : P a) : Ends E P (.ok a)
  | error {e : ε} (h : E e) : Ends E P (.error e)

theorem Yields.pure {P : α → Prop} {a : α} (h : P a) : Yields (ε := ε) (Pure.pure a) P :=
  ⟨a, rfl, h⟩

theorem Yields.mono {r : Except ε α} {P Q : α → Prop} (hr : Yields r P) (h : ∀ a, P a → Q a) :
    Yields r Q := by
  obtain ⟨a, rfl, ha⟩ := hr
  exact ⟨a, rfl, h a ha⟩

theorem Yields.bind {r : Except ε α} {f : α → Except ε β} {P : α → Prop} {Q : β → Prop}
    (hr : Yields r P) (h : ∀ a, P a → Yields (f a) Q) : Yields (r >>= f) Q := by
  obtain ⟨a, rfl, ha⟩ := hr
  exact h a ha

theorem Yields.refines_bind {e : ε} {r : Except ε α} {f : α → Except ε β} {P : α → Prop}
    {R : β → γ → Prop} {o : Option γ} (hr : Yields r P) (h : ∀ a, P a → Refines e R (f a) o) :
    Refines e R (r >>= f) o := by
  obtain ⟨a, rfl, ha⟩ := hr
  exact h a ha

theorem Yields.ends_bind {E : ε → Prop} {r : Except ε α} {f : α → Except ε β} {P : α → Prop}
    {Q : β → Prop} (hr : Yields r P) (h : ∀ a, P a → Ends E Q (f a)) : Ends E Q (r >>= f) := by
  obtain ⟨a, rfl, ha⟩ := hr
  exact h a ha

theorem Ends.bind {E : ε → Prop} {r : Except ε α} {f : α → Except ε β} {P : α → Prop}
    {Q : β → Prop} (hr : Ends E P r) (h : ∀ a, P a → Ends E Q (f a)) : Ends E Q (r >>= f) := by
  cases hr with
  | ok ha => exact h _ ha
  | error he => exact .error he

theorem Ends.mono {E : ε → Prop} {r : Except ε α} {P Q : α → Prop} (hr : Ends E P r)
    (h : ∀ a, P a → Q a) : Ends E Q r := by
  cases hr with
  | ok ha => exact .ok (h _ ha)
  | error he => exact .error he

theorem Refines.mono {e : ε} {r : Except ε α} {R S : α → β → Prop} {o : Option β}
    (hr : Refines e R r o) (h : ∀ a b, R a b → S a b) : Refines e S r o := by
  cases hr with
  | fails => exact .fails
  | yields hab => exact .yields (h _ _ hab)

/-- One step after another. -/
theorem Refines.bind_of_eq {e : ε} {r : Except ε α} {f : α → Except ε γ} {o : Option β}
    {g : β → Option δ} {R : α → β → Prop} {S : γ → δ → Prop} (hr : Refines e R r o)
    (h : ∀ a b, o = some b → R a b → Refines e S (f a) (g b)) :
    Refines e S (r >>= f) (o.bind g) := by
  cases hr with
  | fails => exact .fails
  | yields hab => exact h _ _ rfl hab

theorem Refines.bind {e : ε} {r : Except ε α} {f : α → Except ε γ} {o : Option β}
    {g : β → Option δ} {R : α → β → Prop} {S : γ → δ → Prop} (hr : Refines e R r o)
    (h : ∀ a b, R a b → Refines e S (f a) (g b)) : Refines e S (r >>= f) (o.bind g) :=
  hr.bind_of_eq fun a b _ => h a b

theorem Refines.map {e : ε} {r : Except ε α} {o : Option β} {g : β → δ} {R : α → β → Prop}
    {S : α → δ → Prop} (hr : Refines e R r o) (h : ∀ a b, R a b → S a (g b)) :
    Refines e S r (o.map g) := by
  cases hr with
  | fails => exact .fails
  | yields hab => exact .yields (h _ _ hab)

end Outcome
end IsrTransfer
