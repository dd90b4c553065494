import Mathlib.Init

/-!
# Programs that interact with an environment

A program is a tree: a leaf returns a value, a node issues one operation and has
one subtree for every reply the environment may give.  Operations are typed by
their replies, `Op ρ`.  Nothing in the tree says what an operation does; that is
the business of an *environment*, a relation between a state, an operation, a
reply and the state afterwards.

The same program can therefore be run against a file system that fails, a peer
that sends arbitrary bytes, or a second program at the other end of a channel,
and it is one and the same definition that is read against the source.

## What is proved about a program

`Ensures E A p Q s` says: whatever the environment `E` answers, every operation
`p` issues from `s` is issued in a state that satisfies `A`, and every value it
returns satisfies `Q`.  `ensures_iff_reaches` identifies it with the statement
about runs: `A` at every operation that is reached, `Q` at every result.  The
rules below (`ensures_bind`, `Ensures.mono`, `Ensures.and`) are what the proofs
about programs use; no proof unfolds a whole program.

Choosing `A` gives the usual readings: `fun _ _ => True` is partial correctness,
"the environment has an answer" (`Terminates`) is total correctness --- the tree
has no infinite branch --- and a property of the operation is a safety property.
-/

namespace IsrTransfer
namespace Effect

universe u

/-- A program over the operations `Op`: a value, or an operation with what follows
for every reply. -/
inductive Program (Op : Type → Type u) (α : Type) : Type (max 1 u) where
  | ret : α → Program Op α
  | call : {ρ : Type} → Op ρ → (ρ → Program Op α) → Program Op α

variable {Op : Type → Type u} {ρ σ α β γ : Type}

namespace Program

/-- Run the first program, then the second on its value. -/
def bind : Program Op α → (α → Program Op β) → Program Op β
  | ret a, f => f a
  | call op k, f => call op fun r => (k r).bind f

instance : Monad (Program Op) where
  pure := ret
  bind := bind

/-- Issue one operation and return its reply. -/
def perform (op : Op ρ) : Program Op ρ := call op ret

theorem bind_eq (p : Program Op α) (f : α → Program Op β) : p >>= f = p.bind f := rfl

@[simp] theorem ret_bind (a : α) (f : α → Program Op β) : (ret a).bind f = f a := rfl

@[simp] theorem call_bind (op : Op ρ) (k : ρ → Program Op α) (f : α → Program Op β) :
    (call op k).bind f = call op fun r => (k r).bind f := rfl

theorem bind_ret (p : Program Op α) : p.bind ret = p := by
  induction p with
  | ret a => rfl
  | call op k ih => rw [call_bind, funext ih]

theorem bind_assoc (p : Program Op α) (f : α → Program Op β) (g : β → Program Op γ) :
    (p.bind f).bind g = p.bind fun a => (f a).bind g := by
  induction p with
  | ret a => rfl
  | call op k ih => rw [call_bind, call_bind, call_bind, funext ih]

instance : LawfulMonad (Program Op) :=
  LawfulMonad.mk' (Program Op) bind_ret (fun _ _ => rfl) bind_assoc

end Program

/-- An environment over states `σ`: which replies and next states each operation
may have.  No reply at all means that the operation blocks. -/
abbrev Env (Op : Type → Type u) (σ : Type) : Type (max 1 u) :=
  ⦃ρ : Type⦄ → σ → Op ρ → ρ → σ → Prop

/-- What is asked of an operation in the state in which it is issued. -/
abbrev Guard (Op : Type → Type u) (σ : Type) : Type (max 1 u) :=
  ⦃ρ : Type⦄ → σ → Op ρ → Prop

/-- `q` from `t` is what may be left of `p` from `s` after finitely many
operations. -/
inductive Reaches (E : Env Op σ) : Program Op α → σ → Program Op α → σ → Prop where
  | refl (p : Program Op α) (s : σ) : Reaches E p s p s
  | step {ρ : Type} {op : Op ρ} {k : ρ → Program Op α} {s s' t : σ} {r : ρ}
      {q : Program Op α} : E s op r s' → Reaches E (k r) s' q t →
        Reaches E (Program.call op k) s q t

/-- Every operation `p` issues from `s` satisfies `A`, and every result it
returns satisfies `Q`. -/
def Ensures (E : Env Op σ) (A : Guard Op σ) :
    Program Op α → (α → σ → Prop) → σ → Prop
  | .ret a, Q, s => Q a s
  | .call op k, Q, s => A s op ∧ ∀ r s', E s op r s' → Ensures E A (k r) Q s'

/-- The environment, as far as it keeps to states that satisfy `I`. -/
def Env.restrict (E : Env Op σ) (I : σ → Prop) : Env Op σ := fun _ s op r s' => E s op r s' ∧ I s'

/-- Nothing is asked of the operations themselves. -/
def Anything : Guard Op σ := fun _ _ _ => True

/-- The environment has an answer. -/
def Answered (E : Env Op σ) : Guard Op σ := fun _ s op => ∃ r s', E s op r s'

/-- Total correctness: `p` never blocks, so it returns, and then `Q` holds. -/
abbrev Terminates (E : Env Op σ) : Program Op α → (α → σ → Prop) → σ → Prop :=
  Ensures E (Answered E)

section Rules

variable {E E' : Env Op σ} {A A' : Guard Op σ} {Q Q' : α → σ → Prop}
variable {p : Program Op α} {s : σ}

@[simp] theorem ensures_ret (a : α) : Ensures E A (.ret a) Q s ↔ Q a s := Iff.rfl

@[simp] theorem ensures_pure (a : α) :
    Ensures E A (pure a : Program Op α) Q s ↔ Q a s := Iff.rfl

theorem ensures_call {op : Op ρ} {k : ρ → Program Op α} :
    Ensures E A (.call op k) Q s ↔
      A s op ∧ ∀ r s', E s op r s' → Ensures E A (k r) Q s' := Iff.rfl

theorem ensures_perform {op : Op ρ} {Q : ρ → σ → Prop} :
    Ensures E A (Program.perform op) Q s ↔
      A s op ∧ ∀ r s', E s op r s' → Q r s' := Iff.rfl

@[simp] theorem ensures_bind {f : α → Program Op β} {Q : β → σ → Prop} :
    Ensures E A (p >>= f) Q s ↔
      Ensures E A p (fun a t => Ensures E A (f a) Q t) s := by
  rw [Program.bind_eq]
  induction p generalizing s with
  | ret a => rfl
  | call op k ih =>
    rw [Program.call_bind, ensures_call, ensures_call]
    exact and_congr_right fun _ => forall₃_congr fun r t _ => ih r

@[simp] theorem ensures_map {f : α → β} {Q : β → σ → Prop} :
    Ensures E A (f <$> p) Q s ↔ Ensures E A p (fun a t => Q (f a) t) s := by
  rw [map_eq_pure_bind, ensures_bind]
  rfl

/-- Weaken what is asked of the operations and of the result. -/
theorem Ensures.weaken (h : Ensures E A p Q s) (hA : ∀ (ρ : Type) t (op : Op ρ), A t op → A' t op)
    (hQ : ∀ a t, Q a t → Q' a t) : Ensures E A' p Q' s := by
  induction p generalizing s with
  | ret a => exact hQ a s h
  | call op k ih => exact ⟨hA _ s op h.1, fun r t hr => ih r (h.2 r t hr)⟩

theorem Ensures.mono (h : Ensures E A p Q s) (hQ : ∀ a t, Q a t → Q' a t) :
    Ensures E A p Q' s :=
  h.weaken (fun _ _ _ hA => hA) hQ

/-- An environment with fewer behaviours ensures as much. -/
theorem Ensures.of_env (h : Ensures E A p Q s)
    (hE : ∀ (ρ : Type) t (op : Op ρ) r t', E' t op r t' → E t op r t') : Ensures E' A p Q s := by
  induction p generalizing s with
  | ret a => exact h
  | call op k ih => exact ⟨h.1, fun r t hr => ih r (h.2 r t (hE _ s op r t hr))⟩

theorem Ensures.and {A₁ A₂ : Guard Op σ} {Q₁ Q₂ : α → σ → Prop}
    (h₁ : Ensures E A₁ p Q₁ s) (h₂ : Ensures E A₂ p Q₂ s) :
    Ensures E (fun _ t op => A₁ t op ∧ A₂ t op) p (fun a t => Q₁ a t ∧ Q₂ a t) s := by
  induction p generalizing s with
  | ret a => exact ⟨h₁, h₂⟩
  | call op k ih =>
    exact ⟨⟨h₁.1, h₂.1⟩, fun r t hr => ih r (h₁.2 r t hr) (h₂.2 r t hr)⟩

/-- A relation to the starting state that every step preserves holds at every
operation and at the end: the rule for facts no particular program matters to. -/
theorem Ensures.of_step (R : σ → Prop)
    (hR : ∀ (ρ : Type) t (op : Op ρ) r t', R t → E t op r t' → R t') (hs : R s) :
    Ensures E (fun _ t _ => R t) p (fun _ t => R t) s := by
  induction p generalizing s with
  | ret a => exact hs
  | call op k ih => exact ⟨hs, fun r t hr => ih r (hR _ s op r t hs hr)⟩

/-- Nothing has to be shown for nothing. -/
theorem ensures_anything {E : Env Op σ} (p : Program Op α) {s : σ} :
    Ensures E Anything p (fun _ _ => True) s := by
  induction p generalizing s with
  | ret a => exact trivial
  | call op k ih => exact ⟨trivial, fun r t _ => ih r⟩

theorem ensures_bind_anything {E : Env Op σ} {p : Program Op α} {f : α → Program Op β}
    {Q : β → σ → Prop} {s : σ} (h : ∀ a t, Ensures E Anything (f a) Q t) :
    Ensures E Anything (p >>= f) Q s := by
  rw [ensures_bind]
  exact (ensures_anything p).mono fun a t _ => h a t

/-- A function that leaves all results of a program as they are leaves the program as it is. -/
theorem map_eq_self {f : α → α} {p : Program Op α}
    (h : ∀ (E : Env Op Unit), Ensures E Anything p (fun a _ => f a = a) ()) : f <$> p = p := by
  rw [map_eq_pure_bind, Program.bind_eq]
  induction p with
  | ret a => exact congrArg Program.ret (h fun _ _ _ _ _ => True)
  | call op k ih =>
    rw [Program.call_bind]
    refine congrArg (Program.call op) (funext fun r => ih r fun E => ?_)
    exact (h fun _ _ _ _ _ => True).2 r () trivial |>.of_env fun _ _ _ _ _ _ => trivial

/-! ## Runs -/

theorem Reaches.trans {p q r : Program Op α} {s t u : σ} (h : Reaches E p s q t)
    (h' : Reaches E q t r u) : Reaches E p s r u := by
  induction h with
  | refl => exact h'
  | step hE _ ih => exact .step hE (ih h')

/-- After a run comes one more operation. -/
theorem Reaches.snoc {p : Program Op α} {op : Op ρ} {k : ρ → Program Op α} {s t t' : σ} {r : ρ}
    (h : Reaches E p s (.call op k) t) (hr : E t op r t') : Reaches E p s (k r) t' :=
  h.trans (.step hr (.refl _ _))

/-- A run of the first program is a run of the two in sequence. -/
theorem Reaches.bind {p q : Program Op α} {s t : σ} (h : Reaches E p s q t)
    (f : α → Program Op β) : Reaches E (p.bind f) s (q.bind f) t := by
  induction h with
  | refl => exact .refl _ _
  | step hE _ ih => exact .step hE ih

/-- A run of two programs in sequence is a run of the first and one of the second. -/
theorem Reaches.of_bind {f : α → Program Op β} {b : β} {t : σ}
    (h : Reaches E (p.bind f) s (.ret b) t) :
    ∃ a u, Reaches E p s (.ret a) u ∧ Reaches E (f a) u (.ret b) t := by
  induction p generalizing s with
  | ret a => exact ⟨a, s, .refl _ _, h⟩
  | call op k ih =>
    cases h with
    | step hE h' =>
      obtain ⟨a, u, hk, hf⟩ := ih _ h'
      exact ⟨a, u, .step hE hk, hf⟩

/-- A run that ends in a mapped result is a run of the program itself. -/
theorem Reaches.of_map {f : α → β} {b : β} {t : σ} (h : Reaches E (f <$> p) s (.ret b) t) :
    ∃ a, Reaches E p s (.ret a) t ∧ f a = b := by
  rw [map_eq_pure_bind, Program.bind_eq] at h
  obtain ⟨a, u, hp, hret⟩ := h.of_bind
  cases hret
  exact ⟨a, hp, rfl⟩

theorem Reaches.of_env {p q : Program Op α} {s t : σ} (h : Reaches E' p s q t)
    (hE : ∀ (ρ : Type) t (op : Op ρ) r t', E' t op r t' → E t op r t') : Reaches E p s q t := by
  induction h with
  | refl => exact .refl _ _
  | step hr _ ih => exact .step (hE _ _ _ _ _ hr) ih

/-- What is ensured at the start is ensured of what is left of the program. -/
theorem Ensures.of_reaches {q : Program Op α} {t : σ} (h : Ensures E A p Q s)
    (hr : Reaches E p s q t) : Ensures E A q Q t := by
  induction hr with
  | refl => exact h
  | step hE _ ih => exact ih (h.2 _ _ hE)

/-- What is asked at the operation that is issued, or of the result. -/
def Here (A : Guard Op σ) (Q : α → σ → Prop) : Program Op α → σ → Prop
  | .ret a, s => Q a s
  | .call op _, s => A s op

theorem Ensures.here (h : Ensures E A p Q s) : Here A Q p s := by
  cases p with
  | ret a => exact h
  | call op k => exact h.1

/-- **`Ensures` is a statement about runs**: `A` at every operation a run
reaches, `Q` at every result. -/
theorem ensures_iff_reaches :
    Ensures E A p Q s ↔ ∀ q t, Reaches E p s q t → Here A Q q t := by
  constructor
  · exact fun h q t hr => (h.of_reaches hr).here
  · intro h
    induction p generalizing s with
    | ret a => exact h _ _ (.refl _ _)
    | call op k ih =>
      exact ⟨h _ _ (.refl _ _), fun r t hr => ih r fun q u hq => h q u (.step hr hq)⟩

/-- A program that cannot block has a run to a result. -/
theorem Terminates.exists_ret (h : Terminates E p Q s) :
    ∃ a t, Reaches E p s (.ret a) t ∧ Q a t := by
  induction p generalizing s with
  | ret a => exact ⟨a, s, .refl _ _, h⟩
  | call op k ih =>
    obtain ⟨r, t, hr⟩ := h.1
    obtain ⟨a, u, hu, hQ⟩ := ih r (h.2 r t hr)
    exact ⟨a, u, .step hr hu, hQ⟩

end Rules

/-! ## Restricted environments -/

section Restrict

variable {E : Env Op σ} {A : Guard Op σ} {Q : α → σ → Prop} {p : Program Op α} {s : σ}
variable {I : σ → Prop}

/-- What an environment ensures, it ensures when it is restricted; and the results satisfy
the restriction. -/
theorem Ensures.restrict (h : Ensures E A p (fun a t => I t → Q a t) s) (hs : I s) :
    Ensures (Env.restrict E I) A p Q s := by
  induction p generalizing s with
  | ret a => exact h hs
  | call op k ih => exact ⟨h.1, fun r t hr => ih r (h.2 r t hr.1) hr.2⟩

theorem Reaches.of_restrict {q : Program Op α} {t : σ} (h : Reaches (Env.restrict E I) p s q t) :
    Reaches E p s q t :=
  h.of_env fun _ _ _ _ _ => And.left

/-- A run that starts within the restriction stays within it. -/
theorem Reaches.restrict {q : Program Op α} {t : σ} (h : Reaches (Env.restrict E I) p s q t)
    (hs : I s) : I t := by
  induction h with
  | refl => exact hs
  | step hr _ ih => exact ih hr.2

/-- A program whose operations have an answer within the restriction has a run to a result
within it. -/
theorem Ensures.exists_restrict
    (h : Ensures E (fun _ t op => I t → ∃ r t', E t op r t' ∧ I t') p Q s) (hs : I s) :
    ∃ a t, Reaches (Env.restrict E I) p s (.ret a) t ∧ Q a t := by
  induction p generalizing s with
  | ret a => exact ⟨a, s, .refl _ _, h⟩
  | call op k ih =>
    obtain ⟨r, t, hr, ht⟩ := h.1 hs
    obtain ⟨a, u, hu, hQ⟩ := ih r (h.2 r t hr) ht
    exact ⟨a, u, .step ⟨hr, ht⟩ hu, hQ⟩

end Restrict

/-! ## Running a program -/

/-- Run a program with a function that answers every operation, as long as it has
an answer. -/
def execute (answer : ⦃ρ : Type⦄ → σ → Op ρ → Option (ρ × σ)) :
    Program Op α → σ → Option (α × σ)
  | .ret a, s => some (a, s)
  | .call op k, s =>
    match answer s op with
    | some (r, s') => execute answer (k r) s'
    | none => none

/-- What a program has returned. -/
def returned : Program Op α → Option α
  | .ret a => some a
  | .call _ _ => none

theorem eq_ret_of_returned {p : Program Op α} {a : α} (h : returned p = some a) : p = .ret a := by
  cases p with
  | ret b => rw [Option.some.inj h]
  | call op k => exact absurd h (by simp [returned])

/-- A run computed with answers the environment may give is a run. -/
theorem reaches_of_execute {E : Env Op σ}
    {answer : ⦃ρ : Type⦄ → σ → Op ρ → Option (ρ × σ)}
    (hE : ∀ (ρ : Type) s (op : Op ρ) r s', answer s op = some (r, s') → E s op r s')
    {p : Program Op α} {s t : σ} {a : α} (h : execute answer p s = some (a, t)) :
    Reaches E p s (.ret a) t := by
  induction p generalizing s with
  | ret b =>
    obtain ⟨rfl, rfl⟩ : b = a ∧ s = t := by simpa [execute] using h
    exact .refl _ _
  | call op k ih =>
    rw [execute] at h
    cases hop : answer s op with
    | none => simp [hop] at h
    | some rs =>
      obtain ⟨r, s'⟩ := rs
      rw [hop] at h
      exact .step (hE _ s op r s' hop) (ih r h)

end Effect
end IsrTransfer
