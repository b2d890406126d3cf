import Mathlib.Algebra.Group.Defs
import Mathlib.Data.List.Basic
import Megakernel.Numerals

/-!
# Programs with a state and exceptions

A program over states `σ` that may throw an `ε`. An exception keeps the state it
was thrown in, so that what a program did before it failed can be spoken about.

`Triple P m Q E` is total correctness in the usual form: from a state with `P`,
`m` returns a value and a state with `Q`, or throws in a state with `E`. The rules
follow the constructs of a program.

A program is a function of its state, and the rules are proved by unfolding it once. `Appends` is a
second way to speak about a program, for writers: two of them, one after the other, add one after
the other.
-/

/-- Programs over states `σ` that return an `α` or throw an `ε`. The result comes with a state in
both cases, so that a failure can be asked what it has done before. -/
def Prog (ε σ α : Type) : Type := σ → Except ε α × σ

namespace Prog

variable {ε σ α β : Type}

instance : Monad (Prog ε σ) where
  pure a := fun s => (.ok a, s)
  bind m f := fun s =>
    match m s with
    | (.ok a, s') => f a s'
    | (.error e, s') => (.error e, s')

/-- Throw an exception. -/
def fail (e : ε) : Prog ε σ α := fun s => (.error e, s)

/-- Throw an exception if a condition holds. -/
def failIf (c : Prop) [Decidable c] (e : ε) : Prog ε σ Unit := if c then fail e else pure ()

/-- Throw an exception if the state meets a condition. -/
def failWhen (c : σ → Prop) [DecidablePred c] (e : σ → ε) : Prog ε σ Unit := fun s =>
  if c s then (.error (e s), s) else (.ok (), s)

/-- Read something off the state and change the state. -/
def act (f : σ → α × σ) : Prog ε σ α := fun s => (.ok (f s).1, (f s).2)

/-- Do the same `n` times and collect the results. -/
def times (m : Prog ε σ α) : ℕ → Prog ε σ (List α)
  | 0 => pure []
  | n + 1 => do
    let a ← m
    let as ← times m n
    return a :: as

/-- Do something with every element of a list, in order. -/
def forEach (f : α → Prog ε σ β) : List α → Prog ε σ (List β)
  | [] => pure []
  | a :: as => do
    let b ← f a
    let bs ← forEach f as
    return b :: bs

/-- From a state with `P` the program returns with `Q` or throws with `E`. There are no loops
without a bound in these programs, so that this is total correctness. -/
def Triple (P : σ → Prop) (m : Prog ε σ α) (Q : α → σ → Prop) (E : σ → Prop) : Prop :=
  ∀ s, P s →
    match m s with
    | (.ok a, s') => Q a s'
    | (.error _, s') => E s'

section Rules

variable {P P' E : σ → Prop} {Q Q' : α → σ → Prop} {R : β → σ → Prop} {m : Prog ε σ α}

theorem Triple.pure {a : α} (h : ∀ s, P s → Q a s) : Triple P (pure a : Prog ε σ α) Q E := h

theorem Triple.fail {e : ε} (h : ∀ s, P s → E s) : Triple P (fail e : Prog ε σ α) Q E := h

/-- The rule of sequence. An exception of either part is one of the whole, with the state it was
thrown in. -/
theorem Triple.bind {f : α → Prog ε σ β} (hm : Triple P m Q E)
    (hf : ∀ a, Triple (Q a) (f a) R E) : Triple P (m >>= f) R E := by
  intro s hs
  have h := hm s hs
  simp only [Bind.bind]
  rcases hms : m s with ⟨e | a, s'⟩
  · rw [hms] at h
    exact h
  · rw [hms] at h
    exact hf a s' h

/-- The rule of consequence. -/
theorem Triple.conseq (h : Triple P m Q E) (hP : ∀ s, P' s → P s)
    (hQ : ∀ a s, Q a s → Q' a s) : Triple P' m Q' E := by
  intro s hs
  have hm := h s (hP s hs)
  rcases hms : m s with ⟨e | a, s'⟩
  · rw [hms] at hm
    exact hm
  · rw [hms] at hm
    exact hQ a s' hm

theorem Triple.failIf {c : Prop} [Decidable c] {e : ε} (h : ∀ s, P s → E s) :
    Triple P (failIf c e : Prog ε σ Unit) (fun _ s => ¬ c ∧ P s) E := by
  intro s hs
  by_cases hc : c
  · rw [Prog.failIf, if_pos hc]
    exact h s hs
  · rw [Prog.failIf, if_neg hc]
    exact ⟨hc, hs⟩

theorem Triple.failWhen {c : σ → Prop} [DecidablePred c] {e : σ → ε} (h : ∀ s, P s → E s) :
    Triple P (failWhen c e : Prog ε σ Unit) (fun _ s => P s ∧ ¬ c s) E := by
  intro s hs
  simp only [Prog.failWhen]
  by_cases hc : c s
  · rw [if_pos hc]
    exact h s hs
  · rw [if_neg hc]
    exact ⟨hs, hc⟩

theorem Triple.act {f : σ → α × σ} (h : ∀ s, P s → Q (f s).1 (f s).2) :
    Triple P (act f : Prog ε σ α) Q E := h

/-- A fact that does not speak of the state may be assumed. -/
theorem Triple.assume {φ : Prop} (h : φ → Triple P m Q E) : Triple (fun s => φ ∧ P s) m Q E := by
  rintro s ⟨hφ, hs⟩
  exact h hφ s hs

/-- The rule of repetition: `P` is the invariant, and every result has `V`. -/
theorem Triple.times {V : α → Prop} (hm : Triple P m (fun a s => V a ∧ P s) E) :
    ∀ n, Triple P (m.times n) (fun as s => (∀ a ∈ as, V a) ∧ P s) E
  | 0 => Triple.pure fun _ hs => ⟨nofun, hs⟩
  | n + 1 => by
    refine hm.bind fun a => Triple.assume fun ha => ?_
    refine (Triple.times hm n).bind fun as => Triple.assume fun has => Triple.pure fun _ hs => ?_
    exact ⟨List.forall_mem_cons.mpr ⟨ha, has⟩, hs⟩

/-- The rule of iteration: `P` is the invariant, elements with `V` give results with `W`. -/
theorem Triple.forEach {V : α → Prop} {W : β → Prop} {f : α → Prog ε σ β}
    (hf : ∀ a, V a → Triple P (f a) (fun b s => W b ∧ P s) E) :
    ∀ as, (∀ a ∈ as, V a) → Triple P (forEach f as) (fun bs s => (∀ b ∈ bs, W b) ∧ P s) E
  | [], _ => Triple.pure fun _ hs => ⟨nofun, hs⟩
  | a :: as, has => by
    obtain ⟨ha, has⟩ := List.forall_mem_cons.mp has
    refine (hf a ha).bind fun b => Triple.assume fun hb => ?_
    refine (Triple.forEach hf as has).bind fun bs => Triple.assume fun hbs =>
      Triple.pure fun _ hs => ?_
    exact ⟨List.forall_mem_cons.mpr ⟨hb, hbs⟩, hs⟩

end Rules

/-- A sequence returns if both parts do. -/
theorem bind_eq_ok {m : Prog ε σ α} {f : α → Prog ε σ β} {s s' : σ} {b : β} :
    (m >>= f) s = (.ok b, s') ↔ ∃ a s₁, m s = (.ok a, s₁) ∧ f a s₁ = (.ok b, s') := by
  simp only [Bind.bind]
  rcases m s with ⟨_ | a, s₁⟩
  · simp
  · simp

/-! ## Programs that add to the state -/

section Appends

variable [Monoid σ]

/-- The program adds to the state what it makes of the empty state, whatever is there already.
Writers whose output never depends on what has been written are of this kind. -/
def Appends (m : Prog ε σ α) : Prop := ∀ s, m s = ((m 1).1, s * (m 1).2)

theorem Appends.fail (e : ε) : Appends (Prog.fail e : Prog ε σ α) := fun s =>
  congrArg (Prod.mk _) (mul_one s).symm

/-- Adding a piece that does not depend on the state. -/
theorem Appends.act {f : σ → α × σ} {a : α} {d : σ} (h : ∀ s, f s = (a, s * d)) :
    Appends (Prog.act f : Prog ε σ α) := by
  intro s
  simp only [Prog.act, h, one_mul]

theorem Appends.bind {m : Prog ε σ α} {f : α → Prog ε σ β} (hm : Appends m)
    (hf : ∀ a, Appends (f a)) : Appends (m >>= f) := by
  intro s
  have hs := hm s
  rcases hone : m 1 with ⟨_ | a, d⟩ <;> rw [hone] at hs
  · simp only [Bind.bind, hone, hs]
  · simp only [Bind.bind, hone, hs]
    rw [hf a (s * d), hf a d, mul_assoc]

end Appends

end Prog
