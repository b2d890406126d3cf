import Mathlib.Algebra.BigOperators.Group.Finset.Basic
import Mathlib.Algebra.Order.BigOperators.Group.Finset
import Mathlib.Data.Finset.Max
import Megakernel.Lts

/-!
# Threads that wait for each other

Every thread goes through its phases in turn. Before a phase it may have to wait for
others, until they have completed all the phases before it as well: at a barrier for
the threads of its block, at a shuffle for the lanes of its warp. Apart from that the
threads run in any order, one phase at a time.

How far the threads have come is a cut (`Threads.run_cut`): who is past a phase has seen
the others arrive there. Every cut is reached by some order (`Threads.exists_reach`), and
so in particular the threads never get stuck.

The library does not say what a phase does. It is used with the six phases of OP_RMSNORM, both for
the proof that most shapes are safe and for the order that breaks the others.
-/

namespace Phases

variable {T σ : Type*}

/-- Threads that work on a common state. `waits` says for whom a thread waits in front of a phase;
it may be nobody, the lanes of its warp, or its whole block. -/
structure Threads (T σ : Type*) : Type _ where
  /-- the number of phases of a thread -/
  len : T → ℕ
  /-- before this phase the thread waits for the other -/
  waits : ℕ → T → T → Prop
  /-- what a phase of a thread does -/
  phase : ℕ → T → σ → σ

/-- The common state, and the number of phases that every thread has completed. -/
structure State (T σ : Type*) : Type _ where
  mem : σ
  pc : T → ℕ

namespace Threads

variable [DecidableEq T] (P : Threads T σ)

/-- The thread need not wait: those it would wait for have completed all the phases before this one.
-/
def Ready (pc : T → ℕ) (t : T) : Prop :=
  pc t < P.len t ∧ ∀ t', P.waits (pc t) t t' → pc t ≤ pc t'

/-- The thread runs its next phase. -/
def next (s : State T σ) (t : T) : State T σ :=
  ⟨P.phase (s.pc t) t s.mem, Function.update s.pc t (s.pc t + 1)⟩

theorem next_pc_self (s : State T σ) (t : T) : (P.next s t).pc t = s.pc t + 1 :=
  Function.update_self _ _ _

theorem next_pc_of_ne (s : State T σ) {t t' : T} (h : t' ≠ t) : (P.next s t).pc t' = s.pc t' :=
  Function.update_of_ne h _ _

/-- The threads in any order. -/
def lts (m₀ : σ) : Lts (State T σ) T where
  init s := s = ⟨m₀, fun _ => 0⟩
  step s t s' := P.Ready s.pc t ∧ s' = P.next s t

/-- How far the threads may have come at a time. A thread past a phase has been waited for there,
and so nobody it waited for is behind that phase. -/
structure Cut (pc : T → ℕ) : Prop where
  le : ∀ t, pc t ≤ P.len t
  waits : ∀ p t t', P.waits p t t' → p < pc t → p ≤ pc t'

variable {P} {m₀ : σ} {τ : List T} {s : State T σ}

theorem le_update_succ (pc : T → ℕ) (t t' : T) : pc t' ≤ Function.update pc t (pc t + 1) t' := by
  obtain rfl | hne := eq_or_ne t' t
  · rw [Function.update_self]
    exact Nat.le_succ _
  · rw [Function.update_of_ne hne]

theorem Cut.next {pc : T → ℕ} (h : P.Cut pc) {t : T} (ht : P.Ready pc t) :
    P.Cut (Function.update pc t (pc t + 1)) where
  le t' := by
    obtain rfl | hne := eq_or_ne t' t
    · rw [Function.update_self]
      exact ht.1
    · rw [Function.update_of_ne hne]
      exact h.le t'
  waits p u u' hwaits hlt := by
    refine le_trans ?_ (le_update_succ pc t u')
    obtain rfl | hne := eq_or_ne u t
    · rw [Function.update_self] at hlt
      obtain hlt | rfl := Nat.lt_succ_iff_lt_or_eq.mp hlt
      · exact h.waits p u u' hwaits hlt
      · exact ht.2 u' hwaits
    · rw [Function.update_of_ne hne] at hlt
      exact h.waits p u u' hwaits hlt

/-- **The threads have come to a cut**, at any time. -/
theorem run_cut (h : (P.lts m₀).Run τ s) : P.Cut s.pc := by
  refine Lts.Run.inv (I := fun _ s => P.Cut s.pc) ?_ ?_ h
  · rintro s rfl
    exact ⟨fun t => Nat.zero_le _, fun p t t' _ hlt => absurd hlt (Nat.not_lt_zero p)⟩
  · rintro τ s t s' - ih ⟨ht, rfl⟩
    exact ih.next ht

/-- If something is left up to a cut, the thread that is furthest behind need not wait. -/
theorem Cut.exists_ready {q : T → ℕ} (hq : P.Cut q) {S : Finset T} {pc : T → ℕ}
    (hle : ∀ t, pc t ≤ q t) (h : ∃ t ∈ S, pc t < q t) (hS : ∀ t ∉ S, q t = 0) :
    ∃ t ∈ S, pc t < q t ∧ P.Ready pc t := by
  obtain ⟨t₀, ht₀, hlt₀⟩ := h
  obtain ⟨t, ht, hmin⟩ := (S.filter fun t => pc t < q t).exists_min_image pc
    ⟨t₀, Finset.mem_filter.mpr ⟨ht₀, hlt₀⟩⟩
  obtain ⟨hmem, hlt⟩ := Finset.mem_filter.mp ht
  refine ⟨t, hmem, hlt, hlt.trans_le (hq.le t), fun t' hwaits => ?_⟩
  have hge := hq.waits _ t t' hwaits hlt
  obtain hlt' | heq := (hle t').lt_or_eq
  · refine hmin t' (Finset.mem_filter.mpr ⟨?_, hlt'⟩)
    by_contra hnot
    rw [hS t' hnot] at hlt'
    exact Nat.not_lt_zero _ hlt'
  · rwa [heq]

/-- **Every cut ahead is reached.** For a cut that the waiting allows there is an order of the
threads that stops exactly there, which is how a race is exhibited. -/
theorem exists_reach {S : Finset T} {q : T → ℕ} (hq : P.Cut q) (hS : ∀ t ∉ S, q t = 0)
    (h : (P.lts m₀).Run τ s) (hle : ∀ t, s.pc t ≤ q t) :
    ∃ τ' s', (P.lts m₀).Run (τ' ++ τ) s' ∧ s'.pc = q := by
  induction hn : ∑ t ∈ S, (q t - s.pc t) generalizing τ s with
  | zero =>
    refine ⟨[], s, h, funext fun t => ?_⟩
    by_cases ht : t ∈ S
    · have hzero := Finset.sum_eq_zero_iff.mp hn t ht
      have hthis := hle t
      omega
    · have hzero := hS t ht
      have hthis := hle t
      omega
  | succ n ih =>
    have hleft : ∃ t ∈ S, s.pc t < q t := by
      by_contra hnone
      push Not at hnone
      have hzero : ∑ t ∈ S, (q t - s.pc t) = 0 :=
        Finset.sum_eq_zero fun t ht => Nat.sub_eq_zero_of_le (hnone t ht)
      omega
    obtain ⟨t, ht, hlt, hready⟩ := hq.exists_ready hle hleft hS
    have hle' : ∀ t', (P.next s t).pc t' ≤ q t' := by
      intro t'
      obtain rfl | hne := eq_or_ne t' t
      · rw [next_pc_self]
        exact hlt
      · rw [next_pc_of_ne P s hne]
        exact hle t'
    have hsum : ∑ t' ∈ S, (q t' - (P.next s t).pc t') = n := by
      have hsame : ∀ t' ∈ S.erase t, q t' - (P.next s t).pc t' = q t' - s.pc t' := by
        intro t' ht'
        rw [next_pc_of_ne P s (Finset.ne_of_mem_erase ht')]
      rw [← Finset.add_sum_erase S _ ht] at hn ⊢
      rw [Finset.sum_congr rfl hsame, next_pc_self]
      omega
    obtain ⟨τ', s', hrun, hpc⟩ := ih (.snoc h ⟨hready, rfl⟩) hle' hsum
    exact ⟨τ' ++ [t], s', by rwa [List.append_assoc], hpc⟩

/-- The order of the threads determines the state. Whether a value depends on the order is the
question that is left. -/
theorem run_unique {s' : State T σ} (h : (P.lts m₀).Run τ s) (h' : (P.lts m₀).Run τ s') :
    s = s' := by
  refine Lts.Run.unique_of (fun s s' hs hs' => ?_) (fun s t s₁ s₂ hs₁ hs₂ => ?_) h h'
  · exact hs.trans hs'.symm
  · exact hs₁.2.trans hs₂.2.symm

/-- What every step keeps, holds later in the run. -/
theorem run_append {I : State T σ → Prop} (hI : ∀ s t, I s → P.Ready s.pc t → I (P.next s t))
    {τ' : List T} {s' : State T σ} (h : (P.lts m₀).Run τ s) (hs : I s)
    (h' : (P.lts m₀).Run (τ' ++ τ) s') : I s' := by
  induction τ' generalizing s' with
  | nil => exact run_unique h h' ▸ hs
  | cons t τ' ih =>
    obtain ⟨s₁, hr, hready, rfl⟩ := Lts.Run.of_cons h'
    exact hI s₁ t (ih hr) hready

end Threads

end Phases
