import Mathlib.Algebra.BigOperators.Ring.Finset
import Mathlib.Algebra.Order.BigOperators.Group.Finset
import Mathlib.Data.Fintype.BigOperators
import Megakernel.Lts
import Megakernel.Wrap

/-!
# The grid boundary (`GridBoundary::cross`)

The Y02 boundary of `core/sync.cuh`: one u32 arrival counter that is never
reset. A crossing increments the block's own epoch, release-adds 1 to the
counter and then spins until the counter has reached `epoch * gridDim.x` in the
wrapped signed compare.

The model keeps the three cells as they are (a u32 counter, a u32 epoch and the
place in the code for each block) and takes the four events of a crossing as
separate steps, so that a run is any interleaving of the blocks. True
(unwrapped) epochs and arrival numbers are read off the run's history.

What makes the compare sound is the lead bound: while block `i` spins at its
`e`-th crossing every block has arrived `e - 1`, `e` or `e + 1` times, so the
counter is within `n` of the target (`Grid.Inv.arrives_near`). A release then
means that every block has arrived `e` times (`Grid.Inv.waits_iff`), which in
turn keeps the lead bound.

The lemmas about single events are stated for the counts in the history, so that the cells only
enter through `Inv`, which says that they hold these counts mod `2 ^ 32`. That is also why nothing
happens when a counter wraps.
-/

namespace Megakernel

/-- A C `unsigned`. -/
abbrev U32 : Type := BitVec 32

/-- Where a block stands with respect to `GridBoundary::cross`: outside, or between the four events
of a crossing. -/
inductive Phase : Type where
  /-- not inside `cross` -/
  | out
  /-- epoch incremented, about to `red_add_release_gpu` -/
  | arriving
  /-- counted in, in the spin loop -/
  | spinning
  deriving DecidableEq

/-- The spin test `(int)(ld_acquire_gpu(counter) - epoch * gridDim.x) < 0`. The product wraps as
well, so that after long runs neither side of the comparison is a true count. -/
def spinTest (n : ℕ) (counter epoch : U32) : Bool :=
  Wrap.behind counter (epoch * BitVec.ofNat 32 n)

/-- The counter and, for every block of the grid, its epoch and phase. These are the cells as the
code has them; true counts are read off the history (`enters`, `arrives`, `leaves`). -/
structure Grid (n : ℕ) : Type where
  /-- the arrival counter in device memory -/
  counter : U32
  /-- the per-thread `epoch` of the block's elected thread -/
  epoch : Fin n → U32
  /-- the block's place in `cross` -/
  phase : Fin n → Phase

/-- The events of one crossing. Each is a single access or a purely local step, so that a run may
interleave the blocks between any two of them. -/
inductive CrossAct : Type where
  /-- `epoch += 1` -/
  | enter
  /-- `red_add_release_gpu(counter, 1)` -/
  | arrive
  /-- one load of the counter, test true: spin on -/
  | spin
  /-- one load of the counter, test false: return from `cross` -/
  | leave
  deriving DecidableEq

namespace Grid

variable {n : ℕ}

/-- One step of one block. -/
def step (s : Grid n) : Fin n × CrossAct → Option (Grid n)
  | (i, .enter) =>
    if s.phase i = .out then
      some { s with
        epoch := Function.update s.epoch i (s.epoch i + 1)
        phase := Function.update s.phase i .arriving }
    else none
  | (i, .arrive) =>
    if s.phase i = .arriving then
      some { s with
        counter := s.counter + 1
        phase := Function.update s.phase i .spinning }
    else none
  | (i, .spin) =>
    if s.phase i = .spinning ∧ spinTest n s.counter (s.epoch i) = true then some s else none
  | (i, .leave) =>
    if s.phase i = .spinning ∧ spinTest n s.counter (s.epoch i) = false then
      some { s with phase := Function.update s.phase i .out }
    else none

/-- Counter 0, all epochs 0, nobody inside `cross`. -/
def zero (n : ℕ) : Grid n := ⟨0, fun _ => 0, fun _ => .out⟩

/-- The boundary as a transition system. -/
def lts (n : ℕ) : Lts (Grid n) (Fin n × CrossAct) := Lts.ofFun (zero n) step

/-- The block is in the spin loop and its test says to go on spinning. A deadlock of the boundary
would be a state in which this holds of every block that has not finished. -/
def Waiting (s : Grid n) (i : Fin n) : Prop :=
  s.phase i = .spinning ∧ spinTest n s.counter (s.epoch i) = true

end Grid

/-! ## True counts, from the history -/

section Counts

variable {n : ℕ}

/-- How many crossings block `i` has begun: its true epoch, of which the cell holds the low 32 bits.
-/
def enters (i : Fin n) (τ : List (Fin n × CrossAct)) : ℕ := τ.count (i, .enter)

/-- How many times block `i` has counted itself in. -/
def arrives (i : Fin n) (τ : List (Fin n × CrossAct)) : ℕ := τ.count (i, .arrive)

/-- How many crossings block `i` has returned from. -/
def leaves (i : Fin n) (τ : List (Fin n × CrossAct)) : ℕ := τ.count (i, .leave)

variable (i j : Fin n) (a : CrossAct) (τ : List (Fin n × CrossAct))

@[simp] theorem enters_nil : enters i [] = 0 := rfl

@[simp] theorem arrives_nil : arrives i [] = 0 := rfl

@[simp] theorem leaves_nil : leaves i [] = 0 := rfl

theorem enters_cons :
    enters i ((j, a) :: τ) = enters i τ + if j = i ∧ a = .enter then 1 else 0 := by
  simp [enters, List.count_cons]

theorem arrives_cons :
    arrives i ((j, a) :: τ) = arrives i τ + if j = i ∧ a = .arrive then 1 else 0 := by
  simp [arrives, List.count_cons]

theorem leaves_cons :
    leaves i ((j, a) :: τ) = leaves i τ + if j = i ∧ a = .leave then 1 else 0 := by
  simp [leaves, List.count_cons]

end Counts

/-! ## The invariant -/

namespace Grid

variable {n : ℕ}

/-- What holds after every run: the cells hold the true counts mod `2 ^ 32`, the
counts of a block differ as its phase says, and nobody has returned from a
crossing that somebody has not arrived at. -/
structure Inv (τ : List (Fin n × CrossAct)) (s : Grid n) : Prop where
  /-- the epoch cell is the true epoch, wrapped -/
  epoch : ∀ i, s.epoch i = BitVec.ofNat 32 (enters i τ)
  /-- the counter is the number of arrivals, wrapped -/
  counter : s.counter = BitVec.ofNat 32 (∑ i, arrives i τ)
  /-- a block inside `cross` has entered once more than it has left -/
  entered : ∀ i, enters i τ = leaves i τ + if s.phase i = .out then 0 else 1
  /-- a spinning block has arrived once more than it has left -/
  arrived : ∀ i, arrives i τ = leaves i τ + if s.phase i = .spinning then 1 else 0
  /-- no block has returned from a crossing before every block has arrived at it -/
  sound : ∀ i j, leaves i τ ≤ arrives j τ

namespace Inv

variable {τ : List (Fin n × CrossAct)} {s : Grid n}

theorem arrives_le (h : Inv τ s) (i : Fin n) : arrives i τ ≤ leaves i τ + 1 := by
  rw [h.arrived i]
  split <;> omega

theorem enters_le (h : Inv τ s) (i : Fin n) : enters i τ ≤ leaves i τ + 1 := by
  rw [h.entered i]
  split <;> omega

/-- A spinning block has arrived at, and not left, its current crossing. -/
theorem spinning_counts (h : Inv τ s) {i : Fin n} (hi : s.phase i = .spinning) :
    enters i τ = leaves i τ + 1 ∧ arrives i τ = leaves i τ + 1 := by
  have he := h.entered i
  have ha := h.arrived i
  rw [hi] at he ha
  exact ⟨he, ha⟩

/-- **The lead bound**: while `i` spins at crossing `e`, every block has arrived
between `e - 1` and `e + 1` times. -/
theorem arrives_near (h : Inv τ s) {i : Fin n} (hi : s.phase i = .spinning) (j : Fin n) :
    enters i τ ≤ arrives j τ + 1 ∧ arrives j τ ≤ enters i τ + 1 := by
  obtain ⟨he, ha⟩ := h.spinning_counts hi
  have hij := h.sound i j
  have hji := h.sound j i
  have hj := h.arrives_le j
  omega

/-- The lead bound, summed over the grid. -/
theorem sum_near (h : Inv τ s) {i : Fin n} (hi : s.phase i = .spinning) :
    enters i τ * n ≤ (∑ j, arrives j τ) + n ∧ (∑ j, arrives j τ) ≤ enters i τ * n + n := by
  have hlo : ∑ _j : Fin n, enters i τ ≤ ∑ j, (arrives j τ + 1) :=
    Finset.sum_le_sum fun j _ => (h.arrives_near hi j).1
  have hhi : ∑ j, arrives j τ ≤ ∑ _j : Fin n, (enters i τ + 1) :=
    Finset.sum_le_sum fun j _ => (h.arrives_near hi j).2
  simp only [Finset.sum_add_distrib, Finset.sum_const, Finset.card_univ, Fintype.card_fin,
    nsmul_eq_mul, Nat.cast_id, mul_one] at hlo hhi
  rw [mul_comm n] at hlo hhi
  exact ⟨hlo, hhi⟩

/-- The arrivals fall short of the target exactly if somebody has yet to arrive:
a block that is ahead could only get there after everybody had arrived. -/
theorem sum_lt_iff (h : Inv τ s) {i : Fin n} :
    (∑ j, arrives j τ) < enters i τ * n ↔ ∃ j, arrives j τ < enters i τ := by
  have hconst : enters i τ * n = ∑ _j : Fin n, enters i τ := by
    simp [mul_comm]
  rw [hconst]
  constructor
  · intro hlt
    obtain ⟨j, -, hj⟩ := Finset.exists_lt_of_sum_lt hlt
    exact ⟨j, hj⟩
  · rintro ⟨j, hj⟩
    refine Finset.sum_lt_sum (fun k _ => ?_) ⟨j, Finset.mem_univ j, hj⟩
    have hk := h.arrives_le k
    have hkj := h.sound k j
    omega

/-- **The signed compare is sound**: it says to go on exactly while some block
has not arrived at this crossing. -/
theorem waits_iff (hn : n < 2 ^ 31) (h : Inv τ s) {i : Fin n} (hi : s.phase i = .spinning) :
    spinTest n s.counter (s.epoch i) = true ↔ ∃ j, arrives j τ < enters i τ := by
  obtain ⟨hlo, hhi⟩ := h.sum_near hi
  rw [spinTest, h.counter, h.epoch i, ← BitVec.ofNat_mul,
    Wrap.behind_ofNat (w := 31) (by omega) (by omega)]
  exact h.sum_lt_iff

end Inv

/-! ## Every step keeps the invariant -/

theorem inv_zero : Inv [] (zero n) where
  epoch _ := rfl
  counter := by simp [zero]
  entered _ := rfl
  arrived _ := rfl
  sound _ _ := le_refl _

section Step

variable {τ : List (Fin n × CrossAct)} {s s' : Grid n} {i : Fin n}

theorem Inv.enter (h : Inv τ s) (hs : s.step (i, .enter) = some s') :
    Inv ((i, .enter) :: τ) s' := by
  simp only [step, Option.ite_none_right_eq_some, Option.some.injEq] at hs
  obtain ⟨hp, rfl⟩ := hs
  constructor
  · intro j
    by_cases hj : j = i
    · subst hj
      simp [enters_cons, h.epoch j, BitVec.ofNat_add]
    · simp [enters_cons, h.epoch j, hj, Ne.symm hj]
  · simp [arrives_cons, h.counter]
  · intro j
    have he := h.entered j
    by_cases hj : j = i
    · subst hj
      simp [enters_cons, leaves_cons, hp] at he ⊢
      exact he
    · simpa [enters_cons, leaves_cons, hj, Ne.symm hj] using he
  · intro j
    have ha := h.arrived j
    by_cases hj : j = i
    · subst hj
      simp [arrives_cons, leaves_cons, hp] at ha ⊢
      exact ha
    · simpa [arrives_cons, leaves_cons, hj, Ne.symm hj] using ha
  · intro j k
    simpa [arrives_cons, leaves_cons] using h.sound j k

theorem Inv.arrive (h : Inv τ s) (hs : s.step (i, .arrive) = some s') :
    Inv ((i, .arrive) :: τ) s' := by
  simp only [step, Option.ite_none_right_eq_some, Option.some.injEq] at hs
  obtain ⟨hp, rfl⟩ := hs
  constructor
  · intro j
    simp [enters_cons, h.epoch j]
  · simp [arrives_cons, h.counter, Finset.sum_add_distrib, BitVec.ofNat_add]
  · intro j
    have he := h.entered j
    by_cases hj : j = i
    · subst hj
      simpa [enters_cons, leaves_cons, hp] using he
    · simpa [enters_cons, leaves_cons, hj] using he
  · intro j
    have ha := h.arrived j
    by_cases hj : j = i
    · subst hj
      simp [arrives_cons, leaves_cons, hp] at ha ⊢
      exact ha
    · simpa [arrives_cons, leaves_cons, hj, Ne.symm hj] using ha
  · intro j k
    have hjk := h.sound j k
    rw [arrives_cons, leaves_cons]
    simp only [reduceCtorEq, and_false, if_false]
    omega

theorem Inv.spin (h : Inv τ s) (hs : s.step (i, .spin) = some s') :
    Inv ((i, .spin) :: τ) s' := by
  simp only [step, Option.ite_none_right_eq_some, Option.some.injEq] at hs
  obtain ⟨-, rfl⟩ := hs
  constructor
  · simpa [enters_cons] using h.epoch
  · simpa [arrives_cons] using h.counter
  · simpa [enters_cons, leaves_cons] using h.entered
  · simpa [arrives_cons, leaves_cons] using h.arrived
  · simpa [arrives_cons, leaves_cons] using h.sound

theorem Inv.leave (hn : n < 2 ^ 31) (h : Inv τ s) (hs : s.step (i, .leave) = some s') :
    Inv ((i, .leave) :: τ) s' := by
  simp only [step, Option.ite_none_right_eq_some, Option.some.injEq] at hs
  obtain ⟨⟨hp, htest⟩, rfl⟩ := hs
  obtain ⟨hei, hai⟩ := h.spinning_counts hp
  -- the test was false, so everybody has arrived at the crossing `i` leaves
  have hall : ∀ j, enters i τ ≤ arrives j τ := by
    by_contra hex
    push Not at hex
    rw [← h.waits_iff hn hp, htest] at hex
    cases hex
  constructor
  · simpa [enters_cons] using h.epoch
  · simpa [arrives_cons] using h.counter
  · intro j
    have he := h.entered j
    by_cases hj : j = i
    · subst hj
      simp [enters_cons, leaves_cons, hei]
    · simpa [enters_cons, leaves_cons, hj, Ne.symm hj] using he
  · intro j
    have ha := h.arrived j
    by_cases hj : j = i
    · subst hj
      simp [arrives_cons, leaves_cons, hai]
    · simpa [arrives_cons, leaves_cons, hj, Ne.symm hj] using ha
  · intro j k
    have hjk := h.sound j k
    rw [arrives_cons, leaves_cons]
    by_cases hj : i = j
    · subst hj
      have := hall k
      simp only [reduceCtorEq, and_self, and_false, if_true, if_false]
      omega
    · simpa [hj] using hjk

end Step

/-- Every run of the boundary satisfies the invariant. The step lemmas above are one for each of the
four events; what makes the return from a crossing sound is `waits_iff`. -/
theorem run_inv (hn : n < 2 ^ 31) {τ : List (Fin n × CrossAct)} {s : Grid n}
    (h : (lts n).Run τ s) : Inv τ s := by
  refine Lts.Run.inv (I := Inv) ?_ ?_ h
  · rintro s rfl
    exact inv_zero
  · rintro τ s ⟨i, a⟩ s' - ih hs
    cases a with
    | enter => exact ih.enter hs
    | arrive => exact ih.arrive hs
    | spin => exact ih.spin hs
    | leave => exact ih.leave hn hs

/-! ## Deadlock freedom -/

/-- If everybody is to make `M` crossings, an unfinished block that has left
fewest crossings can move: whoever it waits for has left fewer, hence is unfinished. -/
theorem Inv.exists_not_waiting (hn : n < 2 ^ 31) {τ : List (Fin n × CrossAct)} {s : Grid n}
    (h : Inv τ s) {M : ℕ} {i : Fin n} (hi : leaves i τ < M) :
    ∃ j, leaves j τ < M ∧ ¬ s.Waiting j := by
  induction hk : leaves i τ using Nat.strong_induction_on generalizing i with
  | _ k ih =>
    subst hk
    by_cases hw : s.Waiting i
    · obtain ⟨hp, ht⟩ := hw
      obtain ⟨j, hj⟩ := (h.waits_iff hn hp).mp ht
      obtain ⟨he, -⟩ := h.spinning_counts hp
      have hlj := h.sound j j
      by_cases hjw : s.Waiting j
      · obtain ⟨-, haj⟩ := h.spinning_counts hjw.1
        exact ih (leaves j τ) (by omega) (by omega) rfl
      · exact ⟨j, by omega, hjw⟩
    · exact ⟨i, hi, hw⟩

end Grid

/-- **The boundary is a reusable barrier.** After every run of any interleaving,
across any number of wraps: nobody has returned from a crossing that somebody
has not arrived at; the counter is the number of arrivals mod `2 ^ 32`; the
epoch cells are the true epochs mod `2 ^ 32` and these differ by at most one;
and if every block is to make the same number `M` of crossings, then as long as
somebody is unfinished, somebody unfinished is not stuck in a spin. -/
theorem boundary_correct {n : ℕ} (hn : n < 2 ^ 31)
    {τ : List (Fin n × CrossAct)} {s : Grid n} (h : (Grid.lts n).Run τ s) :
    (∀ i j, leaves i τ ≤ arrives j τ) ∧
    s.counter = BitVec.ofNat 32 (∑ i, arrives i τ) ∧
    (∀ i, s.epoch i = BitVec.ofNat 32 (enters i τ)) ∧
    (∀ i j, enters i τ ≤ enters j τ + 1) ∧
    (∀ M, (∃ i, leaves i τ < M) → ∃ i, leaves i τ < M ∧ ¬ s.Waiting i) := by
  have hinv := Grid.run_inv hn h
  refine ⟨hinv.sound, hinv.counter, hinv.epoch, fun i j => ?_, fun M ⟨i, hi⟩ => ?_⟩
  · have h₁ := hinv.enters_le i
    have h₂ := hinv.sound i j
    have h₃ := hinv.arrives_le j
    have h₄ := hinv.entered j
    have h₅ := hinv.arrived j
    rcases hp : s.phase j with _ | _ | _ <;> simp [hp] at h₄ h₅ <;> omega
  · exact hinv.exists_not_waiting hn hi

/-- Two blocks, one crossing: block 0 arrives first and spins until block 1 has arrived. -/
def oneCrossing : List (Fin 2 × CrossAct) :=
  [(1, .leave), (0, .leave), (1, .arrive), (0, .spin), (0, .arrive), (1, .enter), (0, .enter)]

theorem boundary_correct_oneCrossing :
    ∃ s, (Grid.lts 2).Run oneCrossing s ∧
      (∀ i j, leaves i oneCrossing ≤ arrives j oneCrossing) ∧
      s.counter = BitVec.ofNat 32 (∑ i, arrives i oneCrossing) ∧ leaves 0 oneCrossing = 1 := by
  obtain ⟨s, -, hr⟩ := Lts.exists_run_of_isSome Grid.step (Grid.zero 2) oneCrossing (by decide)
  obtain ⟨h₁, h₂, -⟩ := boundary_correct (by decide) hr
  exact ⟨s, hr, h₁, h₂, by decide⟩

end Megakernel
