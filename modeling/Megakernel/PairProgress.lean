import Mathlib.Algebra.BigOperators.Fin
import Megakernel.TensorPass

/-!
# Nobody waits for ever in a pass

The two GPUs of the pair wait for each other at every reduce. Of two GPUs in a pass the one that is
not ahead can move: it is not at a reduce, or its peer has published already, or its peer is at the
same reduce and can publish (`exists_step`). And every step takes the pair further through the
windows of the pass (`work_lt`), of which there are finitely many (`work_le`). So a pass ends in
whatever order the two GPUs move (`done_of_stuck`).

The rank does not speak of data at all: it counts windows and publications. It bounds a pass by what
its program has, and nothing but the pairing of pushes and reduces is used of the program.
-/

namespace Megakernel.Schedule.Tensor

section Work

variable {B P F W : Type*} [Add F] [Zero F] {K : Kernel B P F} {up : Fin 2 → W → Option (List B)}
  {inputs : ℕ → Inputs P F} {L : List (List (Ins W))} {s s' : Tensor F} {τ : List TEv}

/-- What a GPU has done of a pass. -/
def laneWork (c : Lane F) : ℕ := 2 * c.left + c.published.toNat

/-- What the pair has done of a pass: the windows that its GPUs have left behind, and the
publications in front of their reduces. -/
def work (s : Tensor F) : ℕ := ∑ g, laneWork (s.gpu g)

omit [Add F] [Zero F] in
theorem work_setLane_lt {g : Fin 2} {c : Lane F} (h : laneWork (s.gpu g) < laneWork c) :
    work s < work (s.setLane g c) := by
  refine Finset.sum_lt_sum (fun g' _ => ?_) ⟨g, Finset.mem_univ g, ?_⟩
  · by_cases hg : g' = g
    · rw [hg, setLane_self]
      exact h.le
    · rw [setLane_of_ne hg]
  · rw [setLane_self]
    exact h

/-- **Every step of a GPU takes the pair further.** -/
theorem work_lt {e : TEv} (he : e ≠ .pass) (h : Step K up inputs L s e s') : work s < work s' := by
  cases h with
  | pass h => exact absurd rfl he
  | @window g w w' hw hpush hready hp =>
    refine work_setLane_lt ?_
    have hbool := (s.gpu g).published.toNat_le
    simp only [laneWork, Bool.toNat_false]
    omega
  | push hw hk =>
    refine work_setLane_lt ?_
    simp only [laneWork]
    omega
  | publish hw hk hpub =>
    refine work_setLane_lt ?_
    simp only [laneWork, hpub, Bool.toNat_false, Bool.toNat_true]
    omega

/-- A GPU does not leave more windows than there are. -/
theorem left_le (h : (lts K up inputs L).Run τ s) (g : Fin 2) : (s.gpu g).left ≤ L.length := by
  have hmove {s : Tensor F} {g₁ : Fin 2} {c : Lane F} (ih : ∀ g, (s.gpu g).left ≤ L.length)
      (hc : c.left ≤ L.length) (g : Fin 2) : ((s.setLane g₁ c).gpu g).left ≤ L.length := by
    by_cases hg : g = g₁
    · rw [hg, setLane_self]
      exact hc
    · rw [setLane_of_ne hg]
      exact ih g
  have hnext {l : ℕ} {w : List (Ins W)} (hw : L[l]? = some w) : l + 1 ≤ L.length :=
    (List.getElem?_eq_some_iff.mp hw).1
  refine h.inv (I := fun _ s => ∀ g, (s.gpu g).left ≤ L.length) ?_ ?_ g
  · rintro s rfl g
    exact le_rfl
  · rintro τ s e s' - ih hs
    cases hs with
    | pass hdone => exact fun g => Nat.zero_le _
    | window hw hpush hready hp => exact hmove ih (hnext hw)
    | push hw hk => exact hmove ih (hnext hw)
    | publish hw hk hpub => exact hmove ih (ih _)

/-- The work of a pass is bounded. -/
theorem work_le {n : ℕ} (hL : Splits (ℕ → F) L n) (h : (lts K up inputs L).Run τ s) :
    work s ≤ 4 * L.length := by
  have hlane (g : Fin 2) : laneWork (s.gpu g) ≤ 2 * L.length := by
    have hle := left_le h g
    cases hpub : (s.gpu g).published with
    | false =>
      simp only [laneWork, hpub, Bool.toNat_false]
      omega
    | true =>
      obtain ⟨i, hi, -⟩ := (run_ok hL h g).published hpub
      have hlt := (List.getElem?_eq_some_iff.mp hi).1
      simp only [laneWork, hpub, Bool.toNat_true]
      omega
  have hzero := hlane 0
  have hone := hlane 1
  rw [work, Fin.sum_univ_two]
  omega

/-- A pass begins with no work done. -/
theorem work_pass {n : ℕ} (hL : Splits (ℕ → F) L n) (h : (lts K up inputs L).Run τ s)
    (hstep : Step K up inputs L s .pass s') : work s = 4 * L.length ∧ work s' = 0 := by
  cases hstep with
  | pass hdone =>
    have hpub (g : Fin 2) : (s.gpu g).published = false := by
      by_contra hne
      obtain ⟨i, hi, -⟩ := (run_ok hL h g).published (Bool.eq_true_of_not_eq_false hne)
      rw [hdone g, List.getElem?_eq_none le_rfl] at hi
      cases hi
    refine ⟨?_, ?_⟩
    · simp only [work, laneWork, Fin.sum_univ_two, hpub, hdone, Bool.toNat_false]
      omega
    · simp only [work, laneWork, Fin.sum_univ_two, hpub, Bool.toNat_false]

/-- **A GPU that is not ahead can move.** If it is at a reduce, its peer is at the same one or past
it, and has published or can do so. -/
theorem exists_step {n : ℕ} (hL : Splits (ℕ → F) L n) (h : (lts K up inputs L).Run τ s) {g : Fin 2}
    (hlt : (s.gpu g).left < L.length) (hle : (s.gpu g).left ≤ (s.gpu g.rev).left) :
    ∃ e s', Step K up inputs L s e s' ∧ e ≠ .pass := by
  obtain ⟨w, hw⟩ : ∃ w, L[(s.gpu g).left]? = some w := ⟨_, List.getElem?_eq_getElem hlt⟩
  have halone := hL.alone w (List.mem_of_getElem? hw)
  by_cases hpush : ∃ i ∈ w, i.call.kind = .xchgPush
  · obtain ⟨i, hi, hk⟩ := hpush
    obtain rfl := halone i hi (by simp [Ins.isXchg, hk])
    exact ⟨_, _, .push hw hk, by simp⟩
  push Not at hpush
  by_cases hred : ∃ i ∈ w, i.call.kind = .xchgReduce
  · obtain ⟨i, hi, hk⟩ := hred
    obtain rfl := halone i hi (by simp [Ins.isXchg, hk])
    cases hpub : (s.gpu g).published with
    | false => exact ⟨_, _, .publish hw hk hpub, by simp⟩
    | true =>
      have hpeer := run_ok hL h g.rev
      -- the window of a GPU that has heard
      have hwindow (hnow : (s.gpu g.rev).mail.seqno i.site = BitVec.ofNat 32 s.pass) :
          ∃ e s', Step K up inputs L s e s' ∧ e ≠ .pass := by
        refine ⟨_, _, .window hw hpush (fun j hj _ => ⟨hpub, ?_⟩) (.refl [i]), by simp⟩
        rw [List.mem_singleton.mp hj, hnow]
        exact behind_self _
      rcases hpeer.seqno _ i (prefix_flatten hw) hk with ⟨hnow, -⟩ | ⟨-, hnot⟩
      · exact hwindow hnow
      · -- the peer has not left the reduce behind, so it is at it
        have hat : (s.gpu g.rev).left = (s.gpu g).left := by
          refine (hle.antisymm (Nat.le_of_not_lt fun hahead => hnot ?_)).symm
          rw [← flatten_take_succ hw]
          exact (List.take_prefix_take_left hahead).flatten
        rw [← hat] at hw
        cases hpub' : (s.gpu g.rev).published with
        | false => exact ⟨_, _, .publish hw hk hpub', by simp⟩
        | true =>
          obtain ⟨i', hi', -, hnow⟩ := hpeer.published hpub'
          rw [hw] at hi'
          obtain rfl : i = i' := by simpa using hi'
          exact hwindow hnow
  · push Not at hred
    exact ⟨_, _, .window hw hpush (fun i hi hk => absurd hk (hred i hi)) (.refl w), by simp⟩

/-- **The pair is never stuck in a pass**: when no GPU can move, both are done. -/
theorem done_of_stuck {n : ℕ} (hL : Splits (ℕ → F) L n) (h : (lts K up inputs L).Run τ s)
    (hstuck : ∀ e s', e ≠ .pass → ¬Step K up inputs L s e s') (g : Fin 2) :
    (s.gpu g).left = L.length := by
  have hslow {g : Fin 2} (hle : (s.gpu g).left ≤ (s.gpu g.rev).left) :
    (s.gpu g).left = L.length := by
    refine (left_le h g).antisymm (Nat.le_of_not_lt fun hlt => ?_)
    obtain ⟨e, s', hstep, he⟩ := exists_step hL h hlt hle
    exact hstuck e s' he hstep
  have hrev : (s.gpu g.rev.rev).left = (s.gpu g).left := by rw [Fin.rev_rev]
  rcases le_total (s.gpu g).left (s.gpu g.rev).left with hle | hle
  · exact hslow hle
  · have hpeer : (s.gpu g.rev).left = L.length := hslow (hle.trans hrev.ge)
    exact (left_le h g).antisymm (hpeer.ge.trans hle)

end Work

end Megakernel.Schedule.Tensor
