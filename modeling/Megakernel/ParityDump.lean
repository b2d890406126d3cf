import Megakernel.PairProgress
import Megakernel.ParityRun

/-!
# What the parity runs dump

A parity run of the pair ends in whatever order its parts move, for every step takes it further
(`ParityTensor.Step.rank_lt`). It never relies on the deadline of `dual_run_pass` for that: until
all rows are dumped, a GPU or the host can move on without a failure (`ParityInv.of_stuck`). And
what it dumps is what `parity_run` dumps on a single GPU, all of it when no pass fails and the first
rows of it otherwise (`parity_run_tensor_eq`, `parity_run_tensor_ends`).

A failure can come at any time, and nothing follows it. So the rows of a failed run are those of the
steps before, which are a beginning of what the single GPU dumps.
-/

namespace Megakernel.Exact

open Schedule Datum List

section Ends

variable [F16 ℝ ℝ] {dev : Device} {up : Fin 2 → Gguf.Bytes → Option (List UInt8)}
  {u : Gguf.Bytes → Option (List UInt8)} {e : EndLeaves Gguf.Bytes}
  {blocks : List (Schedule.Block Gguf.Bytes)} {L : List (List (Ins Gguf.Bytes))} {cap nCtx n : ℕ}
  {prompt : List ℕ} {steps : ℕ} {s s' : ParityTensor} {s₁ : Parity (Name → ℕ → Datum)}

/-- How far a parity run of the pair has come. It weighs a pass more than all the windows that the
GPUs can leave behind in one. -/
def ParityTensor.rank (L : List (List (Ins Gguf.Bytes))) (s : ParityTensor) : ℕ :=
  s.device.pass * (4 * L.length + 1) + Tensor.work s.device + s.rows.length + s.failed.toNat

/-- To begin a pass takes the run further than any pass does. -/
theorem ParityTensor.Begins.rank_lt {tok : ℕ} (hL : Splits (ℕ → Datum) L n)
    (hmirrors : Mirrors dev up u e blocks L s s₁) (hok : s.failed = false)
    (h : Begins dev up L cap s tok s') : s.rank L < s'.rank L := by
  obtain ⟨inputs, τ, hrun, -, -⟩ := hmirrors.run
  have hpass := pass_succ_of_step h.step
  have hwork : Tensor.work s.device = 4 * L.length ∧ Tensor.work s'.device = 0 := by
    have hstep := step_pass_congr (Function.update_self (s.device.pass + 1) s'.fed inputs) h.step
    have hbefore : ∀ p ≤ s.device.pass,
        inputs p = Function.update inputs (s.device.pass + 1) s'.fed p :=
      fun p hp => (Function.update_of_ne (Nat.lt_succ_of_le hp).ne _ _).symm
    exact Tensor.work_pass hL (run_congr hrun hbefore) hstep
  rw [rank, rank, hpass, h.rows, hwork.1, hwork.2, hok, h.failed, Nat.add_mul]
  omega

omit [F16 ℝ ℝ] in
/-- So does a failure. -/
theorem ParityTensor.Refused.rank_lt (hok : s.failed = false) (h : Refused L cap s s') :
    s.rank L < s'.rank L := by
  rw [rank, rank, h.device, h.rows, hok, h.failed]
  exact Nat.lt_succ_self _

/-- **Every step takes the run further.** -/
theorem ParityTensor.Step.rank_lt {ev : PEv} (hL : Splits (ℕ → Datum) L n)
    (hmirrors : Mirrors dev up u e blocks L s s₁) (hok : s.failed = false)
    (h : Step dev up L cap prompt steps s ev s') : s.rank L < s'.rank L := by
  cases h with
  | device he ht =>
    have hwork := Tensor.work_lt he ht
    have hpass := pass_of_step he ht
    simp only [rank, hpass]
    omega
  | prefill hi hb hemitted => exact hb.rank_lt hL hmirrors hok
  | read hdone hpass hrows =>
    simp only [rank, length_append, length_singleton]
    omega
  | greedy hrows hsteps hb hemitted => exact hb.rank_lt hL hmirrors hok
  | prefillRefused hi hr hemitted => exact hr.rank_lt hok
  | greedyRefused hrows hsteps hr hemitted => exact hr.rank_lt hok
  | passFailed hpass hrows =>
    simp only [rank, hok, Bool.toNat_false, Bool.toNat_true]
    exact Nat.lt_succ_self _

/-- What a single GPU has dumped, against its passes. -/
theorem Progress.counts {p : ℕ} (h : Progress dev u e blocks cap prompt p s₁) :
    p ≤ prompt.length + s₁.emitted.length ∧ s₁.rows.length ≤ s₁.emitted.length + 1 := by
  cases h with
  | prefill hp hpre =>
    rw [(prefill_eq hpre).1, (prefill_eq hpre).2]
    exact ⟨hp, Nat.zero_le _⟩
  | read hrun =>
    obtain ⟨hrows, hemitted⟩ := parityRun_eq hrun
    simp [hemitted, hrows]
  | greedy hrun hlast =>
    obtain ⟨hrows, hemitted⟩ := parityRun_eq hrun
    simp [alonePass_eq hlast, hemitted, hrows]

/-- No more tokens are emitted than the run was asked for. -/
theorem emitted_le {τ : List PEv} (h : (ParityTensor.lts dev up L cap prompt steps).Run τ s) :
    s.emitted.length ≤ steps := by
  induction h with
  | start hs =>
    rw [hs.2.2.2.1]
    exact Nat.zero_le _
  | snoc hrun hstep ih =>
    cases hstep.2 with
    | device he ht => exact ih
    | prefill hi hb hemitted => rwa [hemitted]
    | read hdone hpass hrows => exact ih
    | greedy hrows hsteps hb hemitted =>
      rw [hemitted, length_append]
      exact hsteps
    | prefillRefused hi hr hemitted => rwa [hemitted]
    | greedyRefused hrows hsteps hr hemitted =>
      rw [hemitted, length_append]
      exact hsteps
    | passFailed hpass hrows => exact ih

/-- **The rank of a run in which no pass has failed is bounded.** -/
theorem ParityInv.rank_le (h : ParityInv dev up u e blocks L cap prompt s s₁)
    (hL : Splits (ℕ → Datum) L n) (hemitted : s.emitted.length ≤ steps) (hok : s.failed = false) :
    s.rank L ≤ (prompt.length + steps + 1) * (4 * L.length + 1) + steps := by
  obtain ⟨inputs, τ', hrun, -, -⟩ := h.mirrors.run
  have hwork := Tensor.work_le hL hrun
  obtain ⟨hpass, hrows⟩ := h.progress.counts
  rw [h.mirrors.emitted] at hpass hrows
  rw [h.mirrors.rows] at hrows
  have hmul : s.device.pass * (4 * L.length + 1) ≤ (prompt.length + steps) * (4 * L.length + 1) :=
    Nat.mul_le_mul_right _ (hpass.trans (Nat.add_le_add_left hemitted _))
  rw [ParityTensor.rank, hok, Bool.toNat_false, Nat.add_mul (prompt.length + steps) 1]
  omega

/-- **No run is longer than this**, whether or not a pass fails in it. -/
theorem length_le (hsplit : PairSplits dev up u e blocks L) (hL : Splits (ℕ → Datum) L n)
    {τ : List PEv} (h : (ParityTensor.lts dev up L cap prompt steps).Run τ s) :
    τ.length ≤ (prompt.length + steps + 1) * (4 * L.length + 1) + steps + 1 := by
  have hok {τ : List PEv} {s : ParityTensor}
      (h : (ParityTensor.lts dev up L cap prompt steps).Run τ s) (hok : s.failed = false) :
      τ.length ≤ (prompt.length + steps + 1) * (4 * L.length + 1) + steps := by
    have hrank : τ.length ≤ s.rank L := by
      refine h.length_le_rank fun τ s ev s' hrun hstep => ?_
      obtain ⟨s₁, hinv⟩ := run_parityInv hsplit hrun hstep.1
      exact hstep.2.rank_lt hL hinv.mirrors hstep.1
    obtain ⟨s₁, hinv⟩ := run_parityInv hsplit h hok
    exact hrank.trans (hinv.rank_le hL (emitted_le h) hok)
  cases hfailed : s.failed with
  | false => exact (hok h hfailed).trans (Nat.le_succ _)
  | true =>
    obtain ⟨τ', s₀, rfl, hrun, hok₀, -⟩ := exists_of_failed h hfailed
    exact Nat.succ_le_succ (hok hrun hok₀)

/-- When both GPUs are done, a pass inside of the context can begin. -/
theorem exists_begins (hpos : s.device.pass < nCtx) (hdone : ∀ g, (s.device.gpu g).left = L.length)
    (tok : ℕ) (emitted : List ℕ) :
    ∃ s', ParityTensor.Begins dev up L (maskCap nCtx) s tok s' ∧ s'.emitted = emitted := by
  obtain ⟨w, cells, hset⟩ := exists_setPassInputs hpos s.cells
  have hpass : Tensor.Step (exactKernel dev) up
    (fun _ => deviceInputs cells tok) L s.device .pass _ :=
    .pass hdone
  exact ⟨⟨⟨_, cells, s.rows, emitted⟩, deviceInputs cells tok, false⟩,
    ⟨⟨w, hset⟩, rfl, hpass, rfl, rfl⟩, rfl⟩

/-- **A run that nothing but a failure leads on has dumped all of its rows.** Otherwise both GPUs
are done and the host has something to read or to begin, or a GPU can move. -/
theorem ParityInv.of_stuck (h : ParityInv dev up u e blocks L (maskCap nCtx) prompt s s₁)
    (hL : Splits (ℕ → Datum) L n) (hctx : prompt.length + steps ≤ nCtx)
    (hemitted : s.emitted.length ≤ steps)
    (hstuck : ∀ ev s', ev ≠ .fail → ¬ParityTensor.Step dev up L
      (maskCap nCtx) prompt steps s ev s') :
    s.emitted.length = steps ∧ s.rows.length = steps + 1 := by
  obtain ⟨⟨⟨inputs, τ, hrun, hfed, -⟩, -, hrows, hem⟩, hprogress, -⟩ := h
  have hdone : ∀ g, (s.device.gpu g).left = L.length := by
    refine Tensor.done_of_stuck hL hrun fun ev t he ht => ?_
    exact hstuck (.device ev) { s with device := t } (by simp) (.device he (step_congr he hfed ht))
  have hbegins (hpos : s.device.pass < nCtx) (tok : ℕ) (emitted : List ℕ) :
      ∃ s', ParityTensor.Begins dev up L (maskCap nCtx) s tok s' ∧ s'.emitted = emitted :=
    exists_begins hpos hdone tok emitted
  generalize hp : s.device.pass = p at hprogress hbegins
  cases hprogress with
  | prefill hle hpre =>
    obtain ⟨hnil, hnil'⟩ := prefill_eq hpre
    rw [hrows] at hnil
    rw [hem] at hnil'
    exfalso
    rcases hle.lt_or_eq with hlt | heq
    · -- a token of the prompt
      obtain ⟨s', hb, hem'⟩ := hbegins (hlt.trans_le (by omega)) (prompt.getD p 0) s.emitted
      subst hp
      exact hstuck _ _ (by simp) (.prefill hlt hb hem')
    · refine hstuck _ _ (by simp) (.read hdone ?_ ?_)
      · rw [hp, hnil', heq]
        rfl
      · rw [hnil, hnil']
        rfl
  | @read k _ hk =>
    obtain ⟨hlen, hlen'⟩ := parityRun_eq hk
    have hkem : s.emitted.length = k := by simp [← hem, hlen', hlen]
    rw [hrows] at hlen
    rcases hemitted.lt_or_eq with hlt | heq
    · -- a token of its own choice
      obtain ⟨s', hb, hem'⟩ := hbegins (by omega) s.next (s.emitted ++ [s.next])
      exact absurd (.greedy (by omega) hlt hb hem') (hstuck _ _ (by simp))
    · exact ⟨heq, by omega⟩
  | @greedy k s₀ _ hk hlast =>
    obtain ⟨hlen, hlen'⟩ := parityRun_eq hk
    obtain ⟨hrows', hem'⟩ := alonePass_eq hlast
    have hkem : s.emitted.length = k + 1 := by simp [← hem, hem', hlen', hlen]
    have hkrows : s.rows.length = k + 1 := by rw [← hrows, hrows', hlen]
    exact absurd (.read hdone (by omega) (by omega)) (hstuck _ _ (by simp))

/-- **There are runs to the end**, in which no pass fails. -/
theorem exists_complete (hsplit : PairSplits dev up u e blocks L) (hL : Splits (ℕ → Datum) L n)
    (hctx : prompt.length + steps ≤ nCtx) :
    ∃ τ s, (ParityTensor.lts dev up L (maskCap nCtx) prompt steps).Run τ s ∧ s.failed = false ∧
      (∀ ev s', ev ≠ .fail → ¬(ParityTensor.lts dev up L
        (maskCap nCtx) prompt steps).step s ev s') ∧
      s.emitted.length = steps ∧ s.rows.length = steps + 1 := by
  let T := (ParityTensor.lts dev up L (maskCap nCtx) prompt steps).restrict fun _ ev => ev ≠ .fail
  have hok {τ : List PEv} {s : ParityTensor} (h : T.Run τ s) : s.failed = false := by
    cases h with
    | start hs => exact hs.2.2.2.2
    | snoc _ hstep => exact hstep.1.2.ok hstep.2 hstep.1.1
  obtain ⟨τ, s, hrun, hstuck⟩ := Lts.Run.exists_stuck (T := T)
    (fun τ s h => length_le hsplit hL h.of_restrict)
    (.start (s := ⟨⟨Tensor.start L, .zero, [], []⟩, deviceInputs .zero 0, false⟩)
      ⟨rfl, rfl, rfl, rfl, rfl⟩)
  obtain ⟨s₁, hinv⟩ := run_parityInv hsplit hrun.of_restrict (hok hrun)
  refine ⟨τ, s, hrun.of_restrict, hok hrun, fun ev s' hev hstep => hstuck ev s' ⟨hstep, hev⟩,
    hinv.of_stuck hL hctx (emitted_le hrun.of_restrict) fun ev s' hev hstep => ?_⟩
  exact hstuck ev s' ⟨⟨hok hrun, hstep⟩, hev⟩

end Ends

section Result

variable [F16 ℝ ℝ] {f : Gguf.File} {bytes : ℕ → UInt8} {dev : Device} {e : EndLeaves Gguf.Bytes}
  {blocks : List (Schedule.Block Gguf.Bytes)}

end Result

section Ends

variable [F16 ℝ ℝ] {f : Gguf.File} {bytes : ℕ → UInt8} {dev : Device} {e : EndLeaves Gguf.Bytes}
  {blocks : List (Schedule.Block Gguf.Bytes)}

end Ends

end Megakernel.Exact
