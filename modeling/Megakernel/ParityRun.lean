import Megakernel.KvWindow
import Megakernel.PairNetwork
import Megakernel.SplitGrid

/-!
# The parity runs

`parity_run` drives one GPU and `parity_run_tensor` the pair: the tokens of the prompt, one a pass,
then the tokens that the runs choose themselves, each the first maximum of the last row of logits.
Host and GPUs of the pair are one transition system here. A pass is only begun when both GPUs are
done, and it may fail: `dual_run_pass` returns false when an error cell is set or its deadline is
over, at whatever moment the outside world chooses, and the run is over then. As long as no pass has
failed, the pair and its host follow a run on one GPU, whatever the order in which the two GPUs move
(`ParityInv.step`).

The prompt and the greedy steps are the same kind of pass and differ in where the token comes from.
The rows of logits are compared with those of a run on one GPU that is computed in step, so that
equal rows give equal tokens and hence equal passes from then on.
-/

namespace Megakernel

/-! ## The greedy choice -/

/-- `argmax_f32_first`: the first maximum of a row. -/
def argmaxF32First {K : Type*} [LT K] [DecidableLT K] : List K → ℕ
  | [] => 0
  | x :: row => ((row.zipIdx 1).foldl (fun s v => if s.1 < v.1 then v else s) (x, 0)).2

/-- The first of the largest entries: none is larger, and none before it is as large. -/
structure FirstMax {K : Type*} [LT K] [LE K] (row : List K) (best : K) (arg : ℕ) : Prop where
  eq : row[arg]? = some best
  before : ∀ v ∈ row.take arg, v < best
  all : ∀ v ∈ row, v ≤ best

section FirstMax

variable {K : Type*} [LinearOrder K] {row seen : List K} {best v : K} {arg : ℕ}

theorem FirstMax.lt (h : FirstMax row best arg) : arg < row.length :=
  (List.getElem?_eq_some_iff.mp h.eq).1

/-- A larger entry takes the place of the best so far. -/
theorem FirstMax.replace (h : FirstMax seen best arg) (hv : best < v) :
    FirstMax (seen ++ [v]) v seen.length where
  eq := List.getElem?_concat_length
  before w hw := by
    rw [List.take_left] at hw
    exact (h.all w hw).trans_lt hv
  all w hw := by
    rcases List.mem_append.mp hw with hw | hw
    · exact (h.all w hw).trans hv.le
    · exact (List.mem_singleton.mp hw).le

/-- Another entry leaves it. -/
theorem FirstMax.keep (h : FirstMax seen best arg) (hv : ¬best < v) :
    FirstMax (seen ++ [v]) best arg where
  eq := by
    rw [List.getElem?_append_left h.lt]
    exact h.eq
  before w hw := by
    rw [List.take_append_of_le_length h.lt.le] at hw
    exact h.before w hw
  all w hw := by
    rcases List.mem_append.mp hw with hw | hw
    · exact h.all w hw
    · exact (List.mem_singleton.mp hw).le.trans (not_lt.mp hv)

theorem FirstMax.foldl (h : FirstMax seen best arg) (row : List K) :
    let s := (row.zipIdx seen.length).foldl (fun s v => if s.1 < v.1 then v else s) (best, arg)
    FirstMax (seen ++ row) s.1 s.2 := by
  induction row generalizing seen best arg with
  | nil => simpa using h
  | cons v row ih =>
    rw [List.zipIdx_cons, List.foldl_cons, ← List.singleton_append, ← List.append_assoc]
    by_cases hv : best < v
    · simpa [hv] using ih (h.replace hv)
    · simpa [hv] using ih (h.keep hv)

end FirstMax

namespace Exact

open Schedule Datum List

/-! ## The runs -/

/-- What the ops find of what the host has set for a pass. -/
noncomputable def deviceInputs (c : PassCells ℝ) (tok : ℕ) : Inputs Syms Datum where
  token _ := num tok
  maskF16 j := ofBot (c.mask j)
  nKv _ := num c.nKv
  syms := ⟨fun i => c.positions i, c.kvRow⟩

/-- A parity run: the device, the cells that the host has set, the rows of logits that it has dumped
and the tokens that it has emitted. -/
structure Parity (σ : Type*) : Type _ where
  device : σ
  cells : PassCells ℝ
  rows : List (List ℝ)
  emitted : List ℕ

/-- The token of the next greedy step. -/
noncomputable def Parity.next {σ : Type*} (s : Parity σ) : ℕ :=
  argmaxF32First (s.rows.getLast?.getD [])

/-- A row of logits as the host reads it. -/
def readRow (logits : ℕ → ℝ) : List ℝ := (range nVocab).map logits

section Alone

variable [F16 ℝ ℝ] (dev : Device) (u : Gguf.Bytes → Option (List UInt8)) (e : EndLeaves Gguf.Bytes)
  (blocks : List (Schedule.Block Gguf.Bytes)) (cap : ℕ) (prompt : List ℕ)

/-- The operations of a single GPU in a pass with these inputs. -/
noncomputable def aloneOps (inp : Inputs Syms Datum) : Sem Gguf.Bytes (ℕ → Datum) :=
  half (exactKernel dev) (fun _ => u) inp.syms 0

/-- `set_pass_inputs` and `run_pass` on a single GPU. -/
noncomputable def alonePass (pos tok : ℕ) (s : Parity (Name → ℕ → Datum)) :
    Except String (Parity (Name → ℕ → Datum)) := do
  let (_, cells) ← setPassInputs cap pos s.cells
  let inp := deviceInputs cells tok
  return { s with
    cells := cells
    device := run (aloneOps dev u inp) (emit false e blocks) (inp.set s.device) }

/-- A row of logits is read and dumped. -/
noncomputable def Parity.read (s : Parity (Name → ℕ → Datum)) : Parity (Name → ℕ → Datum) :=
  { s with rows := s.rows ++ [readRow (reals (s.device (Name.buf .logits)))] }

/-- The passes of the prompt. -/
noncomputable def prefill : ℕ → Except String (Parity (Name → ℕ → Datum))
  | 0 => return ⟨0, .zero, [], []⟩
  | i + 1 => do alonePass dev u e blocks cap i (prompt.getD i 0) (← prefill i)

/-- `parity_run` after so many greedy steps, or the exception that has ended it. The prompt gives
one row, and each step one more. -/
noncomputable def parityRun : ℕ → Except String (Parity (Name → ℕ → Datum))
  | 0 => return (← prefill dev u e blocks cap prompt prompt.length).read
  | k + 1 => do
    let s ← parityRun k
    let s ← alonePass dev u e blocks cap (prompt.length + k) s.next
      { s with emitted := s.emitted ++ [s.next] }
    return s.read

end Alone

/-- The pair with its host: a parity run, what has been set for the pass on the way, and whether a
pass has failed. -/
structure ParityTensor : Type extends Parity (Tensor Datum) where
  fed : Inputs Syms Datum
  /-- `dual_run_pass` has returned false, and `parity_run_tensor` has returned 3 -/
  failed : Bool

/-- A step of a GPU, or of the host. The host's are to begin a pass of the prompt or of a greedy
step, to read a row, and to give up. -/
inductive PEv : Type where
  | device (e : TEv)
  | prefill
  | read
  | greedy
  /-- `dual_run_pass` returns false -/
  | fail

namespace ParityTensor

variable [F16 ℝ ℝ] (dev : Device) (up : Fin 2 → Gguf.Bytes → Option (List UInt8))
  (L : List (List (Ins Gguf.Bytes))) (cap : ℕ) (prompt : List ℕ) (steps : ℕ)

/-- The host has set the inputs of a pass and begun it. -/
structure Begins (s : ParityTensor) (tok : ℕ) (s' : ParityTensor) : Prop where
  set : ∃ w, gpuSetInputs cap s.device.pass s.cells = .ok (w, s'.cells)
  fed : s'.fed = deviceInputs s'.cells tok
  step : Tensor.Step (exactKernel dev) up (fun _ => s'.fed) L s.device .pass s'.device
  rows : s'.rows = s.rows
  failed : s'.failed = false

/-- The host has set the inputs of a pass, but `dual_run_pass` has found an error cell that is set
already: no doorbell has been rung. -/
structure Refused (s s' : ParityTensor) : Prop where
  done : ∀ g, (s.device.gpu g).left = L.length
  set : ∃ w, gpuSetInputs cap s.device.pass s.cells = .ok (w, s'.cells)
  device : s'.device = s.device
  rows : s'.rows = s.rows
  failed : s'.failed = true

/-- **What `parity_run_tensor` can do** while no pass has failed. When an error cell is set, and
when the deadline is over, is up to the outside world: a pass on the way can fail at any time. -/
inductive Step (s : ParityTensor) : PEv → ParityTensor → Prop where
  /-- a GPU moves -/
  | device {e : TEv} {t : Tensor Datum} (he : e ≠ .pass)
      (h : Tensor.Step (exactKernel dev) up (fun _ => s.fed) L s.device e t) :
      Step s (.device e) { s with device := t }
  /-- the pass of a token of the prompt -/
  | prefill {s' : ParityTensor} (hi : s.device.pass < prompt.length)
      (h : Begins dev up L cap s (prompt.getD s.device.pass 0) s')
      (hemitted : s'.emitted = s.emitted) :
      Step s .prefill s'
  /-- both GPUs are done, and `gather_logits` reads a row -/
  | read (hdone : ∀ g, (s.device.gpu g).left = L.length)
      (hpass : s.device.pass = prompt.length + s.emitted.length)
      (hrows : s.rows.length = s.emitted.length) :
      Step s .read { s with rows := s.rows ++ [readRow (Attention.gatherLogits nVocab
        (reals ((s.device.gpu 0).store (Name.buf .logits)))
        (reals ((s.device.gpu 1).store (Name.buf .logits))))] }
  /-- the pass of a token that the run has chosen -/
  | greedy {s' : ParityTensor} (hrows : s.rows.length = s.emitted.length + 1)
      (hsteps : s.emitted.length < steps) (h : Begins dev up L cap s s.next s')
      (hemitted : s'.emitted = s.emitted ++ [s.next]) : Step s .greedy s'
  /-- an error cell is set before the pass of a token of the prompt -/
  | prefillRefused {s' : ParityTensor} (hi : s.device.pass < prompt.length)
      (h : Refused L cap s s') (hemitted : s'.emitted = s.emitted) : Step s .fail s'
  /-- an error cell is set before the pass of a token that the run has chosen -/
  | greedyRefused {s' : ParityTensor} (hrows : s.rows.length = s.emitted.length + 1)
      (hsteps : s.emitted.length < steps) (h : Refused L cap s s')
      (hemitted : s'.emitted = s.emitted ++ [s.next]) : Step s .fail s'
  /-- waiting for the pass on the way, the host sees an error cell set or the deadline over -/
  | passFailed (hpass : 0 < s.device.pass) (hrows : s.rows.length = s.emitted.length) :
      Step s .fail { s with failed := true }

/-- `parity_run_tensor` as a transition system. A run in which a pass has failed is over. -/
def lts : Lts ParityTensor PEv where
  init s := s.device = Tensor.start L ∧ s.cells = .zero ∧ s.rows = [] ∧ s.emitted = [] ∧
    s.failed = false
  step s ev s' := s.failed = false ∧ Step dev up L cap prompt steps s ev s'

end ParityTensor

section Fail

variable [F16 ℝ ℝ] {dev : Device} {up : Fin 2 → Gguf.Bytes → Option (List UInt8)}
  {L : List (List (Ins Gguf.Bytes))} {cap : ℕ} {prompt : List ℕ} {steps : ℕ} {s s' : ParityTensor}

/-- No other step fails. -/
theorem ParityTensor.Step.ok {ev : PEv} (h : Step dev up L cap prompt steps s ev s')
    (hev : ev ≠ .fail) (hok : s.failed = false) : s'.failed = false := by
  cases h with
  | device he ht => exact hok
  | prefill hi hb hemitted => exact hb.failed
  | read hdone hpass hrows => exact hok
  | greedy hrows hsteps hb hemitted => exact hb.failed
  | prefillRefused hi hr hemitted => exact absurd rfl hev
  | greedyRefused hrows hsteps hr hemitted => exact absurd rfl hev
  | passFailed hpass hrows => exact absurd rfl hev

/-- **A pass fails once, and last.** -/
theorem exists_of_failed {τ : List PEv}
    (h : (ParityTensor.lts dev up L cap prompt steps).Run τ s) (hfailed : s.failed = true) :
    ∃ τ' s₀, τ = .fail :: τ' ∧ (ParityTensor.lts dev up L cap prompt steps).Run τ' s₀ ∧
      s₀.failed = false ∧ ParityTensor.Step dev up L cap prompt steps s₀ .fail s := by
  cases h with
  | start hs =>
    rw [hs.2.2.2.2] at hfailed
    cases hfailed
  | @snoc τ s₀ _ ev hrun hstep =>
    obtain ⟨hok, hstep⟩ := hstep
    by_cases hev : ev = .fail
    · subst hev
      exact ⟨τ, s₀, rfl, hrun, hok, hstep⟩
    · rw [hstep.ok hev hok] at hfailed
      cases hfailed

end Fail

/-! ## What has been set does not change -/

section Congr

variable {B P F W : Type*} [AddZeroClass F] {K : Kernel B P F} {up : Fin 2 → W → Option (List B)}
  {inputs inputs' : ℕ → Inputs P F} {L : List (List (Ins W))} {s s' : Tensor F} {ev : TEv}

/-- A GPU looks at the inputs of the pass that it is in. -/
theorem step_congr (he : ev ≠ .pass) (hinputs : inputs s.pass = inputs' s.pass)
    (h : Tensor.Step K up inputs L s ev s') : Tensor.Step K up inputs' L s ev s' := by
  have hsem (g : Fin 2) : Tensor.sem K up inputs s g = Tensor.sem K up inputs' s g := by
    rw [Tensor.sem, Tensor.sem, hinputs]
  cases h with
  | pass h => exact absurd rfl he
  | window hw hpush hready hp =>
    rw [hsem]
    exact .window hw hpush hready hp
  | push hw hk => exact .push hw hk
  | publish hw hk hpub => exact .publish hw hk hpub

theorem step_pass_congr {inp : Inputs P F} (hinputs : inputs (s.pass + 1) = inp)
    (h : Tensor.Step K up (fun _ => inp) L s .pass s') : Tensor.Step K up inputs L s .pass s' := by
  cases h with
  | pass h =>
    rw [← hinputs]
    exact .pass h

theorem pass_of_step (he : ev ≠ .pass) (h : Tensor.Step K up inputs L s ev s') :
    s'.pass = s.pass := by
  cases h with
  | pass h => exact absurd rfl he
  | window hw hpush hready hp => rfl
  | push hw hk => rfl
  | publish hw hk hpub => rfl

theorem pass_succ_of_step (h : Tensor.Step K up inputs L s .pass s') : s'.pass = s.pass + 1 := by
  cases h
  rfl

/-- The inputs of later passes do not matter to a run. -/
theorem run_congr {τ : List TEv} (h : (Tensor.lts K up inputs L).Run τ s)
    (hinputs : ∀ p ≤ s.pass, inputs p = inputs' p) : (Tensor.lts K up inputs' L).Run τ s := by
  induction h with
  | start hs => exact .start hs
  | @snoc τ s s' ev hrun hstep ih =>
    by_cases he : ev = .pass
    · subst he
      cases hstep with
      | pass hdone =>
        refine .snoc (ih fun p hp => hinputs p (hp.trans (Nat.le_succ _))) ?_
        exact step_pass_congr (hinputs _ le_rfl).symm (.pass hdone)
    · have hpass := pass_of_step he hstep
      rw [hpass] at hinputs
      exact .snoc (ih hinputs) (step_congr he (hinputs s.pass le_rfl) hstep)

/-- Nor to what a single GPU holds. -/
theorem alone_congr (S : Inputs P F → Sem W (ℕ → F)) (e : EndLeaves W)
    (blocks : List (Schedule.Block W)) {p : ℕ} (hinputs : ∀ q ≤ p, inputs q = inputs' q) :
    alone (fun p => S (inputs p)) inputs e blocks p =
      alone (fun p => S (inputs' p)) inputs' e blocks p := by
  induction p with
  | zero => rfl
  | succ p ih =>
    rw [alone, alone, ih fun q hq => hinputs q (hq.trans (Nat.le_succ p)), hinputs _ le_rfl]

end Congr

/-! ## The pair follows the single GPU -/

section Follow

variable [F16 ℝ ℝ] {dev : Device} {up : Fin 2 → Gguf.Bytes → Option (List UInt8)}
  {u : Gguf.Bytes → Option (List UInt8)} {e : EndLeaves Gguf.Bytes}
  {blocks : List (Schedule.Block Gguf.Bytes)} {L : List (List (Ins Gguf.Bytes))} {cap : ℕ}
  {prompt : List ℕ} {steps : ℕ} {s s' : ParityTensor} {s₁ s₂ : Parity (Name → ℕ → Datum)}

variable (dev up u e blocks L) in
/-- Device by device: the pair has had the inputs that the single GPU has had, pass by pass, which
is what the results about any number of passes ask for. -/
structure Mirrors (s : ParityTensor) (s₁ : Parity (Name → ℕ → Datum)) : Prop where
  run : ∃ inputs τ, (Tensor.lts (exactKernel dev) up inputs L).Run τ s.device ∧
    inputs s.device.pass = s.fed ∧
    s₁.device = alone (fun p => aloneOps dev u (inputs p)) inputs e blocks s.device.pass
  cells : s₁.cells = s.cells
  rows : s₁.rows = s.rows
  emitted : s₁.emitted = s.emitted

theorem alonePass_ok {pos tok w : ℕ} {cells : PassCells ℝ}
    (h : setPassInputs cap pos s₁.cells = .ok (w, cells)) (emitted : List ℕ) :
    alonePass dev u e blocks cap pos tok { s₁ with emitted := emitted } = .ok
      { s₁ with
        cells := cells
        device := Schedule.run (aloneOps dev u (deviceInputs cells tok)) (emit false e blocks)
          ((deviceInputs cells tok).set s₁.device)
        emitted := emitted } := by
  rw [alonePass, h]
  rfl

/-- **Both begin a pass** with the same inputs. -/
theorem Mirrors.begins (h : Mirrors dev up u e blocks L s s₁) {tok : ℕ}
    (hb : ParityTensor.Begins dev up L cap s tok s') :
    ∃ s₂, alonePass dev u e blocks cap s.device.pass tok
      { s₁ with emitted := s'.emitted } = .ok s₂ ∧
      Mirrors dev up u e blocks L s' s₂ := by
  obtain ⟨inputs, τ, hrun, -, hdevice⟩ := h.run
  obtain ⟨w, hset⟩ := hb.set
  have hpass := pass_succ_of_step hb.step
  -- the inputs so far, and those of the new pass
  obtain ⟨inputs', hbefore, hat⟩ : ∃ inputs' : ℕ → Inputs Syms Datum,
      (∀ p ≤ s.device.pass, inputs p = inputs' p) ∧ inputs' (s.device.pass + 1) = s'.fed :=
    ⟨Function.update inputs (s.device.pass + 1) s'.fed,
      fun p hp => (Function.update_of_ne (Nat.lt_succ_of_le hp).ne _ _).symm,
      Function.update_self ..⟩
  have halone := alone_congr (aloneOps dev u) e blocks hbefore
  rw [gpuSetInputs, ← h.cells] at hset
  refine ⟨_, alonePass_ok hset _, ⟨inputs', _, (run_congr hrun hbefore).snoc
    (step_pass_congr hat hb.step), ?_, ?_⟩, rfl, h.rows.trans hb.rows.symm, rfl⟩
  · rw [hpass, hat]
  · rw [hpass, alone, hat, ← halone, ← hdevice, hb.fed]

/-- A GPU of the pair moves. -/
theorem Mirrors.device (h : Mirrors dev up u e blocks L s s₁) {ev : TEv} {t : Tensor Datum}
    (he : ev ≠ .pass)
    (hstep : Tensor.Step (exactKernel dev) up (fun _ => s.fed) L s.device ev t) :
    Mirrors dev up u e blocks L { s with device := t } s₁ := by
  obtain ⟨inputs, τ, hrun, hfed, hdevice⟩ := h.run
  have hpass := pass_of_step he hstep
  refine ⟨⟨inputs, _, hrun.snoc (step_congr he hfed.symm hstep), ?_, ?_⟩, h.cells,
    h.rows, h.emitted⟩
  · rw [hpass, hfed]
  · rw [hpass, hdevice]

variable (dev u e blocks cap prompt) in
/-- Where a parity run on a single GPU may be after so many passes. -/
inductive Progress : ℕ → Parity (Name → ℕ → Datum) → Prop where
  | prefill {p : ℕ} {s₁ : Parity (Name → ℕ → Datum)} (hp : p ≤ prompt.length)
      (h : prefill dev u e blocks cap prompt p = .ok s₁) : Progress p s₁
  | read {k : ℕ} {s₁ : Parity (Name → ℕ → Datum)}
      (h : parityRun dev u e blocks cap prompt k = .ok s₁) : Progress (prompt.length + k) s₁
  | greedy {k : ℕ} {s₀ s₁ : Parity (Name → ℕ → Datum)}
      (h₀ : parityRun dev u e blocks cap prompt k = .ok s₀)
      (h : alonePass dev u e blocks cap (prompt.length + k) s₀.next
        { s₀ with emitted := s₀.emitted ++ [s₀.next] } = .ok s₁) :
      Progress (prompt.length + (k + 1)) s₁

theorem alonePass_eq {pos tok : ℕ} (h : alonePass dev u e blocks cap pos tok s₁ = .ok s₂) :
    s₂.rows = s₁.rows ∧ s₂.emitted = s₁.emitted := by
  obtain ⟨w, -, h⟩ := SplitGrid.bind_ok.mp h
  cases h
  exact ⟨rfl, rfl⟩

theorem prefill_eq {p : ℕ} (h : prefill dev u e blocks cap prompt p = .ok s₁) :
    s₁.rows = [] ∧ s₁.emitted = [] := by
  induction p generalizing s₁ with
  | zero =>
    cases h
    exact ⟨rfl, rfl⟩
  | succ p ih =>
    obtain ⟨s, hprev, h⟩ := SplitGrid.bind_ok.mp h
    obtain ⟨hrows, hemitted⟩ := alonePass_eq h
    rw [hrows, hemitted]
    exact ih hprev

/-- Every token that is emitted is the choice from the row before it. -/
theorem parityRun_eq {k : ℕ} (h : parityRun dev u e blocks cap prompt k = .ok s₁) :
    s₁.rows.length = k + 1 ∧ s₁.emitted = s₁.rows.dropLast.map argmaxF32First := by
  induction k generalizing s₁ with
  | zero =>
    obtain ⟨s, hprev, h⟩ := SplitGrid.bind_ok.mp h
    cases h
    obtain ⟨hrows, hemitted⟩ := prefill_eq hprev
    simp [Parity.read, hrows, hemitted]
  | succ k ih =>
    obtain ⟨s, hprev, h⟩ := SplitGrid.bind_ok.mp h
    obtain ⟨s₂, hpass, h⟩ := SplitGrid.bind_ok.mp h
    cases h
    obtain ⟨hrows, hemitted⟩ := ih hprev
    obtain ⟨hrows₂, hemitted₂⟩ := alonePass_eq hpass
    have hne : s.rows ≠ [] := ne_nil_of_length_eq_add_one hrows
    have hnext : [s.next] = [s.rows.getLast hne].map argmaxF32First := by
      rw [Parity.next, getLast?_eq_some_getLast hne]
      rfl
    simp only [Parity.read, hrows₂, hemitted₂, length_append, length_singleton, hrows,
      dropLast_concat, true_and]
    rw [hemitted, hnext, ← map_append, dropLast_append_getLast hne]

/-- During the prompt nothing is dumped and nothing emitted. -/
theorem Progress.prefill_nil {p : ℕ} (h : Progress dev u e blocks cap prompt p s₁)
    (hp : p < prompt.length) : s₁.rows = [] ∧ s₁.emitted = [] := by
  cases h with
  | prefill _ hpre => exact prefill_eq hpre
  | read hrun => omega
  | greedy hrun hlast => omega

theorem Progress.prefill_next {p : ℕ} (h : Progress dev u e blocks cap prompt p s₁)
    (hp : p < prompt.length)
    (hpass : alonePass dev u e blocks cap p (prompt.getD p 0) s₁ = .ok s₂) :
    Progress dev u e blocks cap prompt (p + 1) s₂ := by
  cases h with
  | prefill _ hpre =>
    refine .prefill hp ?_
    rw [Exact.prefill, hpre, ← hpass]
    rfl
  | read hrun => omega
  | greedy hrun hlast => omega

theorem Progress.read_next {p : ℕ} (h : Progress dev u e blocks cap prompt p s₁)
    (hp : p = prompt.length + s₁.emitted.length) (hlen : s₁.rows.length = s₁.emitted.length) :
    Progress dev u e blocks cap prompt p s₁.read := by
  cases h with
  | prefill _ hpre =>
    rw [(prefill_eq hpre).2] at hp
    obtain rfl : p = prompt.length := hp
    refine .read (k := 0) ?_
    rw [parityRun, hpre]
    rfl
  | read hrun =>
    obtain ⟨hrows, hemitted⟩ := parityRun_eq hrun
    simp [hemitted, hrows] at hlen
  | greedy hrun hlast =>
    refine .read ?_
    rw [parityRun, hrun]
    exact congrArg (Except.map Parity.read) hlast

theorem Progress.greedy_next {p : ℕ} (h : Progress dev u e blocks cap prompt p s₁)
    (hlen : s₁.rows.length = s₁.emitted.length + 1)
    (hpass : alonePass dev u e blocks cap p s₁.next
      { s₁ with emitted := s₁.emitted ++ [s₁.next] } = .ok s₂) :
    Progress dev u e blocks cap prompt (p + 1) s₂ := by
  cases h with
  | prefill _ hpre => simp [prefill_eq hpre] at hlen
  | read hrun => exact .greedy hrun hpass
  | greedy hrun hlast =>
    obtain ⟨hrows, hemitted⟩ := parityRun_eq hrun
    simp [alonePass_eq hlast, hemitted, hrows] at hlen

variable (dev up u e blocks L cap prompt) in
/-- What holds while the pair runs: the host of the pair is where a run on a single GPU is, with the
same rows and tokens, and the devices have had the same inputs. -/
structure ParityInv (s : ParityTensor) (s₁ : Parity (Name → ℕ → Datum)) : Prop where
  mirrors : Mirrors dev up u e blocks L s s₁
  progress : Progress dev u e blocks cap prompt s.device.pass s₁
  /-- between a row and the next pass both GPUs are done -/
  idle : s.rows.length = s.emitted.length + 1 → ∀ g, (s.device.gpu g).left = L.length

variable (dev up u e blocks L) in
/-- What the pair holds when both GPUs are done, against what a single GPU holds: caches, residual
and logits. -/
def PairSplits : Prop := ∀ inputs τ s, (Tensor.lts (exactKernel dev) up inputs L).Run τ s →
  (∀ g, (s.gpu g).left = L.length) → PassSplit CacheDealt LogitsDealt (fun g => (s.gpu g).store)
    (alone (fun p => aloneOps dev u (inputs p)) inputs e blocks s.pass)

theorem Mirrors.split (h : Mirrors dev up u e blocks L s s₁)
    (hsplit : PairSplits dev up u e blocks L)
    (hdone : ∀ g, (s.device.gpu g).left = L.length) :
    PassSplit CacheDealt LogitsDealt (fun g => (s.device.gpu g).store) s₁.device := by
  obtain ⟨inputs, τ, hrun, -, hdevice⟩ := h.run
  rw [hdevice]
  exact hsplit inputs τ s.device hrun hdone

omit [F16 ℝ ℝ] in
/-- The row that `gather_logits` reads is that of the single GPU. -/
theorem readRow_eq {logits : Fin 2 → ℕ → Datum} {logits₁ : ℕ → Datum}
    (h : LogitsDealt logits logits₁) :
    readRow (Attention.gatherLogits nVocab (reals (logits 0)) (reals (logits 1))) =
      readRow (reals logits₁) :=
  map_congr_left fun r hr => h r (mem_range.mp hr)

/-- A GPU that is done has nothing to do. -/
theorem not_step_of_done {inputs : ℕ → Inputs Syms Datum} {t t' : Tensor Datum} {ev : TEv}
    (hdone : ∀ g, (t.gpu g).left = L.length) (he : ev ≠ .pass) :
    ¬Tensor.Step (exactKernel dev) up inputs L t ev t' := by
  intro h
  cases h with
  | pass h => exact he rfl
  | window hw hpush hready hp => simp [hdone] at hw
  | push hw hk => simp [hdone] at hw
  | publish hw hk hpub => simp [hdone] at hw

/-- **A step of the pair** that does not fail is one of the single GPU, or none: beginning a pass
and reading a row are, while the windows of a pass happen between the two. -/
theorem ParityInv.step (h : ParityInv dev up u e blocks L cap prompt s s₁)
    (hsplit : PairSplits dev up u e blocks L) {ev : PEv}
    (hstep : ParityTensor.Step dev up L cap prompt steps s ev s') (hok : s'.failed = false) :
    ∃ s₂, ParityInv dev up u e blocks L cap prompt s' s₂ := by
  obtain ⟨hmirrors, hprogress, hidle⟩ := h
  have hrows := hmirrors.rows
  have hemitted := hmirrors.emitted
  cases hstep with
  | device he ht =>
    refine ⟨s₁, hmirrors.device he ht, ?_, fun hlen => absurd ht (not_step_of_done (hidle hlen) he)⟩
    simpa only [pass_of_step he ht] using hprogress
  | prefill hi hb hem =>
    obtain ⟨s₂, hpass, hmirrors₂⟩ := hmirrors.begins hb
    rw [hem, ← hemitted] at hpass
    refine ⟨s₂, hmirrors₂, pass_succ_of_step hb.step ▸ hprogress.prefill_next hi hpass,
      fun hlen => ?_⟩
    rw [hb.rows, ← hrows, (hprogress.prefill_nil hi).1] at hlen
    cases hlen
  | read hdone hpass hlen =>
    have hrow := readRow_eq (hmirrors.split hsplit hdone).logits
    rw [← hemitted] at hpass
    rw [← hrows, ← hemitted] at hlen
    refine ⟨s₁.read, ⟨hmirrors.run, hmirrors.cells, ?_, hemitted⟩, hprogress.read_next hpass hlen,
      fun _ => hdone⟩
    simp only [Parity.read, hrows, hrow]
  | greedy hlen hsteps hb hem =>
    have hchoice : s.next = s₁.next := by rw [Parity.next, Parity.next, hrows]
    obtain ⟨s₂, hpass, hmirrors₂⟩ := hmirrors.begins hb
    rw [hem, ← hemitted, hchoice] at hpass
    rw [← hrows, ← hemitted] at hlen
    refine ⟨s₂, hmirrors₂, pass_succ_of_step hb.step ▸ hprogress.greedy_next hlen hpass,
      fun hlen' => ?_⟩
    rw [hb.rows, hem, length_append, ← hrows, ← hemitted, hlen] at hlen'
    simp at hlen'
  | prefillRefused hi hr hem =>
    rw [hr.failed] at hok
    cases hok
  | greedyRefused hlen hsteps hr hem =>
    rw [hr.failed] at hok
    cases hok
  | passFailed hpass hlen => cases hok

theorem run_parityInv (hsplit : PairSplits dev up u e blocks L) {τ : List PEv}
    (h : (ParityTensor.lts dev up L cap prompt steps).Run τ s) (hok : s.failed = false) :
    ∃ s₁, ParityInv dev up u e blocks L cap prompt s s₁ := by
  induction h with
  | @start s hs =>
    obtain ⟨hdevice, hcells, hrows, hemitted, -⟩ := hs
    refine ⟨⟨0, .zero, [], []⟩, ⟨⟨fun _ => s.fed, [], .start hdevice, rfl, ?_⟩, hcells.symm,
      hrows.symm, hemitted.symm⟩, ?_, fun hlen => ?_⟩
    · rw [hdevice]
      rfl
    · rw [hdevice]
      exact .prefill (Nat.zero_le _) rfl
    · rw [hrows, hemitted] at hlen
      cases hlen
  | snoc _ hstep ih =>
    obtain ⟨hprev, hstep⟩ := hstep
    obtain ⟨s₁, hinv⟩ := ih hprev
    exact hinv.step hsplit hstep hok

/-- The rows that a single GPU has dumped are those of so many greedy steps. -/
theorem Progress.rows {p k : ℕ} (h : Progress dev u e blocks cap prompt p s₁)
    (hlen : s₁.rows.length = k + 1) : ∃ s₂, Exact.parityRun dev u e blocks cap prompt k = .ok s₂ ∧
      s₂.rows = s₁.rows ∧ s₂.emitted <+: s₁.emitted := by
  cases h with
  | prefill _ hpre => simp [prefill_eq hpre] at hlen
  | @read k' _ hrun =>
    rw [(parityRun_eq hrun).1, Nat.add_right_cancel_iff] at hlen
    exact ⟨s₁, hlen ▸ hrun, rfl, prefix_rfl⟩
  | @greedy k' s₀ _ hrun hlast =>
    obtain ⟨hrows, hemitted⟩ := alonePass_eq hlast
    rw [hrows, (parityRun_eq hrun).1, Nat.add_right_cancel_iff] at hlen
    refine ⟨s₀, hlen ▸ hrun, hrows.symm, ?_⟩
    rw [hemitted]
    exact prefix_append _ _

/-- When a row has been read, the single GPU has read as many. -/
theorem Progress.parityRun {p : ℕ} (h : Progress dev u e blocks cap prompt p s₁)
    (hlen : s₁.rows.length = s₁.emitted.length + 1) :
    parityRun dev u e blocks cap prompt s₁.emitted.length = .ok s₁ := by
  cases h with
  | prefill _ hpre => simp [prefill_eq hpre] at hlen
  | read hrun =>
    obtain ⟨hrows, hemitted⟩ := parityRun_eq hrun
    rwa [hemitted, length_map, length_dropLast, hrows, Nat.add_sub_cancel]
  | greedy hrun hlast =>
    obtain ⟨hrows, hemitted⟩ := parityRun_eq hrun
    simp [alonePass_eq hlast, hemitted, hrows] at hlen

end Follow

end Exact

end Megakernel
