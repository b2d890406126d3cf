import Megakernel.Lockstep

/-!
# What a block executes in a pass

The steps a block takes inside the instruction loop, sorted by pass. `stepsIn`
reads them off the history of a run: entering and leaving an op, skipping an
instruction of other blocks, and the three stages of an OP_BOUNDARY. `passSteps`
is what one walk over the program should give, each instruction once and in
order.

`run_logged` says that this is what happens: the log of a block's current pass
is the part of the walk before its place in the code, the logs of the passes
before are complete walks, and nothing is logged for later passes. With the
boundary, a published pass is then a complete walk of every block
(`Logged.of_done`).

The log is computed from the history and the place in the code is a part of the state, so `Logged`
is an invariant that needs no auxiliary variable. Its step lemma distinguishes only whether a step
stays in the pass (`Logged.advance`) or ends it (`Logged.next`).
-/

namespace Megakernel

variable {π : Type*} {n : ℕ} {prog : List (Instr π)}

/-- The instruction index a step is about. -/
def Act.index : Act → Option ℕ
  | .cross i | .begin i | .skip i | .bad i | .tick i | .raise i _ _ | .finish i | .arrive i
  | .spin i | .leave i => some i
  | _ => none

/-- A step on an instruction of the program, not on the epilogue. -/
def Act.Executes (prog : List (Instr π)) (a : Act) : Prop := ∃ i < prog.length, a.index = some i

/-- The steps that are logged: each happens once for an instruction. -/
def Act.logged (prog : List (Instr π)) : Act → Bool
  | .cross i | .begin i | .skip i | .finish i | .arrive i | .leave i => decide (i < prog.length)
  | _ => false

/-- The pass block `b` is in: one more than the passes it has completed. -/
def passOf (b : Fin n) (τ : List (Ev n)) : ℕ :=
  τ.count (.blk b .publish) + τ.count (.blk b .turn) + 1

/-- The logged steps of block `b` in pass `N`, oldest first. It is computed from the history alone,
so that a statement about it needs no ghost state. -/
def stepsIn (prog : List (Instr π)) (b : Fin n) (N : ℕ) : List (Ev n) → List Act
  | [] => []
  | .blk j a :: τ =>
    stepsIn prog b N τ ++ if j = b ∧ passOf b τ = N ∧ a.logged prog = true then [a] else []
  | _ :: τ => stepsIn prog b N τ

/-- What block `b` does on instruction `i`. -/
def instrSteps (prog : List (Instr π)) (b i : ℕ) : List Act :=
  if isCrossing prog i then [.cross i, .arrive i, .leave i]
  else if runs prog b i then [.begin i, .finish i]
  else [.skip i]

/-- What block `b` does on the first `k` instructions: an op it takes part in is entered and left,
one it does not take part in is skipped, and a boundary has its three stages. -/
def walk (prog : List (Instr π)) (b k : ℕ) : List Act := (List.range k).flatMap (instrSteps prog b)

/-- What block `b` does in one pass: each instruction once and in order. -/
def passSteps (prog : List (Instr π)) (b : ℕ) : List Act := walk prog b prog.length

/-- The part of the walk before a place in the code. -/
def Pc.steps (prog : List (Instr π)) (b : ℕ) : Pc → List Act
  | .fetch i => walk prog b i
  | .op i => walk prog b i ++ [.begin i]
  | .arrive i => walk prog b i ++ if i < prog.length then [.cross i] else []
  | .spin i => walk prog b i ++ if i < prog.length then [.cross i, .arrive i] else []
  | .sample | .sampled _ => passSteps prog b
  | _ => []

/-- The log `l` of pass `p` fits the place in the code. A block that is on its way out
has stopped before an instruction or after the epilogue. -/
def Pc.Logged (prog : List (Instr π)) (b p L : ℕ) (l : List Act) : Pc → Prop
  | .exit | .ret => ∃ i ≤ prog.length, l = walk prog b i ∧
      (L = (p - 1) * stride prog + bnd prog i ∨ i = prog.length ∧ L = p * stride prog)
  | pc => l = pc.steps prog b

/-- A program without bad kinds has none anywhere. -/
theorem badAt_eq_false (h : ∀ ins ∈ prog, ins.isBad = false) (i : ℕ) : badAt prog i = false := by
  rw [badAt]
  rcases hi : prog[i]? with _ | ins
  · rfl
  · simp [h ins (List.mem_of_getElem? hi)]

/-- The steps up to the next instruction are those before it and its own, -/
theorem walk_succ (prog : List (Instr π)) (b i : ℕ) :
    walk prog b (i + 1) = walk prog b i ++ instrSteps prog b i := by
  simp [walk, List.range_succ]

/-- so that the walk of a pass begins with the walk up to any place in it. -/
theorem walk_isPrefix (prog : List (Instr π)) (b : ℕ) {i k : ℕ} (h : i ≤ k) :
    walk prog b i <+: walk prog b k := by
  induction k, h using Nat.le_induction with
  | base => exact List.prefix_rfl
  | succ k _ ih =>
    rw [walk_succ]
    exact ih.trans (List.prefix_append _ _)

section Instr

variable {b i : ℕ}

/-- A boundary is crossed in three steps: the block sees it, arrives, and leaves when all have
arrived. -/
theorem instrSteps_of_isCrossing (h : isCrossing prog i = true) :
    instrSteps prog b i = [.cross i, .arrive i, .leave i] := by
  rw [instrSteps, if_pos h]

/-- An instruction that is run is no crossing. -/
theorem isCrossing_eq_false_of_runs (h : runs prog b i = true) :
    isCrossing prog i = false := by
  rw [runs] at h
  rw [isCrossing]
  rcases hi : prog[i]? with _ | ins
  · rw [hi] at h
    cases h
  · rw [hi] at h
    simp only [Bool.and_eq_true, Bool.not_eq_true'] at h
    exact h.1.1

/-- An op that is due is begun and ended, -/
theorem instrSteps_of_runs (h : runs prog b i = true) :
    instrSteps prog b i = [.begin i, .finish i] := by
  rw [instrSteps, isCrossing_eq_false_of_runs h, h]
  rfl

/-- and one that is for other blocks is skipped in one step. -/
theorem instrSteps_of_skips (h : skips prog b i = true) : instrSteps prog b i = [.skip i] := by
  rw [skips] at h
  rw [instrSteps, isCrossing, runs]
  rcases hi : prog[i]? with _ | ins
  · rw [hi] at h
    cases h
  · rw [hi] at h
    simp only [Bool.and_eq_true, Bool.not_eq_true'] at h
    simp only [h.1.1, h.2]
    simp

/-- The instruction a block works on is one of the program, unless it is at the epilogue. -/
theorem lt_length_of_runs (h : runs prog b i = true) : i < prog.length := (bnd_succ_of_runs h).1

end Instr

/-! ## Logs, along a run -/

/-- What the history says about one block: the log of the current pass is the walk up to its place,
the logs of the passes before are complete, and there is none for later ones. -/
structure Logged (prog : List (Instr π)) (b : Fin n) (τ : List (Ev n)) (k : Block) : Prop where
  /-- the block's own pass counter does not wrap -/
  pass : k.pass.toNat = passOf b τ
  /-- the passes behind it are complete -/
  past : ∀ N, 1 ≤ N → N < passOf b τ → stepsIn prog b N τ = passSteps prog b
  /-- the current pass is done up to the place in the code -/
  current : k.pc.Logged prog b (passOf b τ) (left b τ) (stepsIn prog b (passOf b τ) τ)
  /-- nothing is done for later passes -/
  future : ∀ N, passOf b τ < N → stepsIn prog b N τ = []

section Cons

variable {b j : Fin n} {a : Act} {τ : List (Ev n)}

/-- The first pass has the number 1. -/
theorem passOf_pos (b : Fin n) (τ : List (Ev n)) : 1 ≤ passOf b τ := Nat.le_add_left _ _

/-- The number of a block's pass stays as it is while the block is in the pass, -/
theorem passOf_cons_self (h₁ : a ≠ .publish) (h₂ : a ≠ .turn) :
    passOf b (.blk b a :: τ) = passOf b τ := by
  simp [passOf, h₁, h₂]

/-- goes on by one when the block turns to the next pass, -/
theorem passOf_cons_next (h : a = .publish ∨ a = .turn) :
    passOf b (.blk b a :: τ) = passOf b τ + 1 := by
  rcases h with rfl | rfl
  · simp [passOf]
    omega
  · simp [passOf]
    omega

/-- and does not depend on other blocks -/
theorem passOf_cons_other (h : j ≠ b) : passOf b (.blk j a :: τ) = passOf b τ := by
  simp [passOf, h]

/-- The events of other parties leave the log of a block alone. Among them are the steps of the
other blocks and everything the host does. -/
def Ev.Foreign (b : Fin n) : Ev n → Prop
  | .blk j _ => j ≠ b
  | _ => True

/-- nor on the host. -/
theorem passOf_cons_foreign {e : Ev n} (h : e.Foreign b) : passOf b (e :: τ) = passOf b τ := by
  cases e with
  | blk j a => exact passOf_cons_other h
  | _ => simp [passOf]

/-- The steps of a block in a pass are its own. -/
theorem stepsIn_cons_foreign {e : Ev n} (h : e.Foreign b) (N : ℕ) :
    stepsIn prog b N (e :: τ) = stepsIn prog b N τ := by
  cases e with
  | blk j a =>
    rw [stepsIn, if_neg (fun hj => h hj.1), List.append_nil]
  | _ => rfl

/-- So are the boundaries it has left. -/
theorem left_cons_foreign {e : Ev n} (h : e.Foreign b) : left b (e :: τ) = left b τ := by
  cases e with
  | blk j a => exact left_cons_other h a τ
  | _ => exact left_cons_of_none rfl b τ

/-- A step is logged in the pass that the block is in at the time. -/
theorem stepsIn_cons_self (N : ℕ) :
    stepsIn prog b N (.blk b a :: τ) =
      stepsIn prog b N τ ++ if passOf b τ = N ∧ a.logged prog = true then [a] else [] := by
  simp [stepsIn]

/-- Logs only grow. -/
theorem mem_stepsIn_cons {a : Act} {N : ℕ} (e : Ev n) (h : a ∈ stepsIn prog b N τ) :
    a ∈ stepsIn prog b N (e :: τ) := by
  cases e with
  | blk j a' => exact List.mem_append_left _ h
  | _ => exact h

/-- Other parties do not touch what is known of a block. -/
theorem Logged.foreign {e : Ev n} {k : Block} (h : Logged prog b τ k) (he : e.Foreign b) :
    Logged prog b (e :: τ) k := by
  refine ⟨?_, fun N => ?_, ?_, fun N => ?_⟩
  · rw [passOf_cons_foreign he]
    exact h.pass
  · rw [passOf_cons_foreign he, stepsIn_cons_foreign he]
    exact h.past N
  · rw [passOf_cons_foreign he, stepsIn_cons_foreign he, left_cons_foreign he]
    exact h.current
  · rw [passOf_cons_foreign he, stepsIn_cons_foreign he]
    exact h.future N

/-- A step within a pass: the log of that pass is extended by the step, if it is logged. -/
theorem Logged.advance {k k' : Block} (h : Logged prog b τ k) (h₁ : a ≠ .publish) (h₂ : a ≠ .turn)
    (hpass : k'.pass = k.pass)
    (hcur : k'.pc.Logged prog b (passOf b τ) (left b τ + a.crossed)
      (stepsIn prog b (passOf b τ) τ ++ if a.logged prog = true then [a] else [])) :
    Logged prog b (.blk b a :: τ) k' := by
  have hsame : ∀ N, N ≠ passOf b τ →
      stepsIn prog b N (.blk b a :: τ) = stepsIn prog b N τ := fun N hN => by
    rw [stepsIn_cons_self, if_neg (fun h => hN h.1.symm), List.append_nil]
  refine ⟨?_, fun N => ?_, ?_, fun N => ?_⟩
  · rw [passOf_cons_self h₁ h₂, hpass]
    exact h.pass
  · rw [passOf_cons_self h₁ h₂]
    intro hpos hlt
    rw [hsame N hlt.ne]
    exact h.past N hpos hlt
  · rw [passOf_cons_self h₁ h₂, left_cons_self, stepsIn_cons_self]
    simpa using hcur
  · rw [passOf_cons_self h₁ h₂]
    intro hlt
    rw [hsame N hlt.ne']
    exact h.future N hlt

/-- The end of a pass: its log is complete, the next one is empty. -/
theorem Logged.next {k k' : Block} (h : Logged prog b τ k) (ha : a = .publish ∨ a = .turn)
    (hlt : k.pass.toNat < 2 ^ 32 - 1) (hpass : k'.pass = k.pass + 1) (hpc : k.pc = .sampled 0)
    (hpc' : k'.pc = .poll) : Logged prog b (.blk b a :: τ) k' := by
  have hadd : k'.pass.toNat = k.pass.toNat + 1 := by
    rw [hpass]
    exact Wrap.toNat_add_one (by omega)
  have hlog : a.logged prog = false := by rcases ha with rfl | rfl <;> rfl
  have hsame : ∀ N, stepsIn prog b N (.blk b a :: τ) = stepsIn prog b N τ := fun N => by
    rw [stepsIn_cons_self, hlog, if_neg (fun h => nomatch h.2), List.append_nil]
  have hfull : stepsIn prog b (passOf b τ) τ = passSteps prog b := by
    have := h.current
    rw [hpc] at this
    exact this
  refine ⟨?_, fun N hpos hN => ?_, ?_, fun N hN => ?_⟩
  · rw [passOf_cons_next ha, hadd, h.pass]
  · rw [passOf_cons_next ha] at hN
    rw [hsame]
    rcases Nat.lt_succ_iff_lt_or_eq.mp hN with hlt' | rfl
    · exact h.past N hpos hlt'
    · exact hfull
  · rw [passOf_cons_next ha, hsame, hpc']
    exact h.future _ (Nat.lt_succ_self _)
  · rw [passOf_cons_next ha] at hN
    rw [hsame]
    exact h.future N ((Nat.lt_succ_self _).trans hN)

end Cons

section Step

variable {τ : List (Ev n)} {s : Gpu n} {b : Fin n}

/-- A block step keeps its log in step with its place in the code. -/
theorem Logged.step (hl : Lock prog τ s) (h : Logged prog b τ (s.block b)) {a : Act} {c : Cells}
    {k : Block} (hs : BlockStep n prog b s.cells (s.block b) a c k) :
    Logged prog b (.blk b a :: τ) k := by
  have hb := hl.block b
  have hwf := hb.wf
  have hat := hb.place
  have hcur := h.current
  rw [← h.pass] at hcur
  cases hs with
  | poll hp | tick hp | spin hp =>
    refine h.advance (by simp) (by simp) rfl ?_
    simpa [Act.logged, Act.crossed] using h.current
  | raise hp =>
    refine h.advance (by simp) (by simp) rfl ?_
    simpa [Act.logged, Act.crossed] using h.current
  | store hr =>
    refine h.advance (by simp) (by simp) rfl ?_
    simpa [Act.logged, Act.crossed] using h.current
  | publish hp h0 =>
    exact h.next (Or.inl rfl) (hb.live (by rw [hp]; trivial)).2.1 rfl hp rfl
  | turn hp h0 =>
    exact h.next (Or.inr rfl) (hb.live (by rw [hp]; trivial)).2.1 rfl hp rfl
  | @hear v hp =>
    rw [hp] at hcur
    have hnil : stepsIn prog b (BitVec.toNat (s.block b).pass) τ = [] := hcur
    refine h.advance (by simp) (by simp) rfl ?_
    rw [← h.pass, hnil]
    by_cases h0 : b.val = 0
    · simp only [if_pos h0]
      rfl
    · simp only [if_neg h0]
      rfl
  | forward hp | start hp =>
    rw [hp] at hcur
    refine h.advance (by simp) (by simp) rfl ?_
    rw [← h.pass]
    simpa [Act.logged, Pc.Logged, Pc.steps, walk] using hcur
  | stop hp =>
    rw [hp] at hcur hat
    refine h.advance (by simp) (by simp) rfl ⟨0, Nat.zero_le _, ?_, Or.inl ?_⟩
    · rw [← h.pass]
      simpa [Act.logged, walk, Pc.Logged, Pc.steps] using hcur
    · rw [← h.pass, bnd_zero]
      exact hat
  | @cross i hp hi =>
    rw [hp] at hcur
    refine h.advance (by simp) (by simp) rfl ?_
    rw [← h.pass]
    simp only [Act.logged, decide_eq_true_eq]
    exact congrArg (· ++ _) hcur
  | @begin i hp hi =>
    rw [hp] at hcur
    refine h.advance (by simp) (by simp) rfl ?_
    rw [← h.pass]
    simp only [Act.logged, decide_eq_true_eq, if_pos (lt_length_of_runs hi)]
    exact congrArg (· ++ _) hcur
  | @skip i hp hi =>
    rw [hp] at hcur
    refine h.advance (by simp) (by simp) rfl ?_
    rw [← h.pass]
    simp only [Act.logged, decide_eq_true_eq, if_pos (bnd_succ_of_skips hi).1]
    rw [Pc.Logged, Pc.steps, walk_succ, instrSteps_of_skips hi]
    · exact congrArg (· ++ _) hcur
    · simp
    · simp
  | @bad i hp hi =>
    rw [hp] at hcur hat hwf
    have hlog : Pc.Logged prog b (passOf b τ) (left b τ + 0)
        (stepsIn prog b (passOf b τ) τ ++ if false = true then [.bad i] else []) .ret := by
      refine ⟨i, hwf, ?_, Or.inl ?_⟩
      · rw [← h.pass]
        simpa [Pc.Logged, Pc.steps] using hcur
      · rw [← h.pass]
        exact hat
    split
    · exact h.advance (by simp) (by simp) rfl hlog
    · exact h.advance (by simp) (by simp) rfl hlog
  | @finish i hp hq =>
    rw [hp] at hcur hwf
    refine h.advance (by simp) (by simp) rfl ?_
    rw [← h.pass]
    simp only [Act.logged, decide_eq_true_eq, if_pos (lt_length_of_runs hwf)]
    rw [Pc.Logged, Pc.steps, walk_succ, instrSteps_of_runs hwf]
    · rw [show stepsIn prog b _ τ = _ from hcur, Pc.steps, List.append_assoc]
      rfl
    · simp
    · simp
  | @arrive i hp =>
    rw [hp] at hcur
    refine h.advance (by simp) (by simp) rfl ?_
    rw [← h.pass, show stepsIn prog b _ τ = _ from hcur]
    simp only [Act.logged, decide_eq_true_eq, Pc.Logged, Pc.steps]
    split <;> simp
  | @leave i hp ht =>
    rw [hp] at hcur hwf
    refine h.advance (by simp) (by simp) rfl ?_
    rw [← h.pass, show stepsIn prog b _ τ = _ from hcur, afterCross]
    simp only [Act.logged, decide_eq_true_eq, Pc.steps]
    by_cases hi : i < prog.length
    · simp only [if_pos hi, Pc.Logged, Pc.steps]
      rw [walk_succ, instrSteps_of_isCrossing hwf.2, List.append_assoc]
      rfl
    · obtain rfl : i = prog.length := le_antisymm hwf.1 (not_lt.mp hi)
      simp [Pc.Logged, Pc.steps, passSteps]
  | sample hp =>
    rw [hp] at hcur
    refine h.advance (by simp) (by simp) rfl ?_
    rw [← h.pass]
    simpa [Act.logged, Pc.Logged, Pc.steps] using hcur
  | quit hp hne =>
    rw [hp] at hcur hat
    refine h.advance (by simp) (by simp) rfl ⟨prog.length, le_rfl, ?_, Or.inr ⟨rfl, ?_⟩⟩
    · rw [← h.pass]
      simpa [Act.logged, Pc.Logged, Pc.steps, passSteps] using hcur
    · rw [← h.pass, ← sub_one_mul_add hb.pass_pos]
      exact hat
  | gone hp hq =>
    rw [hp] at hcur
    refine h.advance (by simp) (by simp) rfl ?_
    rw [← h.pass]
    simpa [Act.logged, Act.crossed, Pc.Logged] using hcur

end Step

/-- **In every run the logs fit.** -/
theorem run_logged (hn : n < 2 ^ 31) {τ : List (Ev n)} {s : Gpu n} (h : (Gpu.lts n prog).Run τ s)
    (b : Fin n) : Logged prog b τ (s.block b) := by
  refine Lts.Run.inv (I := fun τ s => Logged prog b τ (s.block b)) ?_ ?_ h
  · rintro s rfl
    exact ⟨show (1 : U32).toNat = 1 by decide, fun N h₁ h₂ => absurd h₂ (not_lt.mpr h₁), rfl,
      fun N _ => rfl⟩
  · rintro τ s e s' hr ih hs
    cases e with
    | blk j a =>
      obtain ⟨c, k, hstep, rfl⟩ := Gpu.step_blk.mp hs
      rcases eq_or_ne j b with rfl | hne
      · simp only [Function.update_self]
        exact ih.step (run_lock hn hr) hstep
      · simp only [Function.update_of_ne hne.symm]
        exact ih.foreign hne
    | ring =>
      obtain ⟨-, rfl⟩ := Gpu.step_ring.mp hs
      exact ih.foreign trivial
    | halt =>
      obtain rfl := Gpu.step_halt.mp hs
      exact ih.foreign trivial
    | token t =>
      obtain ⟨-, rfl⟩ := Gpu.step_token.mp hs
      exact ih.foreign trivial

/-! ## What the logs say -/

section Logs

variable {τ : List (Ev n)} {s : Gpu n}

/-- In every pass a block has done an initial part of the walk, once. In particular no instruction
is done twice, and none before one in front of it. -/
theorem Logged.isPrefix (hl : Lock prog τ s) {b : Fin n} (h : Logged prog b τ (s.block b)) (N : ℕ) :
    1 ≤ N → stepsIn prog b N τ <+: passSteps prog b := by
  intro hpos
  rcases lt_trichotomy N (passOf b τ) with hlt | rfl | hgt
  · rw [h.past N hpos hlt]
  · have hwf := (hl.block b).wf
    have hcur := h.current
    rcases hp : (s.block b).pc with _ | v | v | i | i | i | i | _ | e | _ | _ <;>
      rw [hp] at hcur hwf
    · rw [show stepsIn prog b _ τ = [] from hcur]
      exact List.nil_prefix
    · rw [show stepsIn prog b _ τ = [] from hcur]
      exact List.nil_prefix
    · rw [show stepsIn prog b _ τ = [] from hcur]
      exact List.nil_prefix
    · rw [show stepsIn prog b _ τ = walk prog b i from hcur]
      exact walk_isPrefix prog b hwf
    · have hi := lt_length_of_runs hwf
      refine List.IsPrefix.trans ?_ (walk_isPrefix prog b (Nat.succ_le_of_lt hi))
      rw [show stepsIn prog b _ τ = walk prog b i ++ [.begin i] from hcur, walk_succ,
        instrSteps_of_runs hwf]
      exact (List.prefix_append_right_inj _).mpr ⟨[.finish i], rfl⟩
    · rw [show stepsIn prog b _ τ = _ from hcur, Pc.steps]
      by_cases hi : i < prog.length
      · refine List.IsPrefix.trans ?_ (walk_isPrefix prog b (Nat.succ_le_of_lt hi))
        rw [if_pos hi, walk_succ, instrSteps_of_isCrossing hwf.2]
        exact (List.prefix_append_right_inj _).mpr ⟨[.arrive i, .leave i], rfl⟩
      · rw [if_neg hi, List.append_nil]
        exact walk_isPrefix prog b hwf.1
    · rw [show stepsIn prog b _ τ = _ from hcur, Pc.steps]
      by_cases hi : i < prog.length
      · refine List.IsPrefix.trans ?_ (walk_isPrefix prog b (Nat.succ_le_of_lt hi))
        rw [if_pos hi, walk_succ, instrSteps_of_isCrossing hwf.2]
        exact (List.prefix_append_right_inj _).mpr ⟨[.leave i], rfl⟩
      · rw [if_neg hi, List.append_nil]
        exact walk_isPrefix prog b hwf.1
    · rw [show stepsIn prog b _ τ = passSteps prog b from hcur]
    · rw [show stepsIn prog b _ τ = passSteps prog b from hcur]
    · obtain ⟨i, hi, heq, -⟩ := hcur
      rw [heq]
      exact walk_isPrefix prog b hi
    · obtain ⟨i, hi, heq, -⟩ := hcur
      rw [heq]
      exact walk_isPrefix prog b hi
  · rw [h.future N hgt]
    exact List.nil_prefix

/-- **A published pass is a complete walk of every block.** -/
theorem Logged.of_done (hl : Lock prog τ s) (hinv : Grid.Inv (τ.filterMap Ev.cross) s.grid)
    {b : Fin n} (h : Logged prog b τ (s.block b)) {N : ℕ} (hpos : 1 ≤ N)
    (hN : N ≤ s.cells.done.toNat) : stepsIn prog b N τ = passSteps prog b := by
  rcases lt_or_ge N (passOf b τ) with hlt | hge
  · exact h.past N hpos hlt
  -- block 0 is behind the epilogue of pass `done`, so everybody has arrived there
  have hz := (hl.zero ⟨0, b.pos⟩ rfl).done
  have hL := (hl.block ⟨0, b.pos⟩).place.le
  have hsound : left _ τ ≤ arrived b τ := hinv.sound ⟨0, b.pos⟩ b
  have hdone : N * stride prog ≤ arrived b τ := by
    rw [← hz, Nat.add_sub_cancel] at hL
    exact (Nat.mul_le_mul_right _ hN).trans (hL.trans hsound)
  have hge' : (s.block b).pass.toNat ≤ N := by
    rw [h.pass]
    exact hge
  have hmono : (s.block b).pass.toNat * stride prog ≤ N * stride prog :=
    Nat.mul_le_mul_right _ hge'
  have hlast := sub_one_mul_add (m := stride prog) (hl.block b).pass_pos
  have hstride : 0 < stride prog := Nat.succ_pos _
  have hnot : ¬ (s.block b).pc.Executing prog := fun he =>
    absurd (hl.arrived_lt hinv he) (not_lt.mpr (hmono.trans hdone))
  have hout := arrived_eq_left hinv (b := b)
  have hat := (hl.block b).place
  have hwf := (hl.block b).wf
  have hcur := h.current
  -- so `b` is at the end of its walk, in no later pass
  have hend : arrived b τ ≤ (s.block b).pass.toNat * stride prog ∧
      stepsIn prog b (passOf b τ) τ = passSteps prog b := by
    rcases hp : (s.block b).pc with _ | v | v | i | i | i | i | _ | e | _ | _ <;>
      rw [hp] at hat hwf hcur hnot hout
    · have := hout (by simp [Pc.phase])
      simp only [Pc.At] at hat
      omega
    · have := hout (by simp [Pc.phase])
      simp only [Pc.At] at hat
      omega
    · have := hout (by simp [Pc.phase])
      simp only [Pc.At] at hat
      omega
    · exact absurd trivial hnot
    · exact absurd trivial hnot
    · exact absurd trivial hnot
    · obtain rfl : i = prog.length := le_antisymm hwf.1 (not_lt.mp hnot)
      have harr : arrived b τ = left b τ + 1 := by
        have := hinv.arrived b
        rwa [if_pos (show s.grid.phase b = .spinning from congrArg Pc.phase hp)] at this
      have hbnd : bnd prog prog.length + 1 = stride prog := bnd_length
      simp only [Pc.At] at hat
      refine ⟨by omega, ?_⟩
      simpa [Pc.Logged, Pc.steps, passSteps] using hcur
    · have := hout (by simp [Pc.phase])
      simp only [Pc.At] at hat
      exact ⟨by omega, hcur⟩
    · have := hout (by simp [Pc.phase])
      simp only [Pc.At] at hat
      exact ⟨by omega, hcur⟩
    all_goals
      have := hout (by simp [Pc.phase])
      obtain ⟨i, hi, heq, hL | ⟨rfl, hL⟩⟩ := hcur
      · have hlt := place_lt prog i (hl.block b).pass_pos
        rw [h.pass] at hlt hge' hmono
        omega
      · rw [h.pass]
        exact ⟨by omega, heq⟩
  obtain rfl : N = passOf b τ := by
    rw [h.pass] at hend hge'
    exact (Nat.le_of_mul_le_mul_right (hdone.trans hend.1) hstride).antisymm hge'
  exact hend.2

/-- The steps of the first `k` instructions are about instructions before `k`. -/
theorem index_of_mem_walk {b k : ℕ} {a : Act} (h : a ∈ walk prog b k) :
    ∃ i < k, a.index = some i := by
  obtain ⟨i, hi, ha⟩ := List.mem_flatMap.mp h
  refine ⟨i, List.mem_range.mp hi, ?_⟩
  rw [instrSteps] at ha
  split at ha
  · simp only [List.mem_cons, List.not_mem_nil, or_false] at ha
    rcases ha with rfl | rfl | rfl <;> rfl
  · split at ha <;> simp only [List.mem_cons, List.not_mem_nil, or_false] at ha
    · rcases ha with rfl | rfl <;> rfl
    · rw [ha]
      rfl

/-- An instruction a block runs is begun and finished in every walk beyond it. -/
theorem finish_mem_walk {b i k : ℕ} (hr : runs prog b i = true) (hi : i < k) :
    .finish i ∈ walk prog b k :=
  List.mem_flatMap.mpr ⟨i, List.mem_range.mpr hi, by simp [instrSteps_of_runs hr]⟩

/-- Before an instruction its op has not been entered in this pass. -/
theorem Logged.begin_notMem {b : Fin n} {i : ℕ} (h : Logged prog b τ (s.block b))
    (hp : (s.block b).pc = .fetch i) : .begin i ∉ stepsIn prog b (passOf b τ) τ := by
  have hcur := h.current
  rw [hp] at hcur
  rw [show stepsIn prog b _ τ = walk prog b i from hcur]
  intro hmem
  obtain ⟨j, hj, heq⟩ := index_of_mem_walk hmem
  cases heq
  exact lt_irrefl _ hj

/-- Inside an op its entry is logged. -/
theorem Logged.begin_mem {b : Fin n} {i : ℕ} (h : Logged prog b τ (s.block b))
    (hp : (s.block b).pc = .op i) : .begin i ∈ stepsIn prog b (passOf b τ) τ := by
  have hcur := h.current
  rw [hp] at hcur
  rw [show stepsIn prog b _ τ = walk prog b i ++ [.begin i] from hcur]
  simp

/-- An instruction in the window that a crossing ends stands before the crossing. -/
theorem lt_of_bnd_le_crossing {i j : ℕ} (hi : isCrossing prog i = false) (hil : i < prog.length)
    (hj : isCrossing prog j = true) (h : bnd prog i ≤ bnd prog j) : i < j := by
  by_contra hge
  rcases Nat.lt_or_eq_of_le (not_lt.mp hge) with hlt | rfl
  · have h₁ := bnd_succ_of_isCrossing hj (hlt.trans hil)
    have h₂ : bnd prog (j + 1) ≤ bnd prog i := bnd_mono hlt
    omega
  · rw [hi] at hj
    cases hj

/-- A block has arrived at no boundary behind its pass, since every boundary of a pass costs it one
crossing and it counts them in order. -/
theorem Logged.arrived_le (hl : Lock prog τ s) (hinv : Grid.Inv (τ.filterMap Ev.cross) s.grid)
    {b : Fin n} (h : Logged prog b τ (s.block b)) :
    arrived b τ ≤ passOf b τ * stride prog := by
  have hat := (hl.block b).place
  have hout := arrived_eq_left hinv (b := b)
  have hcur := h.current
  have hlast := sub_one_mul_add (m := stride prog) (passOf_pos b τ)
  rw [h.pass] at hat
  rcases hp : (s.block b).pc with _ | v | v | i | i | i | i | _ | e | _ | _ <;>
    rw [hp] at hat hcur hout
  case spin =>
    have harr : arrived b τ = left b τ + 1 := by
      have := hinv.arrived b
      rwa [if_pos (show s.grid.phase b = .spinning from congrArg Pc.phase hp)] at this
    have hlt := bnd_lt_stride prog i
    simp only [Pc.At] at hat
    omega
  case fetch | op | arrive =>
    have hlt := bnd_lt_stride prog i
    have := hout (by simp [Pc.phase])
    simp only [Pc.At] at hat
    omega
  case exit | ret =>
    have := hout (by simp [Pc.phase])
    obtain ⟨i, -, -, hL | ⟨-, hL⟩⟩ := hcur
    · have hlt := bnd_lt_stride prog i
      omega
    · omega
  all_goals
    have := hout (by simp [Pc.phase])
    simp only [Pc.At] at hat
    omega

/-- **A block that has counted itself in behind a window has finished its part of it.** -/
theorem Logged.finish_mem (hl : Lock prog τ s) (hinv : Grid.Inv (τ.filterMap Ev.cross) s.grid)
    {b : Fin n} (h : Logged prog b τ (s.block b)) {p i : ℕ} (hp : 1 ≤ p)
    (hr : runs prog b i = true) (harr : (p - 1) * stride prog + bnd prog i < arrived b τ) :
    .finish i ∈ stepsIn prog b p τ := by
  have hil := lt_length_of_runs hr
  have hx := isCrossing_eq_false_of_runs hr
  rcases lt_or_ge p (passOf b τ) with hlt | hge
  · rw [h.past p hp hlt]
    exact finish_mem_walk hr hil
  -- otherwise the pass is the current one, and the block is beyond the instruction
  obtain rfl : p = passOf b τ := by
    have hle := h.arrived_le hl hinv
    have hlt : (p - 1) * stride prog < passOf b τ * stride prog := by omega
    have := Nat.lt_of_mul_lt_mul_right hlt
    omega
  have hat := (hl.block b).place
  have hwf := (hl.block b).wf
  have hout := arrived_eq_left hinv (b := b)
  have hcur := h.current
  have hbeyond : ∀ {j : ℕ}, bnd prog i < bnd prog j → .finish i ∈ walk prog b j := fun hlt =>
    finish_mem_walk hr (not_le.mp fun hle => absurd (bnd_mono hle) (not_le.mpr hlt))
  rw [h.pass] at hat
  rcases hpc : (s.block b).pc with _ | v | v | j | j | j | j | _ | e | _ | _ <;>
    rw [hpc] at hat hwf hcur hout
  case spin =>
    have harr' : arrived b τ = left b τ + 1 := by
      have := hinv.arrived b
      rwa [if_pos (show s.grid.phase b = .spinning from congrArg Pc.phase hpc)] at this
    simp only [Pc.At] at hat
    have hlt := lt_of_bnd_le_crossing hx hil hwf.2 (by omega)
    rw [show stepsIn prog b _ τ = _ from hcur]
    exact List.mem_append_left _ (finish_mem_walk hr hlt)
  case fetch =>
    have := hout (by simp [Pc.phase])
    simp only [Pc.At] at hat
    rw [show stepsIn prog b _ τ = walk prog b j from hcur]
    exact hbeyond (by omega)
  case op | arrive =>
    have := hout (by simp [Pc.phase])
    simp only [Pc.At] at hat
    rw [show stepsIn prog b _ τ = _ from hcur]
    exact List.mem_append_left _ (hbeyond (by omega))
  case sample | sampled =>
    rw [show stepsIn prog b _ τ = passSteps prog b from hcur]
    exact finish_mem_walk hr hil
  case exit | ret =>
    have := hout (by simp [Pc.phase])
    obtain ⟨j, -, heq, hL | ⟨rfl, -⟩⟩ := hcur
    · rw [heq]
      exact hbeyond (by omega)
    · rw [heq]
      exact finish_mem_walk hr hil
  all_goals
    have := hout (by simp [Pc.phase])
    simp only [Pc.At] at hat
    omega

end Logs

end Megakernel
