import Megakernel.Leaving
import Megakernel.Host

/-!
# Bad kinds and shutdown

The two exits of `mk_interp` that the host or the program decide on. A bad kind
ends the first pass: every block stops at the first one, and block 0 leaves its
code and its index in the error cells. The halt value ends the run between two
passes, whenever the host writes it: block 0 reads it instead of a pass number,
and the others read what block 0 has read.

In both cases nobody hangs: when no block can move, all have returned.

For a bad kind the program decides, and every block meets it in the first pass. For the halt value
the host decides, and it may do so at any time; the doorbell makes a block hear it only between two
passes. The two are stated together in `exit_uniform`.
-/

namespace Megakernel

variable {π : Type*} {n : ℕ} {prog : List (Instr π)}

/-- The step calls `raise_error` in an op. -/
def Act.raises : Act → Bool
  | .raise _ _ _ => true
  | _ => false

/-- The event is a call of `raise_error` in an op. -/
def Ev.raises : Ev n → Bool
  | .blk _ a => a.raises
  | _ => false

/-- No op of the run calls `raise_error`. Errors at bad kinds are not excluded by it. -/
def NoRaise (τ : List (Ev n)) : Prop := ∀ e ∈ τ, e.raises = false

instance (τ : List (Ev n)) : Decidable (NoRaise τ) :=
  inferInstanceAs (Decidable (∀ e ∈ τ, e.raises = false))

theorem NoRaise.of_cons {e : Ev n} {τ : List (Ev n)} (h : NoRaise (e :: τ)) : NoRaise τ :=
  fun a hmem => h a (List.mem_cons_of_mem _ hmem)

/-! ## The error cells at a bad kind -/

/-- How much of its `raise_error` at the bad kind at `i` block 0 has done. -/
def RaisedAt (prog : List (Instr π)) (i : ℕ) (c : Cells) : List Raise → Prop
  | [] => c.errHostAux = BitVec.ofNat 32 i ∧ c.errHostCode = (badCode prog i).toU32 ∧
      c.errDev = (badCode prog i).toU32
  | [⟨code, aux, stage⟩] => code = badCode prog i ∧ aux = BitVec.ofNat 32 i ∧
      (stage ≠ .hostAux → c.errHostAux = BitVec.ofNat 32 i) ∧
      (stage = .dev → c.errHostCode = (badCode prog i).toU32)
  | _ => False

/-- What block 0 has done to the error cells when no op raises. -/
structure ZeroErr (prog : List (Instr π)) (i : ℕ) (c : Cells) (k : Block) : Prop where
  quiet : k.pc ≠ .exit → k.raising = []
  exit : k.pc = .exit → RaisedAt prog i c k.raising
  ret : k.pc = .ret → c.doorbellDev ≠ doorbellHalt → RaisedAt prog i c []

/-- When no op raises, block 0 alone writes the error cells, at the bad kind at `i`. No other block
has a raise in progress, and block 0 none but that one. -/
structure ErrCells (prog : List (Instr π)) (i : ℕ) (s : Gpu n) : Prop where
  others : ∀ b : Fin n, b.val ≠ 0 → (s.block b).raising = []
  zero : ∀ z : Fin n, z.val = 0 → ZeroErr prog i s.cells (s.block z)

/-- A store of the raise carries it on. -/
theorem RaisedAt.store {i : ℕ} {c : Cells} {q : List Raise} (h : RaisedAt prog i c q) {j : ℕ}
    {r : Raise} (hr : q[j]? = some r) :
    RaisedAt prog i (r.write c) (q.take j ++ r.next.toList ++ q.drop (j + 1)) := by
  match q, h with
  | [], _ => cases hr
  | [⟨code, aux, stage⟩], h =>
    obtain ⟨rfl, rfl, haux, hcode⟩ := h
    match j, hr with
    | 0, hr =>
      obtain rfl := Option.some.inj hr
      cases stage with
      | hostAux => exact ⟨rfl, rfl, fun _ => rfl, nofun⟩
      | hostCode => exact ⟨rfl, rfl, fun _ => haux nofun, fun _ => rfl⟩
      | dev => exact ⟨haux nofun, hcode rfl, rfl⟩

/-- Block 0 moves on, to a place inside the kernel. -/
theorem ZeroErr.move {i : ℕ} {c c' : Cells} {k k' : Block} (h : ZeroErr prog i c k)
    (hold : k.pc ≠ .exit) (hraise : k'.raising = k.raising) (hx : k'.pc ≠ .exit)
    (hr : k'.pc ≠ .ret) : ZeroErr prog i c' k' where
  quiet _ := hraise.trans (h.quiet hold)
  exit hp := absurd hp hx
  ret hp := absurd hp hr

/-- What block 0 has done to the error cells after a step of its own. -/
theorem ZeroErr.step {i : ℕ} (hi : FirstBad prog i) {τ : List (Ev n)} {s : Gpu n}
    (hhalt : HaltOk prog τ s) {z : Fin n} (hz : z.val = 0)
    (hfront : (s.block z).pc.InFront i) (ih : ZeroErr prog i s.cells (s.block z)) {a : Act}
    (ha : a.raises = false) (hne : ∀ e, a ≠ .quit e) {c : Cells} {k : Block}
    (hs : BlockStep n prog z s.cells (s.block z) a c k) : ZeroErr prog i c k := by
  cases hs with
  | poll | tick => exact ih
  | spin => exact ih
  | raise => cases ha
  | quit => exact absurd rfl (hne _)
  | @store j r hr =>
    have hexit : (s.block z).pc = .exit := by
      by_contra hp
      rw [ih.quiet hp] at hr
      cases hr
    exact ⟨fun hp => absurd hexit hp, fun hp => (ih.exit hp).store hr,
      fun hp => absurd (hexit.symm.trans hp) (by simp)⟩
  | @bad i' hp hi' =>
    obtain rfl : i' = i := by
      rw [hp] at hfront
      obtain hlt | rfl := lt_or_eq_of_le (show i' ≤ i from hfront)
      · rw [hi.2 i' hlt] at hi'
        cases hi'
      · rfl
    rw [if_pos hz]
    exact ⟨fun hp => absurd rfl hp, fun _ => ⟨rfl, rfl, fun hne => absurd rfl hne,
      by simp⟩, by simp⟩
  | gone hp hq =>
    have hset := ih.exit hp
    rw [hq] at hset
    exact ⟨fun _ => hq, by simp, fun _ _ => hset⟩
  | stop hp =>
    exact ⟨fun _ => ih.quiet (by rw [hp]; simp), by simp,
      fun _ hd => absurd (hhalt.heard z hp).1 hd⟩
  | hear hp =>
    refine ih.move (by rw [hp]; simp) rfl ?_ ?_ <;> (simp only; split <;> simp)
  | leave hp =>
    refine ih.move (by rw [hp]; simp) rfl ?_ ?_ <;> (rw [afterCross]; split <;> simp)
  | forward hp | start hp | cross hp | begin hp | skip hp | finish hp | arrive hp | sample hp
  | publish hp | turn hp =>
    exact ih.move (by rw [hp]; simp) rfl (by simp) (by simp)

/-- When no op raises, a block step keeps the account of the error cells. -/
theorem ErrCells.blk {i : ℕ} (hi : FirstBad prog i) {τ : List (Ev n)} {s : Gpu n}
    (h : Reached prog τ s) (hhalt : HaltOk prog τ s) (hfront : ∀ b, (s.block b).pc.InFront i)
    (ih : ErrCells prog i s) {b : Fin n} {a : Act} (ha : a.raises = false) {c : Cells} {k : Block}
    (hs : BlockStep n prog b s.cells (s.block b) a c k) :
    ErrCells prog i (⟨c, Function.update s.block b k⟩ : Gpu n) := by
  by_cases hb : b.val = 0
  · refine ⟨fun j hj => ?_, fun z hz => ?_⟩
    · have hne : j ≠ b := fun heq => hj (heq ▸ hb)
      rw [Gpu.block_other hne]
      exact ih.others j hj
    · obtain rfl : z = b := Fin.ext (hz.trans hb.symm)
      rw [Gpu.block_self]
      refine ZeroErr.step hi hhalt hz (hfront z) (ih.zero z hz) ha ?_ hs
      rintro e rfl
      cases hs with
      | quit hp =>
        have hpc := hfront z
        rw [hp] at hpc
        exact hpc
  · have hraise := ih.others b hb
    have hcells : k.raising = [] ∧ c.errDev = s.cells.errDev ∧
        c.errHostCode = s.cells.errHostCode ∧ c.errHostAux = s.cells.errHostAux := by
      cases hs with
      | raise => cases ha
      | store hr =>
        rw [hraise] at hr
        cases hr
      | bad =>
        rw [if_neg hb]
        exact ⟨hraise, rfl, rfl, rfl⟩
      | _ => exact ⟨hraise, rfl, rfl, rfl⟩
    obtain ⟨hk, h₁, h₂, h₃⟩ := hcells
    have hdev := (BlockStep.cells_of_ne_zero (fun j => (h.lock.block j).wf) hb hs).1
    have hset : ∀ q, RaisedAt prog i s.cells q → RaisedAt prog i c q := fun q hq => by
      unfold RaisedAt at hq ⊢
      rw [h₁, h₂, h₃]
      exact hq
    refine ⟨fun j hj => ?_, fun z hz => ?_⟩
    · obtain rfl | hne := eq_or_ne j b
      · rw [Gpu.block_self]
        exact hk
      · rw [Gpu.block_other hne]
        exact ih.others j hj
    · have hne : z ≠ b := fun heq => hb (heq ▸ hz)
      rw [Gpu.block_other hne]
      obtain ⟨hq, hx, hr⟩ := ih.zero z hz
      refine ⟨hq, fun hp => hset _ (hx hp), fun hp hd => hset _ (hr hp ?_)⟩
      rw [← hdev]
      exact hd

/-- **The error cells tell the bad kind.** -/
theorem run_errCells (hn : n < 2 ^ 31) {i : ℕ} (hi : FirstBad prog i) {τ : List (Ev n)} {s : Gpu n}
    (h : (Gpu.lts n prog).Run τ s) (hno : NoRaise τ) : ErrCells prog i s := by
  revert hno
  refine Lts.Run.inv (I := fun τ s => NoRaise τ → ErrCells prog i s) ?_ ?_ h
  · rintro s rfl -
    exact ⟨fun _ _ => rfl, fun _ _ => ⟨fun _ => rfl, nofun, nofun⟩⟩
  · intro τ s e s' hr ih hs hno
    have ih := ih hno.of_cons
    obtain ⟨b, a, c, k, rfl, hstep, rfl⟩ | ⟨-, d, t, rfl⟩ := Gpu.step_cases hs
    · exact ErrCells.blk hi (run_reached hn hr) (run_haltOk hn hr)
        (fun j => (run_inFront hi hr j).1) ih (hno (.blk b a) List.mem_cons_self) hstep
    · exact ⟨ih.others, fun z hz => ⟨(ih.zero z hz).quiet, (ih.zero z hz).exit, (ih.zero z hz).ret⟩⟩

/-! ## What has been done in front of a bad kind -/

theorem walk_append_isPrefix {b i k : ℕ} (h : i < k) {l : List Act}
    (hl : l <+: instrSteps prog b i) :
    walk prog b i ++ l <+: walk prog b k := by
  refine List.IsPrefix.trans ?_ (walk_isPrefix prog b (show i + 1 ≤ k from h))
  rw [walk_succ]
  exact (List.prefix_append_right_inj _).mpr hl

/-- **In front of the first bad kind** a block does what stands there, and no more. -/
theorem log_firstBad (hn : n < 2 ^ 31) {i : ℕ} (hi : FirstBad prog i) {τ : List (Ev n)} {s : Gpu n}
    (h : (Gpu.lts n prog).Run τ s) (b : Fin n) :
    stepsIn prog b 1 τ <+: walk prog b i ∧ arrived b τ ≤ bnd prog i := by
  obtain ⟨hfront, hpass⟩ := run_inFront hi h b
  have hr := run_reached hn h
  have hleft := left_le_firstBad hn hi h b
  have hcur := (hr.log b).current
  have hat := hr.place b
  have hwf := (hr.lock.block b).wf
  have hout := arrived_eq_left hr.inv (b := b)
  rw [hpass] at hcur hat
  have hret : (s.block b).pc = .ret ∨ (s.block b).pc = .exit →
      stepsIn prog b 1 τ <+: walk prog b i := by
    intro hpc
    have hby : ByHalt prog τ s b ∨ (∃ i, ByBad prog τ s b i) ∨ ByError prog τ s b := by
      obtain hpc | hpc := hpc
      · exact (run_exits hn h).ret b hpc
      · exact Or.inr (Or.inl ((run_exits hn h).exit b hpc))
    obtain hby | ⟨k, hby⟩ | hby := hby
    · have hlog := hby.log
      rw [hpass] at hlog
      rw [hlog]
      exact List.nil_prefix
    · have hlog := hby.log
      rw [hpass] at hlog
      rw [hlog]
      rw [hby.bad.unique hi]
    · have hL := hby.left_eq
      have hlt := bnd_lt_stride prog i
      rw [hpass, Nat.one_mul] at hL
      omega
  rcases hp : (s.block b).pc with _ | v | v | k | k | k | k | _ | e | _ | _ <;>
    rw [hp] at hfront hcur hat hwf hout
  · exact ⟨hcur ▸ List.nil_prefix, (hout (by simp [Pc.phase])).trans_le hleft⟩
  · exact ⟨hcur ▸ List.nil_prefix, (hout (by simp [Pc.phase])).trans_le hleft⟩
  · exact ⟨hcur ▸ List.nil_prefix, (hout (by simp [Pc.phase])).trans_le hleft⟩
  · refine ⟨?_, (hout (by simp [Pc.phase])).trans_le hleft⟩
    rw [show stepsIn prog b 1 τ = _ from hcur]
    exact walk_isPrefix prog b hfront
  · refine ⟨?_, (hout (by simp [Pc.phase])).trans_le hleft⟩
    rw [show stepsIn prog b 1 τ = _ from hcur]
    refine walk_append_isPrefix hfront ?_
    rw [instrSteps_of_runs hwf]
    exact ⟨[.finish k], rfl⟩
  · refine ⟨?_, (hout (by simp [Pc.phase])).trans_le hleft⟩
    have hlt : k < prog.length := lt_trans hfront (lt_length_of_badAt hi.1)
    rw [show stepsIn prog b 1 τ = _ from hcur, Pc.steps, if_pos hlt]
    refine walk_append_isPrefix hfront ?_
    rw [instrSteps_of_isCrossing hwf.2]
    exact ⟨[.arrive k, .leave k], rfl⟩
  · have hlt : k < prog.length := lt_trans hfront (lt_length_of_badAt hi.1)
    refine ⟨?_, ?_⟩
    · rw [show stepsIn prog b 1 τ = _ from hcur, Pc.steps, if_pos hlt]
      refine walk_append_isPrefix hfront ?_
      rw [instrSteps_of_isCrossing hwf.2]
      exact ⟨[.leave k], rfl⟩
    · have harr : arrived b τ = left b τ + 1 := by
        have := hr.inv.arrived b
        rwa [if_pos (show s.grid.phase b = .spinning from congrArg Pc.phase hp)] at this
      have hL : left b τ = (1 - 1) * stride prog + bnd prog k := hat
      have hbnd := bnd_succ_of_isCrossing hwf.2 hlt
      have hmono : bnd prog (k + 1) ≤ bnd prog i := bnd_mono hfront
      omega
  · exact hfront.elim
  · exact hfront.elim
  · exact ⟨hret (Or.inr hp), (hout (by simp [Pc.phase])).trans_le hleft⟩
  · exact ⟨hret (Or.inl hp), (hout (by simp [Pc.phase])).trans_le hleft⟩

/-! ## Runs without errors -/

/-- Without bad kinds and without raises no error is set. -/
theorem run_errorFree (hprog : ∀ i, badAt prog i = false) {τ : List (Ev n)} {s : Gpu n}
    (h : (Gpu.lts n prog).Run τ s) (hno : NoRaise τ) : ErrorFree s := by
  revert hno
  refine Lts.Run.inv (I := fun τ s => NoRaise τ → ErrorFree s) ?_ ?_ h
  · rintro s rfl -
    exact ⟨rfl, rfl, fun _ => rfl⟩
  · intro τ s e s' _ ih hs hno
    have ih := ih hno.of_cons
    obtain ⟨b, a, c, k, rfl, hstep, rfl⟩ | ⟨-, d, t, rfl⟩ := Gpu.step_cases hs
    · refine ih.blk hprog ?_ hstep
      rintro i code aux rfl
      exact nomatch hno (.blk b _) List.mem_cons_self
    · exact ⟨ih.dev, ih.host, ih.quiet⟩

/-- Once written, the halt value stays: nothing is rung behind it, because ringing waits for a pass
that will not be done. -/
theorem run_halted (hn : n < 2 ^ 31) {τ : List (Ev n)} {s : Gpu n} (h : (Gpu.lts n prog).Run τ s)
    (hmem : .halt ∈ τ) : s.cells.doorbellHost = doorbellHalt := by
  revert hmem
  refine Lts.Run.inv (I := fun τ s => Ev.halt ∈ τ → s.cells.doorbellHost = doorbellHalt) ?_ ?_ h
  · intro s _ hmem
    cases hmem
  · intro τ s e s' hr ih hs hmem
    cases e with
    | halt =>
      obtain rfl := Gpu.step_halt.mp hs
      rfl
    | blk b a =>
      obtain ⟨c, k, hstep, rfl⟩ := Gpu.step_blk.mp hs
      exact hstep.host_cells.1.trans (ih ((List.mem_cons.mp hmem).resolve_left nofun))
    | token t =>
      obtain ⟨-, rfl⟩ := Gpu.step_token.mp hs
      exact ih ((List.mem_cons.mp hmem).resolve_left nofun)
    | ring =>
      obtain ⟨hq, rfl⟩ := Gpu.step_ring.mp hs
      have hd := ih ((List.mem_cons.mp hmem).resolve_left nofun)
      have hdone := (run_lock hn hr).done_lt
      rw [show s.cells.done = s.cells.doorbellHost from hq, hd, doorbellHalt_toNat] at hdone
      exact absurd hdone (lt_irrefl _)

/-- Without errors whoever has left has heard the halt value. -/
theorem byHalt_of_errorFree (hn : n < 2 ^ 31) (hprog : ∀ i, badAt prog i = false) {τ : List (Ev n)}
    {s : Gpu n} (h : (Gpu.lts n prog).Run τ s) (hno : NoRaise τ) {b : Fin n}
    (hb : (s.block b).pc = .ret) : ByHalt prog τ s b := by
  obtain hby | ⟨i, hby⟩ | hby := (run_exits hn h).ret b hb
  · exact hby
  · exact absurd hby.bad.1 (by rw [hprog]; nofun)
  · exact absurd (run_errorFree hprog h hno).dev hby.err

/-! ## Both exits -/

/-- **Nobody hangs at a bad kind, and everybody does what stands in front of it.** -/
theorem badKind_exit (hn : n < 2 ^ 31) (hpos : 0 < n) {i : ℕ} (hi : FirstBad prog i)
    {τ : List (Ev n)} {s : Gpu n} (h : (Gpu.lts n prog).Run τ s) (hno : NoRaise τ)
    (hrung : 1 ≤ rings τ) (hdev : s.cells.doorbellDev ≠ doorbellHalt) (hst : s.Stuck prog) :
    (∀ b, (s.block b).pc = .ret) ∧ s.cells.errDev = (badCode prog i).toU32 ∧
      s.cells.errHostCode = (badCode prog i).toU32 ∧ s.cells.errHostAux = BitVec.ofNat 32 i := by
  have hr := run_reached hn h
  have hleft := left_le_firstBad hn hi h
  have hpass := fun b => (run_inFront hi h b).2
  have hnoerr : ∀ b, ¬ ByError prog τ s b := fun b hby => by
    have hL := hby.left_eq
    have hle := hleft b
    have hlt := bnd_lt_stride prog i
    rw [hpass b, Nat.one_mul] at hL
    omega
  have hnh := noHang_of_error hn h fun b _ hby => absurd hby (hnoerr b)
  let z : Fin n := ⟨0, hpos⟩
  have hzw : ¬ PollWaits s z :=
    hr.not_pollWaits_zero rfl (Or.inr ((hpass z).trans_le hrung))
  have hall : ∀ b, (s.block b).pc = .ret := by
    by_contra hex
    obtain ⟨b, hb⟩ := not_forall.mp hex
    obtain ⟨k, -, hw, -⟩ := exists_pollWaits hn hr hnh hst hb
    have hk : k.val ≠ 0 := fun h0 => hzw ((Fin.ext h0 : k = z) ▸ hw)
    obtain ⟨hne, hlt⟩ := hr.lt_of_pollWaits hk hw
    rw [hpass k] at hlt
    -- block 0 has forwarded nothing, so it is neither in the pass nor has it left it
    have hnot : ¬ DevAtLeast s.cells 1 := fun hd => by
      have := hd.resolve_left hne
      omega
    obtain hzw' | ⟨⟨j, hj⟩, -⟩ | hret := hst.cases z
    · exact hzw hzw'
    · refine hnot ?_
      have hlive := ((hr.lock.block z).live (by rw [hj]; trivial)).2.2
      rwa [(hr.log z).pass, hpass z] at hlive
    · obtain hby | ⟨j, hby⟩ | hby := (run_exits hn h).ret z hret
      · exact hne hby.dev
      · exact hnot (hpass z ▸ hby.dev)
      · exact hnoerr z hby
  obtain ⟨haux, hcode, herr⟩ := ((run_errCells hn hi h hno).zero z rfl).ret (hall z) hdev
  exact ⟨hall, herr, hcode, haux⟩

/-- **Nobody hangs behind the halt value.** -/
theorem halt_exit (hn : n < 2 ^ 31) (hprog : ∀ i, badAt prog i = false) {τ : List (Ev n)}
    {s : Gpu n} (h : (Gpu.lts n prog).Run τ s) (hno : NoRaise τ) (hmem : .halt ∈ τ)
    (hst : s.Stuck prog) (b : Fin n) : (s.block b).pc = .ret := by
  have hr := run_reached hn h
  have hby := fun b hb => byHalt_of_errorFree hn hprog h hno (b := b) hb
  have hnoerr : ∀ b, ¬ ByError prog τ s b := fun b hby =>
    hby.err (run_errorFree hprog h hno).dev
  have hnh := noHang_of_error hn h fun b _ hby => absurd hby (hnoerr b)
  by_contra hb
  obtain ⟨k, -, hw, hmin⟩ := exists_pollWaits hn hr hnh hst hb
  let z : Fin n := ⟨0, b.pos⟩
  have hzw : ¬ PollWaits s z := hr.not_pollWaits_zero rfl (Or.inl (run_halted hn h hmem))
  have hk : k.val ≠ 0 := fun h0 => hzw ((Fin.ext h0 : k = z) ▸ hw)
  obtain ⟨hne, hlt⟩ := hr.lt_of_pollWaits hk hw
  obtain hzw' | ⟨⟨j, hj⟩, -⟩ | hret := hst.cases z
  · exact hzw hzw'
  · -- block 0 is in a pass that `k` has completed, yet it has left as many crossings
    have hdev := ((hr.lock.block z).live (by rw [hj]; trivial)).2.2
    rw [(hr.log z).pass] at hdev
    have hle := hdev.resolve_left hne
    have hzmin := hmin z (by rw [hj]; nofun)
    have hatz := hr.place z
    have hatk := hr.place k
    rw [hj] at hatz
    rw [hw.1] at hatk
    have hlt' := place_lt prog j (passOf_pos z τ)
    have hmul : passOf z τ * stride prog ≤ (passOf k τ - 1) * stride prog :=
      Nat.mul_le_mul_right _ (by omega)
    have hLz : left z τ = (passOf z τ - 1) * stride prog + bnd prog j := hatz
    have hLk : left k τ = (passOf k τ - 1) * stride prog := hatk
    omega
  · exact hne (hby z hret).dev

/-- **Bad kinds and the halt value end the kernel uniformly.** The host rings a pass when the one
before is done, and writes the halt value at any time.

* With the first bad kind at `i` and no raise in an op, nobody gets beyond `i` nor beyond the first
  pass, `done` is never written and nobody waits where somebody has left; whoever has returned from
  a pass that was begun has crossed exactly the boundaries before `i`; and when nobody can move any
  more, all have returned and the error cells hold the code and `i`.
* Without errors, whoever has returned has done the passes before its own completely and of its own
  nothing; all have returned from the same pass and nobody is in a later one or waits where somebody
  has left; and when nobody can move any more and the halt value has been written, all have
  returned. -/
theorem exit_uniform (prog : List (Instr π)) (hn : n < 2 ^ 31) (hpos : 0 < n) {τ : List (Ev n)}
    {s : Gpu n} (h : (Gpu.lts n prog).Run τ s) (hno : NoRaise τ) :
    (∀ i, FirstBad prog i →
      (∀ b, passOf b τ = 1 ∧ stepsIn prog b 1 τ <+: walk prog b i ∧ arrived b τ ≤ bnd prog i) ∧
      s.cells.done = 0 ∧ NoHang τ s ∧
      (∀ b, (s.block b).pc = .ret → s.cells.doorbellDev ≠ doorbellHalt →
        left b τ = bnd prog i ∧ stepsIn prog b 1 τ = walk prog b i) ∧
      (1 ≤ rings τ → s.cells.doorbellDev ≠ doorbellHalt → s.Stuck prog →
        (∀ b, (s.block b).pc = .ret) ∧ s.cells.errDev = (badCode prog i).toU32 ∧
          s.cells.errHostCode = (badCode prog i).toU32 ∧
          s.cells.errHostAux = BitVec.ofNat 32 i)) ∧
    ((∀ i, badAt prog i = false) →
      (∀ b, (s.block b).pc = .ret →
        (∀ N, 1 ≤ N → N < passOf b τ → stepsIn prog b N τ = passSteps prog b) ∧
        stepsIn prog b (passOf b τ) τ = [] ∧ left b τ = (passOf b τ - 1) * stride prog ∧
        ∀ j, passOf j τ ≤ passOf b τ ∧ ((s.block j).pc = .ret → passOf j τ = passOf b τ)) ∧
      NoHang τ s ∧ (.halt ∈ τ → s.Stuck prog → ∀ b, (s.block b).pc = .ret)) := by
  have hr := run_reached hn h
  refine ⟨fun i hi => ?_, fun hprog => ?_⟩
  · have hpass := fun b => (run_inFront hi h b).2
    have hnoerr : ∀ b, ¬ ByError prog τ s b := fun b hby => by
      have hL := hby.left_eq
      have hle := left_le_firstBad hn hi h b
      have hlt := bnd_lt_stride prog i
      rw [hpass b, Nat.one_mul] at hL
      omega
    refine ⟨fun b => ⟨hpass b, log_firstBad hn hi h b⟩, ?_,
      noHang_of_error hn h fun b _ hby => absurd hby (hnoerr b), fun b hb hdev => ?_,
      badKind_exit hn hpos hi h hno⟩
    · have hdone := (hr.lock.zero ⟨0, hpos⟩ rfl).done
      rw [(hr.log _).pass, hpass] at hdone
      exact BitVec.eq_of_toNat_eq (Nat.succ.inj hdone)
    · obtain hby | ⟨k, hby⟩ | hby := (run_exits hn h).ret b hb
      · exact absurd hby.dev hdev
      · obtain rfl := hby.bad.unique hi
        have hL := hby.left_eq
        have hlog := hby.log
        rw [hpass b] at hL hlog
        exact ⟨by omega, hlog⟩
      · exact absurd hby (hnoerr b)
  · have hby := fun b hb => byHalt_of_errorFree hn hprog h hno (b := b) hb
    have hnoerr : ∀ b, ¬ ByError prog τ s b := fun b hby =>
      hby.err (run_errorFree hprog h hno).dev
    have hle : ∀ b, (s.block b).pc = .ret → ∀ j, passOf j τ ≤ passOf b τ := fun b hb j => by
      have hle := hr.passOf_le (j := j) (b := b) (by rw [hb]; nofun) (hby b hb).left_eq.le
      have hb := passOf_pos b τ
      omega
    exact ⟨fun b hb => ⟨(hr.log b).past, (hby b hb).log, (hby b hb).left_eq,
      fun j => ⟨hle b hb j, fun hj => le_antisymm (hle b hb j) (hle j hj b)⟩⟩,
      noHang_of_error hn h fun b _ hby => absurd hby (hnoerr b),
      fun hmem hst => halt_exit hn hprog h hno hmem hst⟩

/-- A NOP, a boundary, a kind that does not exist, another boundary. -/
def badThird : List (Instr Unit) :=
  [⟨MacroKind.nop.code, 0, 2, ()⟩, ⟨MacroKind.boundary.code, 0, 0, ()⟩, ⟨99, 0, 2, ()⟩,
    ⟨MacroKind.boundary.code, 0, 0, ()⟩]

/-- Two blocks up to their returns at the bad kind. -/
def badThirdRun : List (Ev 2) :=
  ([.gone, .store 0, .store 0, .store 0, .bad 2, .leave 1].map (.blk 0)) ++
  ([.bad 2, .leave 1, .arrive 1, .cross 1, .finish 0, .begin 0, .start 1, .hear 1].map (.blk 1)) ++
  ([.arrive 1, .cross 1, .finish 0, .begin 0, .start 1, .forward 1, .hear 1].map (.blk 0)) ++
  [.ring]

theorem exit_uniform_badThird :
    ∃ s, (Gpu.lts 2 badThird).Run badThirdRun s ∧ s.cells.done = 0 ∧ NoHang badThirdRun s ∧
      stepsIn badThird 0 1 badThirdRun <+: walk badThird 0 2 := by
  obtain ⟨s, -, hr⟩ := Lts.exists_run_of_isSome (Gpu.step badThird) (Gpu.zero 2) badThirdRun
    (by decide)
  have hi : FirstBad badThird 2 := ⟨by decide, by decide⟩
  obtain ⟨h, -⟩ := exit_uniform badThird (by decide) (by decide) hr (by decide)
  exact ⟨s, hr, (h 2 hi).2.1, (h 2 hi).2.2.1, ((h 2 hi).1 0).2.1⟩

end Megakernel
