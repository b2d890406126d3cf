import Megakernel.Interp

/-!
# Lockstep of the blocks and the host

What every run of one GPU keeps, whatever the ops do and whatever errors are
raised. The boundary inside the interpreter is the boundary of `Boundary`
(`Gpu.run_grid`), so that its guarantee is available: nobody has returned from a
crossing that somebody has not arrived at. `Lock` ties the pass numbers, the
places of the blocks, the doorbells and the done cell to the number of
crossings: a block in pass `p` at instruction `i` has returned from
`(p - 1) * stride + bnd i` crossings, where `stride` counts the boundaries of
one pass, epilogue included.

The consequence everything else uses is `Lock.executing`: a block that is
executing instructions is in the pass that was rung last, and that pass is not
done.

The invariant is proved for a grid of any size below `2 ^ 31` and any program, bad kinds and raises
included. Of the environment it needs only the guards of `Gpu.lts`; what is left of it without them
is the subject of `Environment`.
-/

namespace Megakernel

variable {π : Type*} {n : ℕ} {prog : List (Instr π)}

/-! ## Counting boundaries -/

/-- The number of OP_BOUNDARYs among the first `i` instructions. Two instructions with the same
number stand in the same window. -/
def bnd (prog : List (Instr π)) (i : ℕ) : ℕ := (prog.take i).countP Instr.isBoundary

/-- Crossings per pass: the OP_BOUNDARYs and the epilogue. -/
def stride (prog : List (Instr π)) : ℕ := prog.countP Instr.isBoundary + 1

@[simp] theorem bnd_zero : bnd prog 0 = 0 := by simp [bnd]

/-- The boundaries of a whole program and the epilogue's crossing are the stride. -/
theorem bnd_length : bnd prog prog.length + 1 = stride prog := by simp [bnd, stride]

theorem bnd_succ {i : ℕ} {ins : Instr π} (h : prog[i]? = some ins) :
    bnd prog (i + 1) = bnd prog i + if ins.isBoundary then 1 else 0 := by
  rw [bnd, List.take_add_one, h]
  simp [bnd, List.countP_append, List.countP_cons]

/-- Further on there are at least as many boundaries behind. -/
theorem bnd_mono {i j : ℕ} (h : i ≤ j) : bnd prog i ≤ bnd prog j :=
  (List.take_sublist_take_left h).countP_le

/-- The boundaries of a pass, without the epilogue's, are fewer than the stride. -/
theorem bnd_lt_stride (prog : List (Instr π)) (i : ℕ) : bnd prog i < stride prog :=
  Nat.lt_succ_of_le (List.take_sublist i prog).countP_le

/-- Behind an OP_BOUNDARY at `i` one more boundary has been passed. -/
theorem bnd_succ_of_isCrossing {i : ℕ} (h : isCrossing prog i = true) (hi : i < prog.length) :
    bnd prog (i + 1) = bnd prog i + 1 := by
  have hget : prog[i]? = some prog[i] := List.getElem?_eq_getElem hi
  rw [isCrossing, hget] at h
  rw [bnd_succ hget, if_pos h]

/-- The instructions a block runs or skips are not boundaries. -/
theorem bnd_succ_of_runs {b i : ℕ} (h : runs prog b i = true) :
    i < prog.length ∧ bnd prog (i + 1) = bnd prog i := by
  rw [runs] at h
  rcases hget : prog[i]? with _ | ins
  · rw [hget] at h
    cases h
  · rw [hget] at h
    have hb : ins.isBoundary = false := by
      simp only [Bool.and_eq_true, Bool.not_eq_true'] at h
      exact h.1.1
    refine ⟨(List.getElem?_eq_some_iff.mp hget).1, ?_⟩
    rw [bnd_succ hget, hb]
    rfl

/-- What is skipped is no boundary. -/
theorem bnd_succ_of_skips {b i : ℕ} (h : skips prog b i = true) :
    i < prog.length ∧ bnd prog (i + 1) = bnd prog i := by
  rw [skips] at h
  rcases hget : prog[i]? with _ | ins
  · rw [hget] at h
    cases h
  · rw [hget] at h
    have hb : ins.isBoundary = false := by
      simp only [Bool.and_eq_true, Bool.not_eq_true'] at h
      exact h.1.1
    refine ⟨(List.getElem?_eq_some_iff.mp hget).1, ?_⟩
    rw [bnd_succ hget, hb]
    rfl

/-! ## The boundary inside a GPU -/

/-- The crossings block `b` has returned from. With `arrived`, this is how the boundary's own counts
look inside the interpreter. -/
def left (b : Fin n) (τ : List (Ev n)) : ℕ := leaves b (τ.filterMap Ev.cross)

/-- How often block `b` has counted itself in. -/
def arrived (b : Fin n) (τ : List (Ev n)) : ℕ := arrives b (τ.filterMap Ev.cross)

@[simp] theorem left_nil (b : Fin n) : left b [] = 0 := rfl

/-- Steps outside of a crossing leave no boundary behind, -/
theorem left_cons_of_none {e : Ev n} (h : e.cross = none) (b : Fin n) (τ : List (Ev n)) :
    left b (e :: τ) = left b τ := by
  rw [left, List.filterMap_cons_none h, left]

/-- and of the steps in a crossing only the last does. -/
theorem left_cons_of_some {e : Ev n} {j : Fin n} {a : CrossAct} (h : e.cross = some (j, a))
    (b : Fin n) (τ : List (Ev n)) :
    left b (e :: τ) = left b τ + if j = b ∧ a = .leave then 1 else 0 := by
  rw [left, List.filterMap_cons_some h, leaves_cons, left]

/-- The number of boundaries a step returns from. -/
def Act.crossed : Act → ℕ
  | .leave _ => 1
  | _ => 0

/-- Only a return of the block itself counts. -/
theorem left_cons_blk (b j : Fin n) (a : Act) (τ : List (Ev n)) :
    left b (.blk j a :: τ) = left b τ + if j = b then a.crossed else 0 := by
  rcases ha : (Ev.blk j a).cross with _ | ⟨j', a'⟩
  · rw [left_cons_of_none ha]
    cases a <;> simp_all [Ev.cross, Act.crossed]
  · rw [left_cons_of_some ha]
    cases a <;> simp only [Ev.cross, Option.some.injEq, Prod.mk.injEq, reduceCtorEq] at ha <;>
      obtain ⟨rfl, rfl⟩ := ha <;> simp [Act.crossed]

/-- The same in terms of what a block does, -/
theorem left_cons_self (b : Fin n) (a : Act) (τ : List (Ev n)) :
    left b (.blk b a :: τ) = left b τ + a.crossed := by
  rw [left_cons_blk, if_pos rfl]

/-- and of what others do. -/
theorem left_cons_other {b j : Fin n} (h : j ≠ b) (a : Act) (τ : List (Ev n)) :
    left b (.blk j a :: τ) = left b τ := by
  simp [left_cons_blk, h]

/-- Arrivals are not taken back. -/
theorem arrived_cons_le (b : Fin n) (e : Ev n) (τ : List (Ev n)) :
    arrived b τ ≤ arrived b (e :: τ) :=
  ((List.sublist_cons_self e τ).filterMap Ev.cross).count_le _

@[simp] theorem Raise.write_counter (r : Raise) (c : Cells) : (r.write c).counter = c.counter := by
  rcases r with ⟨code, aux, _ | _ | _⟩ <;> rfl

@[simp] theorem Raise.write_doorbellHost (r : Raise) (c : Cells) :
    (r.write c).doorbellHost = c.doorbellHost := by
  rcases r with ⟨code, aux, _ | _ | _⟩ <;> rfl

@[simp] theorem Raise.write_doorbellDev (r : Raise) (c : Cells) :
    (r.write c).doorbellDev = c.doorbellDev := by
  rcases r with ⟨code, aux, _ | _ | _⟩ <;> rfl

@[simp] theorem Raise.write_done (r : Raise) (c : Cells) : (r.write c).done = c.done := by
  rcases r with ⟨code, aux, _ | _ | _⟩ <;> rfl

@[simp] theorem Raise.write_token (r : Raise) (c : Cells) : (r.write c).token = c.token := by
  rcases r with ⟨code, aux, _ | _ | _⟩ <;> rfl

namespace Gpu

/-- The boundary's state after a step of block `b`. -/
theorem grid_mk (s : Gpu n) (b : Fin n) (c : Cells) (k : Block) :
    (⟨c, Function.update s.block b k⟩ : Gpu n).grid =
      ⟨c.counter, Function.update s.grid.epoch b k.epoch,
        Function.update s.grid.phase b k.pc.phase⟩ := by
  rw [grid, Grid.mk.injEq]
  exact ⟨rfl, Function.comp_update Block.epoch s.block b k,
    Function.comp_update (fun k : Block => k.pc.phase) s.block b k⟩

/-- A step of a block that leaves counter, epoch and phase alone does not move the boundary. -/
theorem grid_update {s : Gpu n} {b : Fin n} {c : Cells} {k : Block}
    (hc : c.counter = s.cells.counter) (he : k.epoch = (s.block b).epoch)
    (hp : k.pc.phase = (s.block b).pc.phase) :
    (⟨c, Function.update s.block b k⟩ : Gpu n).grid = s.grid := by
  rw [grid_mk, hc, he, hp]
  exact congrArg₂ (Grid.mk s.cells.counter) (Function.update_eq_self b s.grid.epoch)
    (Function.update_eq_self b s.grid.phase)

/-- A block step is a boundary step or leaves the boundary alone. -/
theorem grid_blk {s : Gpu n} {b : Fin n} {a : Act} {c : Cells} {k : Block}
    (h : BlockStep n prog b s.cells (s.block b) a c k) :
    match (Ev.blk b a).cross with
    | some l => s.grid.step l = some (⟨c, Function.update s.block b k⟩ : Gpu n).grid
    | none => (⟨c, Function.update s.block b k⟩ : Gpu n).grid = s.grid := by
  cases h with
  | cross hp hi =>
    have hphase : s.grid.phase b = .out := congrArg Pc.phase hp
    simp only [Ev.cross]
    rw [grid_mk, Grid.step, if_pos hphase]
    rfl
  | arrive hp =>
    have hphase : s.grid.phase b = .arriving := congrArg Pc.phase hp
    simp only [Ev.cross]
    rw [grid_mk, Grid.step, if_pos hphase]
    exact congrArg (fun e => some (Grid.mk _ e _)) (Function.update_eq_self b s.grid.epoch).symm
  | spin hp ht =>
    have hphase : s.grid.phase b = .spinning := congrArg Pc.phase hp
    simp only [Ev.cross]
    rw [Grid.step, if_pos ⟨hphase, ht⟩, grid_update rfl rfl rfl]
  | @leave i hp ht =>
    have hphase : s.grid.phase b = .spinning := congrArg Pc.phase hp
    have hout : (afterCross prog i).phase = .out := by
      rw [afterCross]
      split <;> rfl
    simp only [Ev.cross]
    rw [grid_mk, Grid.step, if_pos ⟨hphase, ht⟩, hout]
    exact congrArg (fun e => some (Grid.mk _ e _)) (Function.update_eq_self b s.grid.epoch).symm
  | store hr => exact grid_update (Raise.write_counter _ _) rfl rfl
  | hear hp hv ht =>
    refine grid_update rfl rfl ?_
    rw [hp]
    simp only
    split <;> rfl
  | bad hp hi =>
    refine grid_update rfl ?_ ?_
    · split <;> rfl
    · rw [hp]
      split <;> rfl
  | poll hp | tick hp | raise hp | forward hp | start hp | stop hp | begin hp | skip hp
  | finish hp | sample hp | publish hp | turn hp | quit hp | gone hp =>
    exact grid_update rfl rfl (by first | rfl | (rw [hp]; rfl))

/-- **The boundary inside the interpreter is the boundary of `Boundary`.** -/
theorem run_grid {τ : List (Ev n)} {s : Gpu n} (h : (lts n prog).Run τ s) :
    (Grid.lts n).Run (τ.filterMap Ev.cross) s.grid := by
  refine Lts.Run.project Gpu.grid Ev.cross ?_ ?_ h
  · rintro s rfl
    rfl
  · rintro τ s e s' - - hs
    cases e with
    | blk b a =>
      obtain ⟨c, k, hr, rfl⟩ := step_blk.mp hs
      have key := grid_blk hr
      rcases hx : (Ev.blk b a).cross with _ | l <;> rw [hx] at key <;> exact key
    | ring =>
      obtain ⟨-, rfl⟩ := step_ring.mp hs
      rfl
    | halt =>
      obtain rfl := step_halt.mp hs
      rfl
    | token t =>
      obtain ⟨-, rfl⟩ := step_token.mp hs
      rfl

end Gpu

/-! ## The lockstep invariant -/

/-- How many passes the host has rung: the true value of the doorbell, unless the halt value is
there. -/
def rings (τ : List (Ev n)) : ℕ := τ.count .ring

/-- Neither are rings. -/
theorem rings_le_cons (e : Ev n) (τ : List (Ev n)) : rings τ ≤ rings (e :: τ) :=
  (List.sublist_cons_self e τ).count_le _

@[simp] theorem rings_cons_blk (b : Fin n) (a : Act) (τ : List (Ev n)) :
    rings (.blk b a :: τ) = rings τ := by
  simp [rings]

/-- Behind the doorbell of its pass, and not on the way out. -/
def Pc.Live : Pc → Prop
  | .fetch _ | .op _ | .arrive _ | .spin _ | .sample | .sampled _ => True
  | _ => False

/-- The instruction index fits the place in the code. -/
def Pc.Wf (prog : List (Instr π)) (b : ℕ) : Pc → Prop
  | .forward _ | .exit => b = 0
  | .fetch i => i ≤ prog.length
  | .op i => runs prog b i = true
  | .arrive i | .spin i => i ≤ prog.length ∧ isCrossing prog i = true
  | _ => True

/-- The number `L` of crossings a block in pass `p` has returned from, by its place. It is the
equation that ties program position and barrier count, from which the pass numbers of all blocks
follow. -/
def Pc.At (prog : List (Instr π)) (p L : ℕ) : Pc → Prop
  | .poll | .forward _ | .bell _ => L = (p - 1) * stride prog
  | .fetch i | .op i | .arrive i | .spin i => L = (p - 1) * stride prog + bnd prog i
  | .sample | .sampled _ => L = (p - 1) * stride prog + stride prog
  | .exit | .ret => (p - 1) * stride prog ≤ L

/-- Whoever is in pass `p` has left the crossings of all passes before it. -/
theorem Pc.At.le {p L : ℕ} {pc : Pc} (h : pc.At prog p L) : (p - 1) * stride prog ≤ L := by
  cases pc <;> simp only [Pc.At] at h <;> omega

/-- The forward cell holds the halt value or at least `m`. -/
def DevAtLeast (c : Cells) (m : ℕ) : Prop :=
  c.doorbellDev = doorbellHalt ∨ m ≤ c.doorbellDev.toNat

/-- What holds of a block when `R` passes have been rung and it has left `L` crossings: where it can
be, and what the forward cell it polls has to hold for that. -/
structure BlockOk (prog : List (Instr π)) (R : ℕ) (c : Cells) (L b : ℕ) (k : Block) : Prop where
  /-- passes count from 1 -/
  pass_pos : 1 ≤ k.pass.toNat
  /-- a block is at most one pass ahead of the host -/
  pass_le : k.pass.toNat ≤ R + 1
  /-- a block behind the doorbell runs a rung pass -/
  live : k.pc.Live → k.pass.toNat ≤ R ∧ k.pass.toNat < 2 ^ 32 - 1 ∧ DevAtLeast c k.pass.toNat
  /-- a heard pass number is the block's own -/
  heard : ∀ v, k.pc = .forward v ∨ k.pc = .bell v → v ≠ doorbellHalt →
    v.toNat = k.pass.toNat ∧ k.pass.toNat ≤ R
  /-- and has been forwarded when the block acts on it -/
  belled : ∀ v, k.pc = .bell v → v ≠ doorbellHalt → DevAtLeast c k.pass.toNat
  /-- the forward cell is at most one pass behind -/
  near : DevAtLeast c (k.pass.toNat - 1)
  wf : k.pc.Wf prog b
  place : k.pc.At prog k.pass.toNat L

/-- What holds in addition of block 0, which forwards the doorbell and publishes `done`. -/
structure ZeroOk (R : ℕ) (c : Cells) (k : Block) : Prop where
  /-- `done` is the last pass before block 0's own -/
  done : c.done.toNat + 1 = k.pass.toNat
  /-- after forwarding the halt value block 0 returns -/
  halted : c.doorbellDev = doorbellHalt → k.pc = .bell doorbellHalt ∨ k.pc = .ret
  /-- the forward cell is not ahead of block 0 nor of the host -/
  dev_le : c.doorbellDev ≠ doorbellHalt →
    c.doorbellDev.toNat ≤ k.pass.toNat ∧ c.doorbellDev.toNat ≤ R
  /-- before forwarding, the forward cell holds the previous pass -/
  before : k.pc = .poll ∨ (∃ v, k.pc = .forward v) → c.doorbellDev.toNat + 1 = k.pass.toNat

/-- The lockstep invariant of a GPU: how the host's doorbell and `done` stand to the passes that
were rung, and what holds of every block and of block 0, by the crossings each has returned from. -/
structure Lock (prog : List (Instr π)) (τ : List (Ev n)) (s : Gpu n) : Prop where
  /-- the host cell holds the number of the last rung pass, or the halt value -/
  door : s.cells.doorbellHost = doorbellHalt ∨ s.cells.doorbellHost.toNat = rings τ
  /-- the host is at most one pass ahead of `done` -/
  rings_le : rings τ ≤ s.cells.done.toNat + 1
  done_le : s.cells.done.toNat ≤ rings τ
  done_lt : s.cells.done.toNat < 2 ^ 32 - 1
  block : ∀ b, BlockOk prog (rings τ) s.cells (left b τ) b (s.block b)
  zero : ∀ b, b.val = 0 → ZeroOk (rings τ) s.cells (s.block b)

/-- The halt value is the greatest number that the cell can hold. -/
theorem doorbellHalt_toNat : doorbellHalt.toNat = 2 ^ 32 - 1 := by decide

/-- Any other value is the number of a pass. -/
theorem toNat_ne_of_ne_halt {v : U32} (h : v ≠ doorbellHalt) : v.toNat < 2 ^ 32 - 1 := by
  have hlt := v.isLt
  have hne : v.toNat ≠ 2 ^ 32 - 1 := fun he => h (BitVec.eq_of_toNat_eq (he.trans
    doorbellHalt_toNat.symm))
  omega

/-- An accepted doorbell value is the halt value or has reached the pass. -/
theorem le_of_keepPolling {v pass : U32} (h : keepPolling v pass = false)
    (hne : v ≠ doorbellHalt) (hlo : pass.toNat ≤ v.toNat + 1) (hhi : v.toNat ≤ pass.toNat + 1) :
    pass.toNat ≤ v.toNat := by
  have hb : Wrap.behind v pass = false := by
    simpa [keepPolling, hne] using h
  by_contra hlt
  rw [not_le, ← Wrap.behind_iff_toNat (w := 31) (by omega) (by omega), hb] at hlt
  cases hlt

/-- The crossings of a pass come on top of those before it. -/
theorem sub_one_mul_add {p m : ℕ} (hp : 1 ≤ p) : (p - 1) * m + m = p * m := by
  obtain ⟨q, rfl⟩ := Nat.exists_eq_add_of_le' hp
  rw [Nat.add_sub_cancel, Nat.add_mul, Nat.one_mul]

section Step

variable {τ : List (Ev n)} {s : Gpu n}

/-- The boundary's invariant, in the names of the interpreter. -/
theorem Gpu.run_inv (hn : n < 2 ^ 31) (h : (lts n prog).Run τ s) :
    Grid.Inv (τ.filterMap Ev.cross) s.grid :=
  Grid.run_inv hn (run_grid h)

/-- A block outside the boundary, at a place reached with `L` crossings, has not arrived more
often. -/
theorem arrived_eq_left (hinv : Grid.Inv (τ.filterMap Ev.cross) s.grid) {b : Fin n}
    (hp : (s.block b).pc.phase ≠ .spinning) : arrived b τ = left b τ := by
  have h := hinv.arrived b
  rwa [if_neg (show s.grid.phase b ≠ .spinning from hp)] at h

/-- Nobody at the top of a pass is ahead of a block in a later pass. -/
theorem Lock.pass_le_of_poll (h : Lock prog τ s) (hinv : Grid.Inv (τ.filterMap Ev.cross) s.grid)
    {b : Fin n} (hp : (s.block b).pc = .poll) (j : Fin n) :
    (s.block j).pass.toNat ≤ (s.block b).pass.toNat := by
  have hj := (h.block j).place.le
  have hb := (h.block b).place
  have hpos := (h.block b).pass_pos
  rw [hp] at hb
  have hout : (s.block b).pc.phase ≠ .spinning := by rw [hp]; nofun
  have hle : left j τ ≤ left b τ := (hinv.sound j b).trans (le_of_eq (arrived_eq_left hinv hout))
  have hmul : ((s.block j).pass.toNat - 1) * stride prog ≤
      ((s.block b).pass.toNat - 1) * stride prog := hj.trans (hle.trans (le_of_eq hb))
  have := Nat.le_of_mul_le_mul_right hmul (Nat.succ_pos _)
  omega

/-- The value a polling block accepts is the halt value or its own pass number. -/
theorem Lock.hear_eq (h : Lock prog τ s) (hinv : Grid.Inv (τ.filterMap Ev.cross) s.grid)
    {b : Fin n} (hp : (s.block b).pc = .poll)
    (ht : keepPolling (doorbell b s.cells) (s.block b).pass = false)
    (hne : doorbell b s.cells ≠ doorbellHalt) :
    (doorbell b s.cells).toNat = (s.block b).pass.toNat ∧ (s.block b).pass.toNat ≤ rings τ ∧
      (b.val ≠ 0 → DevAtLeast s.cells (s.block b).pass.toNat) := by
  have hb := h.block b
  have hpass := hb.pass_le
  by_cases h0 : b.val = 0
  · -- block 0 polls the host cell: the host is not ahead of it
    have hz := h.zero b h0
    have hdoor : doorbell b s.cells = s.cells.doorbellHost := if_pos h0
    rw [hdoor] at ht hne ⊢
    have hR : s.cells.doorbellHost.toNat = rings τ := h.door.resolve_left hne
    have hle := h.rings_le
    have hd := hz.done
    have := le_of_keepPolling ht hne (by omega) (by omega)
    exact ⟨by omega, by omega, fun hb0 => absurd h0 hb0⟩
  · -- the others poll the forward cell: block 0 is not ahead of them
    have hdoor : doorbell b s.cells = s.cells.doorbellDev := if_neg h0
    rw [hdoor] at ht hne ⊢
    have hz := h.zero ⟨0, by have := b.isLt; omega⟩ rfl
    have hle := h.pass_le_of_poll hinv hp ⟨0, by have := b.isLt; omega⟩
    obtain ⟨hdev, hdevR⟩ := hz.dev_le hne
    have hnear := hb.near.resolve_left hne
    have := le_of_keepPolling ht hne (by omega) (by omega)
    exact ⟨by omega, by omega, fun _ => Or.inr this⟩

/-- Ringing and forwarding keep what holds of the blocks that do not move. -/
theorem BlockOk.mono {R R' L b : ℕ} {c c' : Cells} {k : Block} (h : BlockOk prog R c L b k)
    (hR : R ≤ R') (hdev : ∀ m, DevAtLeast c m → m ≤ k.pass.toNat → DevAtLeast c' m) :
    BlockOk prog R' c' L b k where
  pass_pos := h.pass_pos
  pass_le := h.pass_le.trans (by omega)
  live hl := by
    obtain ⟨h₁, h₂, h₃⟩ := h.live hl
    exact ⟨h₁.trans hR, h₂, hdev _ h₃ le_rfl⟩
  heard v hv hne := by
    obtain ⟨h₁, h₂⟩ := h.heard v hv hne
    exact ⟨h₁, h₂.trans hR⟩
  belled v hv hne := hdev _ (h.belled v hv hne) le_rfl
  near := hdev _ h.near (by omega)
  wf := h.wf
  place := h.place

/-- A step inside the instruction loop or out of it: the pass and the doorbells stay. -/
theorem BlockOk.move {R L L' b : ℕ} {c c' : Cells} {k : Block} (h : BlockOk prog R c L b k)
    (hc : c'.doorbellDev = c.doorbellDev) (pc : Pc) (hlive : pc.Live → k.pc.Live)
    (hbell : ∀ v, ¬ (pc = .forward v ∨ pc = .bell v)) (hwf : pc.Wf prog b)
    (hat : pc.At prog k.pass.toNat L') (e : U32) (q : List Raise) :
    BlockOk prog R c' L' b ⟨k.pass, e, pc, q⟩ where
  pass_pos := h.pass_pos
  pass_le := h.pass_le
  live hl := by
    rw [DevAtLeast, hc]
    exact h.live (hlive hl)
  heard v hv := absurd hv (hbell v)
  belled v hv := absurd (Or.inr hv) (hbell v)
  near := by
    rw [DevAtLeast, hc]
    exact h.near
  wf := hwf
  place := hat

/-- A step that changes neither the pass nor the place. -/
theorem BlockOk.sameLine {R L b : ℕ} {c c' : Cells} {k k' : Block} (h : BlockOk prog R c L b k)
    (hc : c'.doorbellDev = c.doorbellDev) (hpass : k'.pass = k.pass) (hpc : k'.pc = k.pc) :
    BlockOk prog R c' L b k' := by
  obtain ⟨h₁, h₂, h₃, h₄, h₅, h₆, h₇, h₈⟩ := h
  rw [← hpass] at h₁ h₂ h₃ h₄ h₅ h₆ h₈
  rw [← hpc] at h₃ h₄ h₅ h₇ h₈
  simp only [DevAtLeast, ← hc] at h₃ h₅ h₆
  exact ⟨h₁, h₂, h₃, h₄, h₅, h₆, h₇, h₈⟩

/-- A block that has sampled no error goes to the top of the next pass. -/
theorem BlockOk.nextPass {R L b : ℕ} {c c' : Cells} {k : Block} (h : BlockOk prog R c L b k)
    (hc : c'.doorbellDev = c.doorbellDev) {e : U32} (hp : k.pc = .sampled e) :
    BlockOk prog R c' L b { k with pass := k.pass + 1, pc := .poll } := by
  obtain ⟨hle, hlt, hdev⟩ := h.live (by rw [hp]; trivial)
  have hadd : (k.pass + 1).toNat = k.pass.toNat + 1 := Wrap.toNat_add_one (by omega)
  have hat := h.place
  rw [hp] at hat
  refine ⟨?_, ?_, fun hl => hl.elim, ?_, ?_, ?_, trivial, ?_⟩
  · simp only [hadd]
    omega
  · simp only [hadd]
    omega
  · rintro v (hv | hv) <;> cases hv
  · rintro v hv
    cases hv
  · rw [DevAtLeast, hc]
    simpa only [DevAtLeast, hadd, Nat.add_sub_cancel] using hdev
  · simp only [Pc.At, hadd, Nat.add_sub_cancel] at hat ⊢
    rw [hat, sub_one_mul_add h.pass_pos]

/-- What the moving block satisfies after its step, by cases on the rules of `BlockStep`. Most of
them move the block inside a pass (`BlockOk.move`) or not at all (`BlockOk.sameLine`). -/
theorem BlockOk.step (h : Lock prog τ s) (hinv : Grid.Inv (τ.filterMap Ev.cross) s.grid)
    {b : Fin n} {a : Act} {c : Cells} {k : Block}
    (hs : BlockStep n prog b s.cells (s.block b) a c k) :
    BlockOk prog (rings τ) c (left b τ + a.crossed) b k := by
  have hb := h.block b
  have hwf := hb.wf
  have hat := hb.place
  cases hs with
  | poll | tick => exact hb
  | spin hp => exact hb
  | @hear v hp hv ht =>
    subst hv
    have hlt := (hb.pass_le)
    rw [hp] at hat
    refine ⟨hb.pass_pos, hb.pass_le, fun hl => ?_, ?_, ?_, hb.near, ?_, ?_⟩
    · simp only at hl
      split at hl <;> exact hl.elim
    · rintro v hv hne
      have hv' : doorbell b s.cells = v := by
        simp only at hv
        split at hv <;> rcases hv with hv | hv <;> cases hv <;> rfl
      subst hv'
      obtain ⟨h₁, h₂, -⟩ := h.hear_eq hinv hp ht hne
      exact ⟨h₁, h₂⟩
    · rintro v hv hne
      simp only at hv
      split at hv
      · cases hv
      next h0 =>
        cases hv
        exact (h.hear_eq hinv hp ht hne).2.2 h0
    · simp only
      split
      next h0 => exact h0
      · trivial
    · simp only
      split
      · exact hat
      · exact hat
  | @forward v hp =>
    rw [hp] at hwf hat
    have hz := h.zero b hwf
    have hbefore := hz.before (Or.inr ⟨v, hp⟩)
    have hheard := hb.heard v (Or.inl hp)
    -- the new value of the forward cell is the halt value or block 0's own pass
    have hdev : DevAtLeast { s.cells with doorbellDev := v } (s.block b).pass.toNat := by
      by_cases hne : v = doorbellHalt
      · exact Or.inl hne
      · exact Or.inr (hheard hne).1.ge
    refine ⟨hb.pass_pos, hb.pass_le, fun hl => hl.elim, ?_, fun _ _ _ => hdev, ?_, trivial, hat⟩
    · rintro v' (hv | hv) hne
      · cases hv
      · cases hv
        exact hheard hne
    · exact hdev.imp_right fun hle => (Nat.sub_le _ _).trans hle
  | @start v hp hne =>
    rw [hp] at hat
    obtain ⟨heq, hle⟩ := hb.heard v (Or.inr hp) hne
    have hlt := toNat_ne_of_ne_halt hne
    refine ⟨hb.pass_pos, hb.pass_le, fun _ => ⟨hle, heq ▸ hlt, hb.belled v hp hne⟩, ?_, ?_,
      hb.near, Nat.zero_le _, ?_⟩
    · rintro v' (hv | hv) <;> cases hv
    · rintro v' hv
      cases hv
    · simpa [Pc.At, Act.crossed] using hat
  | stop hp =>
    rw [hp] at hat
    exact hb.move rfl .ret False.elim (by simp) trivial hat.ge _ _
  | cross hp hi =>
    rw [hp] at hwf hat
    exact hb.move rfl (.arrive _) (fun _ => by rw [hp]; trivial) (by simp) ⟨hwf, hi⟩ hat _ _
  | begin hp hi =>
    rw [hp] at hat
    exact hb.move rfl (.op _) (fun _ => by rw [hp]; trivial) (by simp) hi hat _ _
  | skip hp hi =>
    rw [hp] at hat
    obtain ⟨hlt, hbnd⟩ := bnd_succ_of_skips hi
    refine hb.move rfl (.fetch (_ + 1)) (fun _ => by rw [hp]; trivial) (by simp) hlt ?_ _ _
    rw [Pc.At, hbnd]
    exact hat
  | @bad i hp hi =>
    rw [hp] at hat
    have hle := hat.le
    by_cases h0 : b.val = 0
    · rw [if_pos h0]
      exact hb.move rfl .exit False.elim (by simp) h0 hle _ _
    · rw [if_neg h0]
      exact hb.move rfl .ret False.elim (by simp) trivial hle _ _
  | raise hp => exact hb.sameLine rfl rfl rfl
  | @store j r hr =>
    exact hb.sameLine (Raise.write_doorbellDev _ _) rfl rfl
  | finish hp hq =>
    rw [hp] at hwf hat
    obtain ⟨hlt, hbnd⟩ := bnd_succ_of_runs hwf
    refine hb.move rfl (.fetch (_ + 1)) (fun _ => by rw [hp]; trivial) (by simp) hlt ?_ _ _
    rw [Pc.At, hbnd]
    exact hat
  | arrive hp =>
    rw [hp] at hwf hat
    have hdev : ({ s.cells with counter := s.cells.counter + 1 } : Cells).doorbellDev =
      s.cells.doorbellDev := rfl
    exact hb.move hdev (.spin _) (fun _ => by rw [hp]; trivial) (by simp) hwf hat _ _
  | @leave i hp ht =>
    rw [hp] at hwf hat
    have hL : left b τ = (BitVec.toNat (s.block b).pass - 1) * stride prog + bnd prog i := hat
    refine hb.move rfl (afterCross prog i) (fun _ => by rw [hp]; trivial) ?_ ?_ ?_ _ _
    · rw [afterCross]
      split <;> simp
    · rw [afterCross]
      split
      next hlt => exact hlt
      · trivial
    · rw [afterCross]
      split
      next hlt =>
        have := bnd_succ_of_isCrossing hwf.2 hlt
        simp only [Pc.At, Act.crossed]
        omega
      next hge =>
        have hi : i = prog.length := by have := hwf.1; omega
        have : bnd prog prog.length + 1 = stride prog := bnd_length
        subst hi
        simp only [Pc.At, Act.crossed]
        omega
  | sample hp =>
    rw [hp] at hat
    exact hb.move rfl (.sampled _) (fun _ => by rw [hp]; trivial) (by simp) trivial hat _ _
  | publish hp h0 => exact hb.nextPass rfl hp
  | turn hp h0 => exact hb.nextPass rfl hp
  | quit hp hne =>
    rw [hp] at hat
    exact hb.move rfl .ret False.elim (by simp) trivial hat.le _ _
  | gone hp hq =>
    rw [hp] at hat
    exact hb.move rfl .ret False.elim (by simp) trivial hat _ _

/-- Block 0 outside the doorbell and the done cell. -/
theorem ZeroOk.move {R : ℕ} {c c' : Cells} {k k' : Block} (h : ZeroOk R c k)
    (hdev : c'.doorbellDev = c.doorbellDev) (hdone : c'.done = c.done) (hpass : k'.pass = k.pass)
    (hhalt : k.pc = .bell doorbellHalt ∨ k.pc = .ret → k'.pc = .ret)
    (hnot : ¬ (k'.pc = .poll ∨ ∃ v, k'.pc = .forward v)) : ZeroOk R c' k' where
  done := by rw [hdone, hpass]; exact h.done
  halted hv := Or.inr (hhalt (h.halted (hdev ▸ hv)))
  dev_le hne := by
    rw [hdev] at hne ⊢
    rw [hpass]
    exact h.dev_le hne
  before hp := absurd hp hnot

/-- What block 0 satisfies after its step. -/
theorem ZeroOk.step (h : Lock prog τ s) {b : Fin n} (h0 : b.val = 0) {a : Act} {c : Cells}
    {k : Block} (hs : BlockStep n prog b s.cells (s.block b) a c k) :
    ZeroOk (rings τ) c k := by
  have hz := h.zero b h0
  have hb := h.block b
  cases hs with
  | poll | tick => exact hz
  | spin hp => exact hz
  | @hear v hp hv ht =>
    rw [if_pos h0]
    refine ⟨hz.done, fun hd => ?_, hz.dev_le, fun _ => hz.before (Or.inl hp)⟩
    rcases hz.halted hd with hd | hd <;> rw [hp] at hd <;> cases hd
  | @forward v hp =>
    refine ⟨hz.done, fun hd => Or.inl (congrArg Pc.bell hd), fun hne => ?_, ?_⟩
    · obtain ⟨heq, hle⟩ := hb.heard v (Or.inl hp) hne
      exact ⟨heq.le, heq.le.trans hle⟩
    · rintro (hv | ⟨_, hv⟩) <;> cases hv
  | publish hp _ =>
    obtain ⟨hle, hlt, hdev⟩ := hb.live (by rw [hp]; trivial)
    have hadd : ((s.block b).pass + 1).toNat = (s.block b).pass.toNat + 1 :=
      Wrap.toNat_add_one (by omega)
    have hne : s.cells.doorbellDev ≠ doorbellHalt := fun hd => by
      rcases hz.halted hd with hd | hd <;> rw [hp] at hd <;> cases hd
    obtain ⟨hdle, hdR⟩ := hz.dev_le hne
    have hge := hdev.resolve_left hne
    refine ⟨hadd.symm, fun hd => absurd hd hne, fun _ => ⟨?_, hdR⟩, fun _ => ?_⟩ <;>
      simp only [hadd] <;> omega
  | turn _ hne => exact absurd h0 hne
  | bad hp hi =>
    rw [if_pos h0]
    exact hz.move rfl rfl rfl (by simp [hp]) (by simp)
  | @leave i hp ht =>
    refine hz.move rfl rfl rfl (by simp [hp]) ?_
    simp only [afterCross]
    split <;> simp
  | @store j r hr =>
    obtain ⟨h₁, h₂, h₃, h₄⟩ := hz
    refine ⟨?_, ?_, ?_, ?_⟩
    · rw [Raise.write_done]
      exact h₁
    · rw [Raise.write_doorbellDev]
      exact h₂
    · rw [Raise.write_doorbellDev]
      exact h₃
    · rw [Raise.write_doorbellDev]
      exact h₄
  | raise hp => exact hz.move rfl rfl rfl (by simp [hp]) (by simp [hp])
  | start hp hne => exact hz.move rfl rfl rfl (by simp [hp, hne]) (by simp)
  | stop hp | cross hp | begin hp | skip hp | finish hp | arrive hp | sample hp | quit hp
  | gone hp => exact hz.move rfl rfl rfl (by simp [hp]) (by simp)

/-- What a block other than block 0 can write: neither the doorbells nor `done`. -/
theorem BlockStep.cells_of_ne_zero (hwf : ∀ b : Fin n, (s.block b).pc.Wf prog b) {b : Fin n}
    (h0 : b.val ≠ 0) {a : Act} {c : Cells} {k : Block}
    (hs : BlockStep n prog b s.cells (s.block b) a c k) :
    c.doorbellDev = s.cells.doorbellDev ∧ c.done = s.cells.done := by
  cases hs with
  | forward hp =>
    have := hwf b
    rw [hp] at this
    exact absurd this h0
  | publish _ hb => exact absurd hb h0
  | store hr => exact ⟨Raise.write_doorbellDev _ _, Raise.write_done _ _⟩
  | _ => exact ⟨rfl, rfl⟩

/-- No block writes the host doorbell or the token. -/
theorem BlockStep.host_cells {b : ℕ} {c c' : Cells} {k k' : Block} {a : Act}
    (hs : BlockStep n prog b c k a c' k') :
    c'.doorbellHost = c.doorbellHost ∧ c'.token = c.token := by
  cases hs with
  | store hr => exact ⟨Raise.write_doorbellHost _ _, Raise.write_token _ _⟩
  | _ => exact ⟨rfl, rfl⟩

/-- Forwarding does not take the forward cell back. -/
theorem DevAtLeast.step (h : Lock prog τ s) {b : Fin n} {a : Act} {c : Cells} {k : Block}
    (hs : BlockStep n prog b s.cells (s.block b) a c k) {m : ℕ} (hm : DevAtLeast s.cells m) :
    DevAtLeast c m := by
  by_cases h0 : b.val = 0
  · cases hs with
    | @forward v hp =>
      have hz := h.zero b h0
      by_cases hne : v = doorbellHalt
      · exact Or.inl hne
      · have hbefore := hz.before (Or.inr ⟨v, hp⟩)
        have heq := ((h.block b).heard v (Or.inl hp) hne).1
        have hnd : s.cells.doorbellDev ≠ doorbellHalt := fun hd => by
          rcases hz.halted hd with hd | hd <;> rw [hp] at hd <;> cases hd
        have hle := hm.resolve_left hnd
        refine Or.inr ?_
        simp only
        omega
    | store hr =>
      rw [DevAtLeast, Raise.write_doorbellDev]
      exact hm
    | _ => exact hm
  · rw [DevAtLeast, (BlockStep.cells_of_ne_zero (fun j => (h.block j).wf) h0 hs).1]
    exact hm

/-- A block step keeps the lockstep invariant: the moving block by its own lemma, the others because
what they depend on only grows. -/
theorem Lock.blk (h : Lock prog τ s) (hinv : Grid.Inv (τ.filterMap Ev.cross) s.grid) {b : Fin n}
    {a : Act} {c : Cells} {k : Block} (hs : BlockStep n prog b s.cells (s.block b) a c k) :
    Lock prog (.blk b a :: τ) ⟨c, Function.update s.block b k⟩ := by
  obtain ⟨hhost, -⟩ := hs.host_cells
  -- `done` moves only when block 0 publishes the pass it is in, which has been rung
  have hdone : c.done.toNat ≤ rings τ ∧ rings τ ≤ c.done.toNat + 1 ∧
      c.done.toNat < 2 ^ 32 - 1 := by
    by_cases h0 : b.val = 0
    · have hz := h.zero b h0
      have hz' := ZeroOk.step h h0 hs
      cases hs with
      | publish hp _ =>
        obtain ⟨hle, hlt, -⟩ := (h.block b).live (by rw [hp]; trivial)
        have hd := hz.done
        have := h.rings_le
        exact ⟨hle, by simp only; omega, hlt⟩
      | store hr =>
        rw [Raise.write_done]
        exact ⟨h.done_le, h.rings_le, h.done_lt⟩
      | _ => exact ⟨h.done_le, h.rings_le, h.done_lt⟩
    · rw [(BlockStep.cells_of_ne_zero (fun j => (h.block j).wf) h0 hs).2]
      exact ⟨h.done_le, h.rings_le, h.done_lt⟩
  refine ⟨?_, ?_, ?_, hdone.2.2, fun j => ?_, fun j hj => ?_⟩
  · rw [rings_cons_blk, hhost]
    exact h.door
  · rw [rings_cons_blk]
    exact hdone.2.1
  · rw [rings_cons_blk]
    exact hdone.1
  · rw [rings_cons_blk]
    rcases eq_or_ne j b with rfl | hne
    · simp only [Function.update_self, left_cons_self]
      exact BlockOk.step h hinv hs
    · simp only [Function.update_of_ne hne, left_cons_other hne.symm]
      exact (h.block j).mono le_rfl fun m hm _ => hm.step h hs
  · rw [rings_cons_blk]
    rcases eq_or_ne j b with rfl | hne
    · simp only [Function.update_self]
      exact ZeroOk.step h hj hs
    · have hb0 : b.val ≠ 0 := fun hb => hne (Fin.ext (hj.trans hb.symm))
      obtain ⟨hd, hd'⟩ := BlockStep.cells_of_ne_zero (fun j => (h.block j).wf) hb0 hs
      simp only [Function.update_of_ne hne]
      obtain ⟨h₁, h₂, h₃, h₄⟩ := h.zero j hj
      exact ⟨by rw [hd']; exact h₁, by rw [hd]; exact h₂, by rw [hd]; exact h₃,
        by rw [hd]; exact h₄⟩

/-- When nothing is in flight, the last rung pass is done. -/
theorem Lock.done_of_quiet (h : Lock prog τ s) (hq : s.Quiet) :
    s.cells.done.toNat = rings τ := by
  have hdoor : s.cells.done.toNat = s.cells.doorbellHost.toNat := congrArg BitVec.toNat hq
  have hlt := h.done_lt
  rcases h.door with hd | hd
  · rw [hd, doorbellHalt_toNat] at hdoor
    omega
  · exact hdoor.trans hd

/-- Ringing: by the guard the last rung pass is done, so the host gets one pass ahead. -/
theorem Lock.ring (h : Lock prog τ s) (hq : s.Quiet) :
    Lock prog (.ring :: τ)
      { s with cells := { s.cells with doorbellHost := s.cells.doorbellHost + 1 } } := by
  have hrings : rings (.ring :: τ) = rings τ + 1 := by simp [rings]
  have hlt := h.done_lt
  have hdoor : s.cells.doorbellHost.toNat = s.cells.done.toNat := congrArg BitVec.toNat hq.symm
  have hR := h.done_of_quiet hq
  have hadd : (s.cells.doorbellHost + 1).toNat = s.cells.doorbellHost.toNat + 1 :=
    Wrap.toNat_add_one (by omega)
  refine ⟨Or.inr ?_, ?_, ?_, hlt, fun j => ?_, fun j hj => ?_⟩
  · simp only [hadd]
    omega
  · simp only
    omega
  · simp only
    omega
  · have hleft : left j (.ring :: τ) = left j τ := left_cons_of_none rfl j τ
    rw [hrings, hleft]
    exact (h.block j).mono (Nat.le_succ _) fun m hm _ => hm
  · obtain ⟨h₁, h₂, h₃, h₄⟩ := h.zero j hj
    exact ⟨h₁, h₂, fun hne => ⟨(h₃ hne).1, hrings ▸ (h₃ hne).2.trans (Nat.le_succ _)⟩, h₄⟩

/-- Host writes other than ringing leave everything but the door alone. -/
theorem Lock.hostWrite (h : Lock prog τ s) {e : Ev n} (he : e.cross = none) (hr : e ≠ .ring)
    {c : Cells} (hdoor : c.doorbellHost = doorbellHalt ∨ c.doorbellHost = s.cells.doorbellHost)
    (hdev : c.doorbellDev = s.cells.doorbellDev) (hdone : c.done = s.cells.done) :
    Lock prog (e :: τ) { s with cells := c } := by
  have hrings : rings (e :: τ) = rings τ := by simp [rings, hr]
  refine ⟨?_, ?_, ?_, ?_, fun j => ?_, fun j hj => ?_⟩
  · rw [hrings]
    rcases hdoor with hd | hd
    · exact Or.inl hd
    · simpa only [hd] using h.door
  · rw [hrings]
    simpa only [hdone] using h.rings_le
  · rw [hrings]
    simpa only [hdone] using h.done_le
  · simpa only [hdone] using h.done_lt
  · rw [hrings, left_cons_of_none he]
    refine (h.block j).mono le_rfl fun m hm _ => ?_
    simpa only [DevAtLeast, hdev] using hm
  · rw [hrings]
    obtain ⟨h₁, h₂, h₃, h₄⟩ := h.zero j hj
    exact ⟨by simpa only [hdone] using h₁, by simpa only [hdev] using h₂,
      by simpa only [hdev] using h₃, by simpa only [hdev] using h₄⟩

end Step

/-- At the start every block waits for the first ring. -/
theorem lock_zero : Lock prog [] (Gpu.zero n) where
  door := Or.inr rfl
  rings_le := Nat.zero_le _
  done_le := le_rfl
  done_lt := show (0 : U32).toNat < 2 ^ 32 - 1 by decide
  block b := by
    have h1 : ((Gpu.zero n).block b).pass.toNat = 1 := show (1 : U32).toNat = 1 by decide
    refine ⟨h1.ge, h1.le, False.elim, ?_, ?_, Or.inr ?_, trivial, ?_⟩
    · rintro v (hv | hv) <;> cases hv
    · rintro v hv
      cases hv
    · rw [h1]
      exact Nat.zero_le _
    · exact (Nat.zero_mul _).symm
  zero b _ := by
    have h1 : ((Gpu.zero n).block b).pass.toNat = 1 := show (1 : U32).toNat = 1 by decide
    have h0 : (Gpu.zero n).cells.doorbellDev.toNat = 0 := rfl
    have hne : (0 : U32) ≠ doorbellHalt := by decide
    refine ⟨h1.symm, fun h => absurd h hne, fun _ => ⟨?_, ?_⟩, fun _ => ?_⟩
    · rw [h0]
      exact Nat.zero_le _
    · rw [h0]
      exact Nat.zero_le _
    · rw [h0, h1]

/-- **Every run of a GPU is in lockstep.** -/
theorem run_lock (hn : n < 2 ^ 31) {τ : List (Ev n)} {s : Gpu n}
    (h : (Gpu.lts n prog).Run τ s) : Lock prog τ s := by
  refine Lts.Run.inv (I := Lock prog) ?_ ?_ h
  · rintro s rfl
    exact lock_zero
  · rintro τ s e s' hr ih hs
    cases e with
    | blk b a =>
      obtain ⟨c, k, hstep, rfl⟩ := Gpu.step_blk.mp hs
      exact ih.blk (Gpu.run_inv hn hr) hstep
    | ring =>
      obtain ⟨hq, rfl⟩ := Gpu.step_ring.mp hs
      exact ih.ring hq
    | halt =>
      obtain rfl := Gpu.step_halt.mp hs
      exact ih.hostWrite (e := .halt) rfl nofun (Or.inl rfl) rfl rfl
    | token t =>
      obtain ⟨-, rfl⟩ := Gpu.step_token.mp hs
      exact ih.hostWrite (e := .token t) rfl nofun (Or.inr rfl) rfl rfl

/-! ## Who can be executing -/

/-- In the instruction loop of a pass, not yet counted in at the epilogue boundary: the block may
still read and write what the pass is about. -/
def Pc.Executing (prog : List (Instr π)) : Pc → Prop
  | .fetch _ | .op _ | .arrive _ => True
  | .spin i => i < prog.length
  | _ => False

/-- A block that executes has not left the kernel. -/
theorem Pc.Executing.live {pc : Pc} (h : pc.Executing prog) : pc.Live := by
  cases pc with
  | fetch | op | arrive | spin => trivial
  | _ => cases h

/-- The crossings before instruction `i` of pass `p` fall short of those of the whole pass. -/
theorem place_lt (prog : List (Instr π)) (i : ℕ) {p : ℕ} (hp : 1 ≤ p) :
    (p - 1) * stride prog + bnd prog i < p * stride prog := by
  rw [← sub_one_mul_add hp]
  exact Nat.add_lt_add_left (bnd_lt_stride prog i) _

/-- An executing block has not counted itself in at the epilogue boundary of its pass. -/
theorem Lock.arrived_lt {τ : List (Ev n)} {s : Gpu n} (h : Lock prog τ s)
    (hinv : Grid.Inv (τ.filterMap Ev.cross) s.grid) {b : Fin n}
    (he : (s.block b).pc.Executing prog) :
    arrived b τ < (s.block b).pass.toNat * stride prog := by
  have hat := (h.block b).place
  have hwf := (h.block b).wf
  have hpos := (h.block b).pass_pos
  have hnot := arrived_eq_left hinv (b := b)
  rcases hp : (s.block b).pc with _ | v | v | i | i | i | i | _ | e | _ | _ <;>
    rw [hp] at hat hwf he hnot
  · cases he
  · cases he
  · cases he
  · rw [hnot nofun, show left b τ = _ from hat]
    exact place_lt prog i hpos
  · rw [hnot nofun, show left b τ = _ from hat]
    exact place_lt prog i hpos
  · rw [hnot nofun, show left b τ = _ from hat]
    exact place_lt prog i hpos
  · have harr : arrived b τ = left b τ + 1 := by
      have := hinv.arrived b
      rwa [if_pos (show s.grid.phase b = .spinning from congrArg Pc.phase hp)] at this
    have hlt := place_lt prog (i + 1) hpos
    rw [bnd_succ_of_isCrossing hwf.2 he] at hlt
    rw [harr, show left b τ = _ from hat]
    exact hlt
  · cases he
  · cases he
  · cases he
  · cases he

/-- **Only the last rung pass is executing, and it is not done.** A block behind the
epilogue of a pass would need everybody to have arrived there. -/
theorem Lock.executing {τ : List (Ev n)} {s : Gpu n} (h : Lock prog τ s)
    (hinv : Grid.Inv (τ.filterMap Ev.cross) s.grid) {b : Fin n}
    (he : (s.block b).pc.Executing prog) :
    (s.block b).pass.toNat = rings τ ∧ s.cells.done.toNat + 1 = rings τ := by
  obtain ⟨hle, -, -⟩ := (h.block b).live he.live
  have hlt := h.arrived_lt hinv he
  have hz := (h.zero ⟨0, by have := b.isLt; omega⟩ rfl).done
  have hL := (h.block ⟨0, by have := b.isLt; omega⟩).place.le
  have hsound : left _ τ ≤ arrived b τ := hinv.sound ⟨0, by have := b.isLt; omega⟩ b
  have hmul := (hL.trans hsound).trans_lt hlt
  have hpass := Nat.lt_of_mul_lt_mul_right hmul
  have := h.rings_le
  omega

/-- When the last rung pass is done, block 0 has nothing to publish. -/
theorem Lock.done_eq_of_quiet {τ : List (Ev n)} {s : Gpu n} (h : Lock prog τ s)
    (hq : s.cells.done.toNat = rings τ) {b : Fin n} {a : Act} {c : Cells} {k : Block}
    (hs : BlockStep n prog b s.cells (s.block b) a c k) : c.done = s.cells.done := by
  cases hs with
  | publish hp h0 =>
    have hlive := ((h.block b).live (by rw [hp]; trivial)).1
    have := (h.zero b h0).done
    omega
  | store hr => exact Raise.write_done _ _
  | _ => rfl

end Megakernel
