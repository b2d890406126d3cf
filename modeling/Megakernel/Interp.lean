import Megakernel.Isa

/-!
# The persistent interpreter (`mk_interp`)

The control skeleton of `core/interp.cu`, at the granularity of single accesses
to the control cells. A block is its elected thread: the value it broadcasts
through the slab word is the value all its threads act on.

Each pass goes doorbell - instruction loop - epilogue boundary - error sample,
and every access to a shared cell is a step of its own: polling the host cell or
the device forward cell, forwarding, the epoch increment, the arrival and each
spin of a boundary, the stores of `raise_error`, the error sample and the store
of `done`. What an op does to the data is not part of the skeleton: a block
inside `op_dispatch` takes any number of internal steps and may raise errors.
Systems with data (`Parallel`, `Exchange`) restrict these steps.

The rest of the world appears as four events of an open system: the host writes
the token cell, rings the doorbell or writes the halt value. That the host only
rings and only writes the token when the last rung pass is done is stated as the
guard of these events and discharged by the host models.

The step function is computable, which is what the example runs rest on (`Lts.replay`), and the
proofs go by its inversion (`BlockStep`), which has one rule for each kind of step.
-/

namespace Megakernel

/-- `DOORBELL_HALT` -/
def doorbellHalt : U32 := 0xFFFFFFFF

/-- The control cells of one GPU (`Control`, the boundary counter and the token cell). Everything
that blocks and the host share apart from data is here, so that a frame statement about control is
one about this record. -/
structure Cells : Type where
  /-- `y02_counter` -/
  counter : U32
  /-- host-mapped: pass number or halt -/
  doorbellHost : U32
  /-- device forward cell, written by block 0 -/
  doorbellDev : U32
  /-- host-mapped: last completed pass -/
  done : U32
  /-- device error code -/
  errDev : U32
  /-- host-mapped `err_host[0]` -/
  errHostCode : U32
  /-- host-mapped `err_host[1]` -/
  errHostAux : U32
  /-- `d_token` -/
  token : U32
  deriving DecidableEq

/-- The next store of a `raise_error` call. -/
inductive RaiseStage : Type where
  | hostAux
  | hostCode
  | dev
  deriving DecidableEq

/-- A `raise_error(code, aux)` call in progress. The call makes three stores, and other blocks and
the host may look at the cells between any two of them. -/
structure Raise : Type where
  code : ErrCode
  aux : U32
  stage : RaiseStage
  deriving DecidableEq

/-- The place of a block in `mk_interp`: one constructor for every point at which another party may
act before the block goes on. -/
inductive Pc : Type where
  /-- top of a pass, polling the doorbell -/
  | poll
  /-- block 0 read `v`, about to store it to `doorbell_dev` -/
  | forward (v : U32)
  /-- `bell = v` is known to the block -/
  | bell (v : U32)
  /-- about to decode instruction `i`, or to leave the loop at `n_instr` -/
  | fetch (i : ℕ)
  /-- inside `op_dispatch` of instruction `i` -/
  | op (i : ℕ)
  /-- in the boundary at `i` (an OP_BOUNDARY or the epilogue), epoch incremented -/
  | arrive (i : ℕ)
  /-- in the boundary at `i`, counted in -/
  | spin (i : ℕ)
  /-- behind the epilogue boundary, about to sample the error cell -/
  | sample
  /-- `err = e` is known to the block -/
  | sampled (e : U32)
  /-- block 0 at a bad kind, `raise_error` in progress -/
  | exit
  /-- returned -/
  | ret
  deriving DecidableEq

/-- The local state of a block. -/
structure Block : Type where
  /-- `pass` of the outer loop -/
  pass : U32
  /-- the epoch of `GridBoundary::cross` -/
  epoch : U32
  /-- place in the code -/
  pc : Pc
  /-- `raise_error` calls in progress -/
  raising : List Raise
  deriving DecidableEq

/-- The steps of a block. A label carries what the step has read or decided, so that a history tells
what the block did without a look at the states in between. -/
inductive Act : Type where
  /-- one load of the doorbell, test says to go on polling -/
  | poll
  /-- one load of the doorbell, accepted value `v` -/
  | hear (v : U32)
  /-- block 0 forwards `v` -/
  | forward (v : U32)
  /-- `bell` is not the halt value: begin the instruction loop -/
  | start (v : U32)
  /-- `bell` is the halt value: return -/
  | stop
  /-- decode an OP_BOUNDARY, or leave the loop: enter `cross` -/
  | cross (i : ℕ)
  /-- decode an instruction this block takes part in: enter `op_dispatch` -/
  | begin (i : ℕ)
  /-- decode an instruction of other blocks -/
  | skip (i : ℕ)
  /-- decode a bad or unwired kind -/
  | bad (i : ℕ)
  /-- an internal step of the op -/
  | tick (i : ℕ)
  /-- some thread of the op calls `raise_error` -/
  | raise (i : ℕ) (code : ErrCode) (aux : U32)
  /-- the next store of the raise at position `j` of those in progress -/
  | store (j : ℕ)
  /-- the op returns -/
  | finish (i : ℕ)
  /-- count in -/
  | arrive (i : ℕ)
  /-- one load of the counter, test true -/
  | spin (i : ℕ)
  /-- one load of the counter, test false -/
  | leave (i : ℕ)
  /-- load the device error cell -/
  | sample
  /-- block 0, no error: store `done`, next pass -/
  | publish
  /-- another block, no error: next pass -/
  | turn
  /-- the sampled error `e` is nonzero: return -/
  | quit (e : U32)
  /-- the raise of a bad kind is complete: return -/
  | gone
  deriving DecidableEq

variable {π : Type*}

/-- The doorbell a block polls: block 0 the host cell, the others the forward cell. Only block 0
ever looks across the bus. -/
def doorbell (b : ℕ) (c : Cells) : U32 := if b = 0 then c.doorbellHost else c.doorbellDev

/-- `v != DOORBELL_HALT && (int)(v - pass) < 0`: the halt value ends the polling in whatever pass,
and apart from it the doorbell is compared as a wrapping counter. -/
def keepPolling (v pass : U32) : Bool := decide (v ≠ doorbellHalt) && Wrap.behind v pass

/-- Instruction index `i` is a crossing: an OP_BOUNDARY or the end of the program. -/
def isCrossing (prog : List (Instr π)) (i : ℕ) : Bool :=
  match prog[i]? with
  | some ins => ins.isBoundary
  | none => true

/-- Block `b` runs instruction `i`. -/
def runs (prog : List (Instr π)) (b i : ℕ) : Bool :=
  match prog[i]? with
  | some ins => !ins.isBoundary && !ins.isBad && ins.participates b
  | none => false

/-- Block `b` decodes instruction `i` but does not take part in it. It goes on at once, and meets
the others again at the next boundary. -/
def skips (prog : List (Instr π)) (b i : ℕ) : Bool :=
  match prog[i]? with
  | some ins => !ins.isBoundary && !ins.isBad && !ins.participates b
  | none => false

/-- Instruction `i` has a bad or unwired kind. -/
def badAt (prog : List (Instr π)) (i : ℕ) : Bool :=
  match prog[i]? with
  | some ins => !ins.isBoundary && ins.isBad
  | none => false

/-- The error block 0 raises at a bad kind: `kind >= OP_KIND_COUNT ? BAD : UNWIRED`. -/
def badCode (prog : List (Instr π)) (i : ℕ) : ErrCode :=
  match prog[i]? with
  | some ins => if opKindCount ≤ ins.kind then .badKind else .unwiredKind
  | none => .badKind

/-- Behind the boundary at `i`: the next instruction, or the error sample. -/
def afterCross (prog : List (Instr π)) (i : ℕ) : Pc :=
  if i < prog.length then .fetch (i + 1) else .sample

/-- The cell written by the next store of a raise. -/
def Raise.write (r : Raise) (c : Cells) : Cells :=
  match r.stage with
  | .hostAux => { c with errHostAux := r.aux }
  | .hostCode => { c with errHostCode := r.code.toU32 }
  | .dev => { c with errDev := r.code.toU32 }

/-- The raise after its next store; `none` once all three are done. The host's mirror is written
before the device cell, its `aux` before its code, so that an error the device can see is one the
host can see. -/
def Raise.next (r : Raise) : Option Raise :=
  match r.stage with
  | .hostAux => some { r with stage := .hostCode }
  | .hostCode => some { r with stage := .dev }
  | .dev => none

/-- Perform the next store of the raise at position `j`. -/
def storeRaise (j : ℕ) (c : Cells) (q : List Raise) : Option (Cells × List Raise) :=
  match q[j]? with
  | some r => some (r.write c, q.take j ++ r.next.toList ++ q.drop (j + 1))
  | none => none

/-- One step of block `b` in a grid of `n` blocks running `prog`. The function is the body of
`mk_interp` cut at every shared access, and nothing if the label does not fit the place of the
block. -/
def blockAct (n : ℕ) (prog : List (Instr π)) (b : ℕ) (c : Cells) (k : Block) :
    Act → Option (Cells × Block)
  | .poll =>
    if k.pc = .poll ∧ keepPolling (doorbell b c) k.pass = true then some (c, k) else none
  | .hear v =>
    if k.pc = .poll ∧ doorbell b c = v ∧ keepPolling v k.pass = false then
      some (c, { k with pc := if b = 0 then .forward v else .bell v })
    else none
  | .forward v =>
    if k.pc = .forward v then some ({ c with doorbellDev := v }, { k with pc := .bell v })
    else none
  | .start v =>
    if k.pc = .bell v ∧ v ≠ doorbellHalt then some (c, { k with pc := .fetch 0 }) else none
  | .stop => if k.pc = .bell doorbellHalt then some (c, { k with pc := .ret }) else none
  | .cross i =>
    if k.pc = .fetch i ∧ isCrossing prog i = true then
      some (c, { k with epoch := k.epoch + 1, pc := .arrive i })
    else none
  | .begin i =>
    if k.pc = .fetch i ∧ runs prog b i = true then some (c, { k with pc := .op i }) else none
  | .skip i =>
    if k.pc = .fetch i ∧ skips prog b i = true then some (c, { k with pc := .fetch (i + 1) })
    else none
  | .bad i =>
    if k.pc = .fetch i ∧ badAt prog i = true then
      some (c, if b = 0 then
          { k with pc := .exit, raising := [⟨badCode prog i, BitVec.ofNat 32 i, .hostAux⟩] }
        else { k with pc := .ret })
    else none
  | .tick i => if k.pc = .op i then some (c, k) else none
  | .raise i code aux =>
    if k.pc = .op i then some (c, { k with raising := ⟨code, aux, .hostAux⟩ :: k.raising })
    else none
  | .store j => (storeRaise j c k.raising).map fun r => (r.1, { k with raising := r.2 })
  | .finish i =>
    if k.pc = .op i ∧ k.raising = [] then some (c, { k with pc := .fetch (i + 1) }) else none
  | .arrive i =>
    if k.pc = .arrive i then some ({ c with counter := c.counter + 1 }, { k with pc := .spin i })
    else none
  | .spin i =>
    if k.pc = .spin i ∧ spinTest n c.counter k.epoch = true then some (c, k) else none
  | .leave i =>
    if k.pc = .spin i ∧ spinTest n c.counter k.epoch = false then
      some (c, { k with pc := afterCross prog i })
    else none
  | .sample => if k.pc = .sample then some (c, { k with pc := .sampled c.errDev }) else none
  | .publish =>
    if k.pc = .sampled 0 ∧ b = 0 then
      some ({ c with done := k.pass }, { k with pass := k.pass + 1, pc := .poll })
    else none
  | .turn =>
    if k.pc = .sampled 0 ∧ b ≠ 0 then some (c, { k with pass := k.pass + 1, pc := .poll })
    else none
  | .quit e => if k.pc = .sampled e ∧ e ≠ 0 then some (c, { k with pc := .ret }) else none
  | .gone => if k.pc = .exit ∧ k.raising = [] then some (c, { k with pc := .ret }) else none

/-- What the steps of a block do, one rule for each: the inversion of `blockAct`. Invariants are
proved by cases on these rules, and the step function is not unfolded again. -/
inductive BlockStep (n : ℕ) (prog : List (Instr π)) (b : ℕ) (c : Cells) (k : Block) :
    Act → Cells → Block → Prop where
  | poll : k.pc = .poll → keepPolling (doorbell b c) k.pass = true →
      BlockStep n prog b c k .poll c k
  | hear {v : U32} : k.pc = .poll → doorbell b c = v → keepPolling v k.pass = false →
      BlockStep n prog b c k (.hear v) c { k with pc := if b = 0 then .forward v else .bell v }
  | forward {v : U32} : k.pc = .forward v →
      BlockStep n prog b c k (.forward v) { c with doorbellDev := v } { k with pc := .bell v }
  | start {v : U32} : k.pc = .bell v → v ≠ doorbellHalt →
      BlockStep n prog b c k (.start v) c { k with pc := .fetch 0 }
  | stop : k.pc = .bell doorbellHalt → BlockStep n prog b c k .stop c { k with pc := .ret }
  | cross {i : ℕ} : k.pc = .fetch i → isCrossing prog i = true →
      BlockStep n prog b c k (.cross i) c { k with epoch := k.epoch + 1, pc := .arrive i }
  | begin {i : ℕ} : k.pc = .fetch i → runs prog b i = true →
      BlockStep n prog b c k (.begin i) c { k with pc := .op i }
  | skip {i : ℕ} : k.pc = .fetch i → skips prog b i = true →
      BlockStep n prog b c k (.skip i) c { k with pc := .fetch (i + 1) }
  | bad {i : ℕ} : k.pc = .fetch i → badAt prog i = true →
      BlockStep n prog b c k (.bad i) c
        (if b = 0 then
          { k with pc := .exit, raising := [⟨badCode prog i, BitVec.ofNat 32 i, .hostAux⟩] }
        else { k with pc := .ret })
  | tick {i : ℕ} : k.pc = .op i → BlockStep n prog b c k (.tick i) c k
  | raise {i : ℕ} {code : ErrCode} {aux : U32} : k.pc = .op i →
      BlockStep n prog b c k (.raise i code aux) c
        { k with raising := ⟨code, aux, .hostAux⟩ :: k.raising }
  | store {j : ℕ} {r : Raise} : k.raising[j]? = some r →
      BlockStep n prog b c k (.store j) (r.write c)
        { k with raising := k.raising.take j ++ r.next.toList ++ k.raising.drop (j + 1) }
  | finish {i : ℕ} : k.pc = .op i → k.raising = [] →
      BlockStep n prog b c k (.finish i) c { k with pc := .fetch (i + 1) }
  | arrive {i : ℕ} : k.pc = .arrive i →
      BlockStep n prog b c k (.arrive i) { c with counter := c.counter + 1 }
        { k with pc := .spin i }
  | spin {i : ℕ} : k.pc = .spin i → spinTest n c.counter k.epoch = true →
      BlockStep n prog b c k (.spin i) c k
  | leave {i : ℕ} : k.pc = .spin i → spinTest n c.counter k.epoch = false →
      BlockStep n prog b c k (.leave i) c { k with pc := afterCross prog i }
  | sample : k.pc = .sample → BlockStep n prog b c k .sample c { k with pc := .sampled c.errDev }
  | publish : k.pc = .sampled 0 → b = 0 →
      BlockStep n prog b c k .publish { c with done := k.pass }
        { k with pass := k.pass + 1, pc := .poll }
  | turn : k.pc = .sampled 0 → b ≠ 0 →
      BlockStep n prog b c k .turn c { k with pass := k.pass + 1, pc := .poll }
  | quit {e : U32} : k.pc = .sampled e → e ≠ 0 →
      BlockStep n prog b c k (.quit e) c { k with pc := .ret }
  | gone : k.pc = .exit → k.raising = [] → BlockStep n prog b c k .gone c { k with pc := .ret }

/-- The step function takes exactly the steps the rules allow. -/
theorem blockAct_eq_some {n : ℕ} {prog : List (Instr π)} {b : ℕ} {c c' : Cells} {k k' : Block}
    {a : Act} : blockAct n prog b c k a = some (c', k') ↔ BlockStep n prog b c k a c' k' := by
  constructor
  · intro h
    cases a with
    | store j =>
      simp only [blockAct, storeRaise, Option.map_eq_some_iff, Prod.mk.injEq] at h
      obtain ⟨⟨c₁, q⟩, hq, rfl, rfl⟩ := h
      rcases hr : k.raising[j]? with _ | r
      · rw [hr] at hq
        cases hq
      · rw [hr] at hq
        cases hq
        exact .store hr
    | _ =>
      simp only [blockAct, Option.ite_none_right_eq_some, Option.some.injEq, Prod.mk.injEq] at h
      obtain ⟨hg, rfl, rfl⟩ := h
      first
        | exact .poll hg.1 hg.2 | exact .hear hg.1 hg.2.1 hg.2.2 | exact .forward hg
        | exact .start hg.1 hg.2 | exact .stop hg | exact .cross hg.1 hg.2
        | exact .begin hg.1 hg.2 | exact .skip hg.1 hg.2 | exact .bad hg.1 hg.2
        | exact .tick hg | exact .raise hg | exact .finish hg.1 hg.2 | exact .arrive hg
        | exact .spin hg.1 hg.2 | exact .leave hg.1 hg.2 | exact .sample hg
        | exact .publish hg.1 hg.2 | exact .turn hg.1 hg.2 | exact .quit hg.1 hg.2
        | exact .gone hg.1 hg.2
  · intro h
    cases h with
    | store hr => simp [blockAct, storeRaise, hr]
    | _ => simp_all [blockAct]

/-- One GPU: its control cells and its blocks. -/
structure Gpu (n : ℕ) : Type where
  cells : Cells
  block : Fin n → Block

/-- The events of one GPU. -/
inductive Ev (n : ℕ) : Type where
  /-- block `b` does `a` -/
  | blk (b : Fin n) (a : Act)
  /-- the host rings the next pass -/
  | ring
  /-- the host writes the halt value -/
  | halt
  /-- the host writes the token cell -/
  | token (t : U32)
  deriving DecidableEq

namespace Gpu

variable {n : ℕ}

/-- After `host_init` and `host_launch`: all cells 0, every block at the top of pass 1. -/
def zero (n : ℕ) : Gpu n := ⟨⟨0, 0, 0, 0, 0, 0, 0, 0⟩, fun _ => ⟨1, 0, .poll, []⟩⟩

/-- The host has nothing in flight: the last rung pass is done. It is the guard of ringing and of
writing the token, which the host models have to discharge. -/
def Quiet (s : Gpu n) : Prop := s.cells.done = s.cells.doorbellHost

instance (s : Gpu n) : Decidable s.Quiet := inferInstanceAs (Decidable (_ = _))

/-- One step of the GPU and its environment. -/
def step (prog : List (Instr π)) (s : Gpu n) : Ev n → Option (Gpu n)
  | .blk b a =>
    (blockAct n prog b s.cells (s.block b) a).map fun r =>
      ⟨r.1, Function.update s.block b r.2⟩
  | .ring =>
    if s.Quiet then
      some { s with cells := { s.cells with doorbellHost := s.cells.doorbellHost + 1 } }
    else none
  | .halt => some { s with cells := { s.cells with doorbellHost := doorbellHalt } }
  | .token t => if s.Quiet then some { s with cells := { s.cells with token := t } } else none

theorem step_blk {prog : List (Instr π)} {s s' : Gpu n} {b : Fin n} {a : Act} :
    step prog s (.blk b a) = some s' ↔
      ∃ c k, BlockStep n prog b s.cells (s.block b) a c k ∧
        s' = ⟨c, Function.update s.block b k⟩ := by
  simp [step, ← blockAct_eq_some, eq_comm]

theorem step_ring {prog : List (Instr π)} {s s' : Gpu n} :
    step prog s .ring = some s' ↔ s.Quiet ∧
      s' = { s with cells := { s.cells with doorbellHost := s.cells.doorbellHost + 1 } } := by
  simp [step, eq_comm]

theorem step_halt {prog : List (Instr π)} {s s' : Gpu n} :
    step prog s .halt = some s' ↔
      s' = { s with cells := { s.cells with doorbellHost := doorbellHalt } } := by
  simp [step, eq_comm]

theorem step_token {prog : List (Instr π)} {s s' : Gpu n} {t : U32} :
    step prog s (.token t) = some s' ↔ s.Quiet ∧
      s' = { s with cells := { s.cells with token := t } } := by
  simp [step, eq_comm]

/-- The GPU as an open transition system: its blocks, and an environment that rings, halts and
writes the token whenever the guards allow it. -/
def lts (n : ℕ) (prog : List (Instr π)) : Lts (Gpu n) (Ev n) := Lts.ofFun (zero n) (step prog)

end Gpu

/-! ## The boundary inside the interpreter -/

/-- The phase of `GridBoundary::cross` a block is in. -/
def Pc.phase : Pc → Phase
  | .arrive _ => .arriving
  | .spin _ => .spinning
  | _ => .out

/-- The boundary events among the events of the GPU. -/
def Ev.cross {n : ℕ} : Ev n → Option (Fin n × CrossAct)
  | .blk b (.cross _) => some (b, .enter)
  | .blk b (.arrive _) => some (b, .arrive)
  | .blk b (.spin _) => some (b, .spin)
  | .blk b (.leave _) => some (b, .leave)
  | _ => none

/-- The boundary's own state inside a GPU. -/
def Gpu.grid {n : ℕ} (s : Gpu n) : Grid n :=
  ⟨s.cells.counter, fun b => (s.block b).epoch, fun b => (s.block b).pc.phase⟩

end Megakernel
