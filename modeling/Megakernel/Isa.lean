import Megakernel.Boundary

/-!
# The interpreter ISA

`core/isa.cuh` and the wired list of `k0/ops/registry.cuh`: the macro kinds, the
instruction header every block decodes, and the two predicates the interpreter
uses on a header. The kind of an instruction is the raw 16-bit code, since the
interpreter has to cope with codes that name no kind.

The payload is a parameter: the interpreter never looks at it, each op casts it
to its own arguments.

Kinds are compared by their codes. `opWired_iff` is all that is used of the wired list: in this ISA
the kinds that are declared are the kinds that are wired, so that an error at a bad kind is always
about a code that nobody has declared.
-/

namespace Megakernel

/-- `MacroKind`, in declaration order: the code of a kind is its position. -/
inductive MacroKind : Type where
  | nop
  /-- cross the Y02 boundary -/
  | boundary
  | embedLookup
  | rmsnorm
  | quantQ8_1
  | headGemvF16
  | logitsEmit
  | mmvqQ4_0
  | mmvqQ4_0Fused
  | mmvqAr16
  | gemvF16
  | convShiftConcat
  | ssmConvSilu
  | qkL2norm
  | gdnGates
  | gdnStep
  | gatedRmsnorm
  | qkNormRope
  | kvAppend
  | fattnDecode
  | fattnReduce
  | attnGate
  | residualAdd
  | stateLoad
  | stateStore
  | xchgPush
  | xchgReduce
  deriving DecidableEq, Repr

/-- The 16-bit code of a kind. -/
def MacroKind.code (k : MacroKind) : ℕ := k.ctorIdx

/-- `OP_KIND_COUNT`: one past the last code. -/
def opKindCount : ℕ := 27

/-- The kinds of `MK_WIRED_OPS`, in the order of the list. -/
def wiredOps : List MacroKind :=
  [.rmsnorm, .residualAdd, .embedLookup, .logitsEmit, .stateLoad, .convShiftConcat,
    .ssmConvSilu, .qkL2norm, .gdnGates, .gdnStep, .gatedRmsnorm, .stateStore, .quantQ8_1,
    .mmvqQ4_0, .mmvqQ4_0Fused, .mmvqAr16, .gemvF16, .headGemvF16, .qkNormRope, .kvAppend,
    .fattnDecode, .fattnReduce, .attnGate, .xchgPush, .xchgReduce]

/-- `op_wired`: NOP, BOUNDARY and the wired list. A kind the ISA declares but the registry does not
wire would be answered with an error of its own. -/
def opWired (kind : ℕ) : Bool :=
  kind == MacroKind.nop.code || kind == MacroKind.boundary.code ||
    (wiredOps.map MacroKind.code).contains kind

theorem MacroKind.code_lt (k : MacroKind) : k.code < opKindCount := by
  cases k <;> decide

/-- Every kind the ISA declares is wired: only codes from `OP_KIND_COUNT` on are not. -/
theorem opWired_iff (kind : ℕ) : opWired kind = true ↔ kind < opKindCount := by
  constructor
  · intro h
    simp only [opWired, Bool.or_eq_true, beq_iff_eq, List.contains_iff_mem, List.mem_map] at h
    rcases h with (h | h) | ⟨k, -, h⟩
    · exact h ▸ MacroKind.code_lt _
    · exact h ▸ MacroKind.code_lt _
    · exact h ▸ MacroKind.code_lt k
  · intro h
    have hall : ∀ k < opKindCount, opWired k = true := by decide
    exact hall kind h

/-- An instruction: the header fields the interpreter reads, and the payload. The block range is
half open, and a block outside it decodes the instruction without taking part. -/
structure Instr (π : Type*) : Type _ where
  /-- raw `MacroKind` code -/
  kind : ℕ
  /-- first participating block -/
  blockLo : ℕ
  /-- one past the last participating block -/
  blockHi : ℕ
  /-- kind-specific arguments -/
  payload : π

namespace Instr

variable {π : Type*}

/-- `kind == OP_BOUNDARY` -/
def isBoundary (ins : Instr π) : Bool := ins.kind == MacroKind.boundary.code

/-- `kind >= OP_KIND_COUNT || !op_wired(kind)`: the interpreter raises an error here and stops the
block, before it looks at the block range. -/
def isBad (ins : Instr π) : Bool := decide (opKindCount ≤ ins.kind) || !opWired ins.kind

/-- `blockIdx.x >= in.block_lo && blockIdx.x < in.block_hi` -/
def participates (ins : Instr π) (b : ℕ) : Bool := decide (ins.blockLo ≤ b ∧ b < ins.blockHi)

end Instr

/-- The nonzero codes of `ErrCode`. The error cells hold 0 as long as nothing has been raised. -/
inductive ErrCode : Type where
  /-- kind >= OP_KIND_COUNT -/
  | badKind
  /-- valid kind, no case in the registry -/
  | unwiredKind
  /-- OP_LOGITS_EMIT flag needs a one-block range -/
  | logitsFlagMultiblock
  deriving DecidableEq, Repr

/-- The value stored in the error cells. -/
def ErrCode.toU32 : ErrCode → U32
  | .badKind => 1
  | .unwiredKind => 2
  | .logitsFlagMultiblock => 3

theorem ErrCode.toU32_ne_zero (e : ErrCode) : e.toU32 ≠ 0 := by
  cases e <;> decide

end Megakernel
