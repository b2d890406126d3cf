import Megakernel.Coalesce

/-!
# The schedule compiler (`compile_schedule.py`)

What the compiler emits for a network: one window of instructions after the other,
each instruction with its arguments, the buffers it uses, and the read and write
sets that it declares. The weights are the leaves of the graph it has read.

An instruction gets a meaning from a `Sem`: its call is an uninterpreted function
of what it reads. Only two operations are known by what they do, the residual add
that is folded into OP_RMSNORM, and the exchange.

The emitters are written in the order of the source and with its names, one list of windows for
each. Their arguments are kept in the calls, also those that no proof looks at, because the
operations get a meaning from them later (`ExactOps`).
-/

namespace Megakernel.Schedule

/-! ## Names -/

/-- A scratch buffer. All blocks of the network use the same ones, one after the other. -/
inductive Buf : Type where
  /-- the residual trunk x -/
  | residual
  /-- rmsnorm output -/
  | xn
  /-- quantized activations for MMVQ -/
  | q8Act
  /-- mixer GEMV output; on DN blocks reused for post-conv qkv -/
  | mixerOut
  /-- conv concat window -/
  | convWs
  /-- ssm_alpha GEMV out; becomes g in place -/
  | gdnAlpha
  /-- ssm_beta GEMV out; becomes sigmoid(beta) in place -/
  | gdnBeta
  /-- GDN state working copy -/
  | gdnState
  /-- mixer output vector; gated in place -/
  | attnOut
  /-- DN z-gate GEMV out -/
  | gateOut
  /-- current-token K row; normed and roped in place -/
  | kStage
  /-- current-token V row -/
  | vStage
  /-- compact roped q -/
  | fattnQ
  /-- split-KV partials -/
  | fattnPartial
  /-- FFN intermediate -/
  | ffnWs
  /-- block output projection -/
  | projOut
  /-- lm head output -/
  | logits
  deriving DecidableEq

/-- A cell that the host writes or reads. -/
inductive Cell : Type where
  | token
  | maskF16
  | nKv
  | resultOutput
  | doneFlag
  deriving DecidableEq

/-- A cache of a block: keys and values of an attention block, or the states of a DeltaNet block.
Caches are all that a pass leaves to the next. -/
inductive Cache : Type where
  /-- cache_k_l -/
  | k (bi : ℕ)
  /-- cache_v_l -/
  | v (bi : ℕ)
  /-- state_r_l, of the convolution -/
  | r (bi : ℕ)
  /-- state_s_l, of the recurrence -/
  | s (bi : ℕ)
  deriving DecidableEq

/-- What an instruction may read or write. -/
inductive Name : Type where
  | buf (b : Buf)
  | cell (c : Cell)
  | cache (c : Cache)
  deriving DecidableEq

open Name

/-! ## Instructions -/

/-- An argument that is not a buffer. -/
inductive Arg : Type where
  | nat (n : ℕ)
  | text (s : String)
  deriving DecidableEq

/-- What an instruction does: its kind, its weights, and its arguments. Two instructions with the
same call do the same with what they read. -/
structure Call (W : Type*) : Type _ where
  kind : MacroKind
  weights : List W
  args : List (String × Arg)

/-- The number that a call has under a name. -/
def Call.nat {W : Type*} (c : Call W) (key : String) : Option ℕ :=
  match c.args.lookup key with
  | some (.nat n) => some n
  | _ => none

/-- An emitted instruction: an entry of `PROG`. The inputs and outputs are what it uses and makes;
the read and write sets are what it declares, and the fields behind them say that nothing is used
undeclared. -/
structure Ins (W : Type*) : Type _ where
  call : Call W
  /-- the buffers it uses as inputs, in the order of its arguments -/
  ins : List Name
  /-- the buffers it makes -/
  outs : List Name
  /-- `_est` -/
  est : ℕ
  /-- `_r` -/
  reads : Finset Name
  /-- `_w` -/
  writes : Finset Name
  ins_subset : ∀ n ∈ ins, n ∈ reads ∪ writes := by simp
  outs_subset : ∀ n ∈ outs, n ∈ writes := by simp

/-- What the operations are on contents of buffers. But for the add and the fold they are
uninterpreted, so that a statement for all of them is one about the schedule alone. -/
structure Sem (W V : Type*) : Type _ where
  /-- an uninterpreted function for each call and each buffer it makes -/
  call : Call W → ℕ → List V → V
  /-- src + add_src -/
  add : List V → V
  /-- the fold of a partial at a site -/
  fold : ℕ → List V → V

variable {W V : Type*}

namespace Ins

/-- The contents an instruction makes of its inputs, in the order of `outs`. OP_RMSNORM with an
`add_src` makes the norm of a sum and the sum. -/
def values (sem : Sem W V) (i : Ins W) (vs : List V) : List V :=
  match i.call.kind with
  | .rmsnorm =>
    if i.ins.length = 2 then [sem.call i.call 0 [sem.add vs], sem.add vs]
    else [sem.call i.call 0 vs]
  | .xchgReduce => [sem.fold ((i.call.nat "site").getD 0) vs]
  | _ => (List.range i.outs.length).map fun o => sem.call i.call o vs

/-- The effect on the store. -/
def exec (sem : Sem W V) (i : Ins W) (m : Name → V) : Name → V :=
  (i.outs.zip (i.values sem (i.ins.map m))).foldr (fun p m' => Function.update m' p.1 p.2) m

theorem exec_of_notMem {sem : Sem W V} {i : Ins W} {m : Name → V} {n : Name} (h : n ∉ i.outs) :
    i.exec sem m n = m n := by
  have hnot : ∀ p ∈ i.outs.zip (i.values sem (i.ins.map m)), p.1 ≠ n := by
    intro p hp heq
    exact h (heq ▸ (List.of_mem_zip hp).1)
  rw [exec]
  generalize i.outs.zip (i.values sem (i.ins.map m)) = l at hnot
  induction l with
  | nil => rfl
  | cons p l ih =>
    rw [List.forall_mem_cons] at hnot
    rw [List.foldr_cons, Function.update_of_ne hnot.1.symm]
    exact ih hnot.2

/-- The entry as the rest of the compiler sees it, with its meaning. -/
def toOp (sem : Sem W V) (i : Ins W) : Op Name V where
  kind := i.call.kind
  reads := i.reads
  writes := i.writes
  est := i.est
  exec := i.exec sem
  confined := by
    constructor
    · intro m n hn
      exact exec_of_notMem fun hout => hn (i.outs_subset n hout)
    · intro m m' heq n hn
      have hins : i.ins.map m = i.ins.map m' := by
        refine List.map_congr_left fun a ha => heq ?_
        have := i.ins_subset a ha
        rwa [← Finset.mem_coe, Finset.coe_union] at this
      have hmn : m n = m' n := heq (Set.mem_union_right _ hn)
      rw [exec, exec, hins]
      induction i.outs.zip (i.values sem (i.ins.map m')) with
      | nil => exact hmn
      | cons p l ih =>
        rw [List.foldr_cons, List.foldr_cons]
        by_cases hp : n = p.1
        · rw [hp, Function.update_self, Function.update_self]
        · rw [Function.update_of_ne hp, Function.update_of_ne hp, ih]

end Ins

/-! ## The emitters -/

/-- The size of the grid. -/
def grid : ℕ := 72

/-- N_EMBD -/
def nEmbd : ℕ := 5120

/-- N_FF -/
def nFf : ℕ := 17408

/-- N_VOCAB -/
def nVocab : ℕ := 248320

/-- GDN_HEADS -/
def gdnHeads : ℕ := 48

/-- GDN_HEAD_DIM -/
def gdnHeadDim : ℕ := 128

/-- ATTN_Q_HEADS -/
def attnQHeads : ℕ := 24

/-- ATTN_KV_HEADS -/
def attnKvHeads : ℕ := 4

/-- ATTN_HEAD_DIM -/
def attnHeadDim : ℕ := 256

/-- CONV_CHANNELS -/
def convChannels : ℕ := 10240

/-- D_CONV -/
def dConv : ℕ := 4

/-- NGPU, with `--split` or without -/
def ngpu (split : Bool) : ℕ := if split then 2 else 1

/-- This GPU's local share of a split dimension: a half with `--split`, and otherwise all of it. -/
def sp (split : Bool) (n : ℕ) : ℕ := n / ngpu split

/-- A weight matrix: `weight_name`, the rows `ne[1]`, and `weight_bytes`, from which its GEMV's
estimate is made. -/
structure Leaf (W : Type*) : Type _ where
  weight : W
  rows : ℕ
  bytes : ℕ

/-- The leaves of `ffn_fused`. -/
structure FfnLeaves (W : Type*) : Type _ where
  gate : Leaf W
  up : Leaf W
  down : Leaf W

/-- The leaves of an attention block. -/
structure AttnLeaves (W : Type*) : Type _ where
  attnNorm : W
  q : Leaf W
  k : Leaf W
  v : Leaf W
  qNorm : W
  kNorm : W
  o : Leaf W
  postNorm : W
  ffn : FfnLeaves W

/-- The leaves of a DeltaNet block. -/
structure DnLeaves (W : Type*) : Type _ where
  attnNorm : W
  qkv : Leaf W
  z : Leaf W
  alpha : Leaf W
  beta : Leaf W
  dtBias : W
  a : W
  conv : W
  ssmNorm : W
  out : Leaf W
  postNorm : W
  ffn : FfnLeaves W

/-- A trunk block. -/
inductive Block (W : Type*) : Type _ where
  | attn (b : AttnLeaves W)
  | dn (b : DnLeaves W)

/-- The leaves outside of the trunk. -/
structure EndLeaves (W : Type*) : Type _ where
  tokEmbd : W
  outputNorm : W
  output : Leaf W

section Emit

variable (split : Bool)

/-- The arguments of OP_RMSNORM. -/
def rmsnormCall (weight : W) (extra : List (String × Arg)) : Call W :=
  ⟨.rmsnorm, [weight], [("width", .nat nEmbd), ("eps", .text "1e-06")] ++ extra⟩

/-- `emit_rmsnorm`: with an `add_src` the sum is made first and written back, so that it reads and
writes the residual. -/
def emitRmsnorm (weight : W) (src dst : Buf) (addSrc : Option Buf)
    (extra : List (String × Arg)) : Ins W :=
  match addSrc with
  | none =>
    { call := rmsnormCall weight extra
      ins := [buf src], outs := [buf dst], est := 4096, reads := {buf src}, writes := {buf dst} }
  | some add =>
    { call := rmsnormCall weight extra
      ins := [buf src, buf add], outs := [buf dst, buf src], est := 4096
      reads := {buf src, buf add}, writes := {buf dst, buf src} }

/-- The arguments of OP_QUANT_Q8_1. -/
def quantCall (elems : ℕ) : Call W := ⟨.quantQ8_1, [], [("elems", .nat elems)]⟩

/-- `emit_quant` -/
def emitQuant (src : Buf) (elems : ℕ) : Ins W :=
  { call := quantCall elems
    ins := [buf src], outs := [buf .q8Act], est := 4096, reads := {buf src},
    writes := {buf .q8Act} }

/-- The arguments of a row-split GEMV over `k` columns. -/
def rowCall (kind : MacroKind) (l : Leaf W) (k : ℕ) : Call W :=
  ⟨kind, [l.weight], [("src_elems", .nat k), ("dst_off", .nat 0), ("row_lo", .nat 0),
    ("row_hi", .nat (sp split l.rows)), ("split_axis", .text "row")]⟩

/-- The arguments of a column-split GEMV over `k` columns. -/
def colCall (kind : MacroKind) (l : Leaf W) (k : ℕ) : Call W :=
  ⟨kind, [l.weight], [("src_elems", .nat (sp split k)), ("dst_off", .nat 0), ("row_lo", .nat 0),
    ("row_hi", .nat l.rows), ("split_axis", .text "col")]⟩

/-- `emit_mmvq` with the given arguments. -/
def emitMmvq (l : Leaf W) (call : Call W) (dst : Buf) : Ins W :=
  { call := call
    ins := [buf .q8Act], outs := [buf dst], est := l.bytes / ngpu split
    reads := {buf .q8Act}, writes := {buf dst} }

/-- OP_XCHG_PUSH, which makes nothing here. -/
def emitXchgPush (site : ℕ) : Ins W :=
  { call := ⟨.xchgPush, [], [("n_elems", .nat nEmbd), ("site", .nat site)]⟩
    ins := [buf .projOut], outs := [], est := nEmbd * 4, reads := {buf .projOut}, writes := ∅ }

/-- OP_XCHG_REDUCE -/
def emitXchgReduce (site : ℕ) : Ins W :=
  { call := ⟨.xchgReduce, [], [("n_elems", .nat nEmbd), ("seqno", .text "sym:$seqno"),
      ("gpu_index", .text "sym:$gpu_index"), ("site", .nat site)]⟩
    ins := [buf .projOut], outs := [buf .projOut], est := nEmbd * 4, reads := {buf .projOut}
    writes := {buf .projOut} }

/-- `emit_col_reduce`, at the site that `XCHG_SITE` counts. Without `--split` nothing is emitted,
and the GEMV in front has the whole sum. -/
def emitColReduce (site : ℕ) : List (List (Ins W)) :=
  if split then [[emitXchgPush site], [emitXchgReduce site]] else []

/-- The arguments of OP_MMVQ_Q4_0_FUSED. -/
def fusedCall (b : FfnLeaves W) : Call W :=
  ⟨.mmvqQ4_0Fused, [b.gate.weight, b.up.weight],
    [("glu", .text "swiglu"), ("src_elems", .nat nEmbd),
    ("row_lo", .nat 0), ("row_hi", .nat (sp split nFf)), ("split_axis", .text "row")]⟩

/-- `emit_ffn` -/
def emitFfn (b : FfnLeaves W) (site : ℕ) : List (List (Ins W)) :=
  [[emitQuant .xn nEmbd],
    [{ call := fusedCall split b
       ins := [buf .q8Act], outs := [buf .ffnWs], est := (b.gate.bytes + b.up.bytes) / ngpu split
       reads := {buf .q8Act}, writes := {buf .ffnWs} }],
    [emitQuant .ffnWs (sp split nFf)],
    [emitMmvq split b.down (colCall split .mmvqQ4_0 b.down nFf) .projOut]] ++
  emitColReduce split site

/-! ### DeltaNet blocks -/

/-- The arguments of OP_GEMV_F16. -/
def gemvF16Call (l : Leaf W) : Call W :=
  ⟨.gemvF16, [l.weight], [("src_elems", .nat nEmbd), ("row_lo", .nat 0),
    ("row_hi", .nat (sp split gdnHeads))]⟩

/-- The arguments of OP_STATE_LOAD. -/
def stateLoadCall : Call W :=
  ⟨.stateLoad, [], [("row", .text "sym:$rs_row"), ("elems", .nat (sp split 786432))]⟩

/-- The arguments of OP_GDN_GATES. -/
def gatesCall (b : DnLeaves W) : Call W :=
  ⟨.gdnGates, [b.dtBias, b.a], [("heads", .nat (sp split gdnHeads))]⟩

/-- The arguments of OP_CONV_SHIFT_CONCAT. -/
def convCall : Call W :=
  ⟨.convShiftConcat, [], [("row", .text "sym:$rs_row"), ("channels", .nat (sp split convChannels)),
    ("d_conv", .nat dConv)]⟩

/-- The arguments of OP_SSM_CONV_SILU. -/
def siluCall (b : DnLeaves W) : Call W :=
  ⟨.ssmConvSilu, [b.conv], [("channels", .nat (sp split convChannels)), ("d_conv", .nat dConv),
    ("silu", .text "true")]⟩

/-- The arguments of OP_QK_L2NORM. -/
def l2normCall : Call W :=
  ⟨.qkL2norm, [], [("q_off", .nat 0), ("k_off", .nat (sp split 2048)),
    ("heads", .nat (sp split 16)),
    ("head_dim", .nat gdnHeadDim), ("eps", .text "1e-06")]⟩

/-- The arguments of OP_GDN_STEP. -/
def stepCall : Call W :=
  ⟨.gdnStep, [], [("q_off", .nat 0), ("k_off", .nat (sp split 2048)),
    ("v_off", .nat (sp split 4096)),
    ("v_heads", .nat (sp split gdnHeads)), ("k_heads", .nat (sp split 16)),
    ("head_dim", .nat gdnHeadDim), ("scale", .text "1.0 / math.sqrt(GDN_HEAD_DIM)")]⟩

/-- The arguments of OP_STATE_STORE. -/
def stateStoreCall : Call W :=
  ⟨.stateStore, [], [("row", .text "sym:$rs_row"), ("elems", .nat (sp split 786432))]⟩

/-- The arguments of OP_GATED_RMSNORM. -/
def gatedCall (b : DnLeaves W) : Call W :=
  ⟨.gatedRmsnorm, [b.ssmNorm], [("heads", .nat (sp split gdnHeads)), ("head_dim", .nat gdnHeadDim),
    ("eps", .text "1e-06")]⟩

/-- The windows of a DeltaNet block between its first norm and its second. -/
def emitDnMixer (bi : ℕ) (b : DnLeaves W) (site : ℕ) : List (List (Ins W)) :=
  [[emitQuant .xn nEmbd],
    [emitMmvq split b.qkv (rowCall split .mmvqQ4_0 b.qkv nEmbd) .mixerOut,
      emitMmvq split b.z (rowCall split .mmvqQ4_0 b.z nEmbd) .gateOut,
      { call := gemvF16Call split b.alpha
        ins := [buf .xn], outs := [buf .gdnAlpha], est := b.alpha.bytes / ngpu split
        reads := {buf .xn}, writes := {buf .gdnAlpha} },
      { call := gemvF16Call split b.beta
        ins := [buf .xn], outs := [buf .gdnBeta], est := b.beta.bytes / ngpu split
        reads := {buf .xn}, writes := {buf .gdnBeta} },
      { call := stateLoadCall split
        ins := [cache (.s bi)], outs := [buf .gdnState], est := sp split 786432 * 4
        reads := {cache (.s bi)}, writes := {buf .gdnState} }],
    [{ call := gatesCall split b
       ins := [buf .gdnAlpha, buf .gdnBeta], outs := [buf .gdnAlpha, buf .gdnBeta], est := 512
       reads := {buf .gdnAlpha, buf .gdnBeta}, writes := {buf .gdnAlpha, buf .gdnBeta} },
      { call := convCall split
        ins := [cache (.r bi), buf .mixerOut], outs := [buf .convWs, cache (.r bi)]
        est := 2 * (dConv - 1) * sp split convChannels * 4
        reads := {cache (.r bi), buf .mixerOut}, writes := {buf .convWs, cache (.r bi)} }],
    [{ call := siluCall split b
       ins := [buf .convWs], outs := [buf .mixerOut], est := 4096
       reads := {buf .convWs}, writes := {buf .mixerOut} }],
    [{ call := l2normCall split
       ins := [buf .mixerOut], outs := [buf .mixerOut], est := 4096
       reads := {buf .mixerOut}, writes := {buf .mixerOut} }],
    [{ call := stepCall split
       ins := [buf .mixerOut, buf .gdnAlpha, buf .gdnBeta, buf .gdnState]
       outs := [buf .gdnState, buf .attnOut], est := sp split 786432 * 4
       reads := {buf .mixerOut, buf .gdnAlpha, buf .gdnBeta, buf .gdnState}
       writes := {buf .gdnState, buf .attnOut} }],
    [{ call := gatedCall split b
       ins := [buf .attnOut, buf .gateOut], outs := [buf .attnOut], est := 49152
       reads := {buf .attnOut, buf .gateOut}, writes := {buf .attnOut} },
      -- the store replaces one row of the cache
      { call := stateStoreCall split
        ins := [buf .gdnState, cache (.s bi)], outs := [cache (.s bi)], est := sp split 786432 * 4
        reads := {buf .gdnState}, writes := {cache (.s bi)} }],
    [emitQuant .attnOut (sp split 6144)],
    [emitMmvq split b.out (colCall split .mmvqAr16 b.out 6144) .projOut]] ++
  emitColReduce split site

/-! ### Attention blocks -/

/-- The arguments of OP_QK_NORM_ROPE. -/
def ropeCall (b : AttnLeaves W) : Call W :=
  ⟨.qkNormRope, [b.qNorm, b.kNorm], [("q_off", .nat 0), ("q_head_stride", .nat 512),
    ("q_heads", .nat (sp split attnQHeads)), ("k_heads", .nat (sp split attnKvHeads)),
    ("head_dim", .nat attnHeadDim), ("eps", .text "1e-06"), ("positions", .text "cell:positions"),
    ("rope", .text "ROPE_PARAMS")]⟩

/-- The arguments of OP_KV_APPEND. -/
def appendCall : Call W :=
  ⟨.kvAppend, [], [("row", .text "sym:$kv_row"),
    ("row_width", .nat (sp split attnKvHeads * attnHeadDim))]⟩

/-- The arguments of OP_FATTN_DECODE. -/
def decodeCall : Call W :=
  ⟨.fattnDecode, [], [("q_heads", .nat (sp split attnQHeads)),
    ("kv_heads", .nat (sp split attnKvHeads)),
    ("gqa", .nat (sp split attnQHeads / sp split attnKvHeads)), ("head_dim", .nat attnHeadDim),
    ("scale", .text "0.0625"), ("prec", .text "f32"),
    ("partial_layout", .text "[split][q_head][256 vkq | max | sumexp]")]⟩

/-- The arguments of OP_FATTN_REDUCE. -/
def fattnReduceCall : Call W :=
  ⟨.fattnReduce, [], [("n_splits", .nat grid), ("q_heads", .nat (sp split attnQHeads)),
    ("head_dim", .nat attnHeadDim)]⟩

/-- The arguments of OP_ATTN_GATE. -/
def attnGateCall : Call W :=
  ⟨.attnGate, [], [("gate_off", .nat 256), ("gate_head_stride", .nat 512),
    ("heads", .nat (sp split attnQHeads)), ("head_dim", .nat attnHeadDim)]⟩

/-- The windows of an attention block between its first norm and its second. -/
def emitAttnMixer (bi : ℕ) (b : AttnLeaves W) (site : ℕ) : List (List (Ins W)) :=
  [[emitQuant .xn nEmbd],
    [emitMmvq split b.q (rowCall split .mmvqQ4_0 b.q nEmbd) .mixerOut,
      emitMmvq split b.k (rowCall split .mmvqQ4_0 b.k nEmbd) .kStage,
      emitMmvq split b.v (rowCall split .mmvqQ4_0 b.v nEmbd) .vStage],
    [{ call := ropeCall split b
       ins := [buf .mixerOut, buf .kStage], outs := [buf .fattnQ, buf .kStage], est := 4096
       reads := {buf .mixerOut, buf .kStage}, writes := {buf .fattnQ, buf .kStage} }],
    -- the append replaces one row of each cache
    [{ call := appendCall split
       ins := [buf .kStage, buf .vStage, cache (.k bi), cache (.v bi)]
       outs := [cache (.k bi), cache (.v bi)], est := 4096
       reads := {buf .kStage, buf .vStage}, writes := {cache (.k bi), cache (.v bi)} }],
    [{ call := decodeCall split
       ins := [buf .fattnQ, cache (.k bi), cache (.v bi), cell .maskF16, cell .nKv]
       outs := [buf .fattnPartial], est := 64 * 2 ^ 20
       reads := {buf .fattnQ, cache (.k bi), cache (.v bi), cell .maskF16, cell .nKv}
       writes := {buf .fattnPartial} }],
    [{ call := fattnReduceCall split
       ins := [buf .fattnPartial], outs := [buf .attnOut], est := 4096
       reads := {buf .fattnPartial}, writes := {buf .attnOut} }],
    [{ call := attnGateCall split
       ins := [buf .attnOut, buf .mixerOut], outs := [buf .attnOut], est := 4096
       reads := {buf .attnOut, buf .mixerOut}, writes := {buf .attnOut} }],
    [emitQuant .attnOut (sp split 6144)],
    [emitMmvq split b.o (colCall split .mmvqQ4_0 b.o 6144) .projOut]] ++
  emitColReduce split site

/-! ### The main build -/

/-- The `add_src` of the first norm of a block: the output of the FFN before, which nobody has added
to the residual yet. The first block has none. -/
def pendingAdd (pending : Bool) : Option Buf := if pending then some .projOut else none

/-- The number of exchange sites of an `emit_col_reduce`. -/
def sites : ℕ := if split then 1 else 0

/-- `emit_attn_block` -/
def emitAttnBlock (bi site : ℕ) (pending : Bool) (b : AttnLeaves W) : List (List (Ins W)) :=
  [[emitRmsnorm b.attnNorm .residual .xn (pendingAdd pending) []]] ++
    emitAttnMixer split bi b site ++
    [[emitRmsnorm b.postNorm .residual .xn (some .projOut) []]] ++
    emitFfn split b.ffn (site + sites split)

/-- `emit_dn_block` -/
def emitDnBlock (bi site : ℕ) (pending : Bool) (b : DnLeaves W) : List (List (Ins W)) :=
  [[emitRmsnorm b.attnNorm .residual .xn (pendingAdd pending) []]] ++
    emitDnMixer split bi b site ++
    [[emitRmsnorm b.postNorm .residual .xn (some .projOut) []]] ++
    emitFfn split b.ffn (site + sites split)

/-- The windows of a block. -/
def emitBlock (bi site : ℕ) (pending : Bool) : Block W → List (List (Ins W))
  | .attn b => emitAttnBlock split bi site pending b
  | .dn b => emitDnBlock split bi site pending b

/-- The trunk from block `bi` on; from the second block on there is something pending. -/
def emitTrunk (bi site : ℕ) (pending : Bool) : List (Block W) → List (List (Ins W))
  | [] => []
  | b :: bs => emitBlock split bi site pending b ++
      emitTrunk (bi + 1) (site + 2 * sites split) true bs

/-- The prologue. -/
def emitPrologue (e : EndLeaves W) : List (List (Ins W)) :=
  [[{ call := ⟨.embedLookup, [e.tokEmbd], [("n_embd", .nat nEmbd)]⟩
      ins := [cell .token], outs := [buf .residual], est := 4096
      reads := {cell .token}, writes := {buf .residual} }]]

/-- The final norm. -/
def emitFinalNorm (e : EndLeaves W) : Ins W :=
  emitRmsnorm e.outputNorm .residual .xn (some .projOut) [("row_select", .text "sym:$out_row")]

/-- The arguments of OP_HEAD_GEMV_F16. -/
def headCall (e : EndLeaves W) : Call W :=
  ⟨.headGemvF16, [e.output.weight], [("row_lo", .nat 0), ("row_hi", .nat (sp split nVocab)),
    ("split_axis", .text "row")]⟩

/-- The arguments of OP_LOGITS_EMIT. -/
def logitsCall : Call W := ⟨.logitsEmit, [], [("elems", .nat (sp split nVocab))]⟩

/-- The epilogue. -/
def emitEpilogue (e : EndLeaves W) : List (List (Ins W)) :=
  [[emitFinalNorm e],
    [{ call := headCall split e
       ins := [buf .xn], outs := [buf .logits], est := e.output.bytes / ngpu split
       reads := {buf .xn}, writes := {buf .logits} }],
    [{ call := logitsCall split
       ins := [buf .logits], outs := [cell .resultOutput, cell .doneFlag], est := 4096
       reads := {buf .logits}, writes := {cell .resultOutput, cell .doneFlag} }]]

/-- `WINDOWS` after the main build: the prologue, the trunk, and an epilogue that adds what the last
block has left pending. -/
def emit (e : EndLeaves W) (blocks : List (Block W)) : List (List (Ins W)) :=
  emitPrologue e ++ emitTrunk split 0 0 false blocks ++ emitEpilogue split e

end Emit

end Megakernel.Schedule
