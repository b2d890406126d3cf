import Megakernel.Binary64
import Megakernel.CStruct
import Megakernel.Isa
import Megakernel.JsonParser
import Megakernel.Loops
import Megakernel.Programs

/-!
# The packer

`pack_program` of `k0/harness.cpp`: a program.json becomes an array of instructions. Every
kind has a function that resolves the arguments and emits instructions with the kind,
the blocks and the flags of its source. A missing or malformed argument is an exception,
which ends the packing; what has been emitted stays.

The numbers of a program.json are doubles. `as_i` casts them to `int64_t`, which the language
defines for what that type can hold and for nothing else, so that a number comes here with
the result of its cast (`Num`), of which only that much is known.

The packers keep the order of the source, in what they look up as well as in what they emit, because
the first missing argument is the one that is reported, and because an instruction may be emitted
before a later one fails.
-/

namespace Megakernel

/-! ## JSON values -/

namespace Jv

/-- `get`: the member of an object under a key. There is nothing if the object has no such member,
or if the value is no object. -/
def get {D : Type} : Jv D → String → Option (Jv D)
  | obj l, key => (l.find? fun e => e.1 = key).map Prod.snd
  | _, _ => none

/-- `at`: the same where the member has to be there; otherwise it throws with the key. -/
def atKey {D : Type} (v : Jv D) (key : String) : Except String (Jv D) :=
  match v.get key with
  | some x => .ok x
  | none => .error s!"json: missing key '{key}'"

/-- The member `str`. -/
def text {D : Type} : Jv D → String
  | str s => s
  | _ => ""

/-- The member `arr`. -/
def items {D : Type} : Jv D → List (Jv D)
  | arr l => l
  | _ => []

end Jv

namespace Packing

open CStruct Ieee.Value

/-! ## Numbers -/

/-- What comes before the point. -/
def truncate (q : ℚ) : ℤ := q.num.tdiv q.den

/-- The member `num`, with what the cast of `as_i` to `int64_t` makes of it. The cast cuts off what
follows the point. It is undefined for infinities and for what `int64_t` does not hold, so that
any 64 bits may be the result there. -/
structure Num : Type where
  value : Binary64.Double
  toI64 : BitVec 64
  toI64_eq : ∀ q, value = fin q → -2 ^ 63 ≤ truncate q → truncate q < 2 ^ 63 →
    toI64 = BitVec.ofInt 64 (truncate q)

/-- A finite number, where the cast returns the least `int64_t` for all that it cannot hold. -/
def Num.ofRat (q : ℚ) : Num where
  value := fin q
  toI64 := if -2 ^ 63 ≤ truncate q ∧ truncate q < 2 ^ 63 then BitVec.ofInt 64 (truncate q)
    else BitVec.intMin 64
  toI64_eq q' hq hlo hhi := by
    cases hq
    exact if_pos ⟨hlo, hhi⟩

/-- A cast in the range of `int64_t` yields the number before the point. -/
theorem Num.toInt_toI64 {x : Num} {q : ℚ} (hq : x.value = fin q) (hlo : -2 ^ 63 ≤ truncate q)
    (hhi : truncate q < 2 ^ 63) : x.toI64.toInt = truncate q := by
  rw [x.toI64_eq q hq hlo hhi, BitVec.toInt_ofInt_eq_self (by decide) hlo hhi]

/-- The bits of a number as a `float`: the nearest one, ties to even. -/
def floatBits : Binary64.Double → BitVec 32
  | fin q =>
    let e := if q = 0 then -126 else max (Int.log 2 |q|) (-126)
    let bits := (e + 126).toNat * 2 ^ 23 + Binary64.roundHalfEven (|q| / 2 ^ (e - 23))
    BitVec.ofNat 32 ((if q < 0 then 2 ^ 31 else 0) + min bits 0x7f800000)
  | posInf => 0x7f800000#32
  | negInf => 0xff800000#32
  | nan => 0x7fc00000#32

/-- `as_i` -/
def asI : Jv Num → Except String ℤ
  | .num x => .ok x.toI64.toInt
  | _ => .error "json: not a number"

/-- The member `num` as a `float`; it is 0 in a value that is no number. -/
def asFloat : Jv Num → BitVec 32
  | .num x => floatBits x.value
  | _ => 0#32

/-! ## Arguments -/

/-- `arg_str`: an argument that has to be there. If it is no text, its text is empty. -/
def argStr (a : Jv Num) (k : String) : Except String String := do
  return (← a.atKey k).text

/-- `arg_i`: an integer argument that has to be there. -/
def argI (a : Jv Num) (k : String) : Except String ℤ := do
  asI (← a.atKey k)

/-- `arg_i_def`: an integer argument with a default for where it is missing. -/
def argIDef (a : Jv Num) (k : String) (d : ℤ) : Except String ℤ :=
  match a.get k with
  | some v => asI v
  | none => .ok d

/-- `arg_has`: whether an argument is there, whatever its value is. -/
def argHas (a : Jv Num) (k : String) : Bool := (a.get k).isSome

/-! ## Texts -/

/-- Before and behind the first `c`, or nothing if there is no `c`. -/
def cutFirst (c : Char) (s : List Char) : Option (List Char × List Char) :=
  if c ∈ s then some (s.takeWhile (· ≠ c), (s.dropWhile (· ≠ c)).drop 1) else none

/-- Before and behind the last `c`, or nothing if there is no `c`. -/
def cutLast (c : Char) (s : List Char) : Option (List Char × List Char) :=
  (cutFirst c s.reverse).map fun p => (p.2.reverse, p.1.reverse)

/-- The number that decimal digits stand for. -/
def digitsValue (s : List Char) : ℕ := s.foldl (fun n c => 10 * n + (c.toNat - '0'.toNat)) 0

/-- `atoi`: blanks, a sign, and as many digits as there are. A text that does not begin so stands
for 0. -/
def atoi (s : List Char) : ℤ :=
  match s.dropWhile Char.isWhitespace with
  | '-' :: s => -digitsValue (s.takeWhile Char.isDigit)
  | '+' :: s => digitsValue (s.takeWhile Char.isDigit)
  | s => digitsValue (s.takeWhile Char.isDigit)

/-- What follows the first occurrence of `pat`. -/
def afterFirst (pat : List Char) : List Char → Option (List Char)
  | [] => if pat = [] then some [] else none
  | c :: s => if pat.isPrefixOf (c :: s) then some ((c :: s).drop pat.length) else afterFirst pat s

/-- The text contains `pat`. -/
def contains (s pat : String) : Bool := (afterFirst pat.toList s.toList).isSome

/-! ## Pointers -/

/-- A device address. -/
abbrev Ptr : Type := BitVec 64

/-- `DevBuf` -/
structure DevBuf : Type where
  ptr : Ptr
  bytes : ℕ

/-- The table of the `Resolver`. -/
abbrev Resolver : Type := String → Option DevBuf

/-- `resolve`: a name, or a name and an offset in bytes behind the last `+`. A name that is not in
the table throws. -/
def Resolver.resolve (R : Resolver) (spec : String) : Except String Ptr :=
  let parts : String × ℕ :=
    match cutLast '+' spec.toList with
    | some (name, digits) =>
      if name ≠ [] ∧ digits.all Char.isDigit then
        (String.ofList name, min (digitsValue digits) (2 ^ 64 - 1))
      else (spec, 0)
    | none => (spec, 0)
  let name := parts.1
  let off := parts.2
  match R name with
  | none => .error s!"resolver: unknown name '{name}'"
  | some buf =>
    if buf.bytes ≤ off ∧ 0 < buf.bytes then .error s!"resolver: offset past end of '{name}'"
    else .ok (buf.ptr + BitVec.ofNat 64 off)

/-- The name of a cache in the tables of the harness. -/
def cacheName (name : List Char) : List Char :=
  if "state_r_l".toList.isPrefixOf name then "conv_state_l".toList ++ name.drop 9
  else if "state_s_l".toList.isPrefixOf name then "ssm_state_l".toList ++ name.drop 9
  else name

/-- `dev_ptr`: the device address of a name in the tables. -/
def devPtr (R : Resolver) (spec : String) : Except String Ptr :=
  match cutFirst ':' spec.toList with
  | none => R.resolve spec
  | some (ns, name) =>
    if ns = "sym".toList then .error s!"dev_ptr: '{spec}' is a runtime symbol, not a pointer"
    else R.resolve (String.ofList (if ns = "cache".toList then cacheName name else name))

/-- `dev_f32`, with an offset in floats. -/
def devF32 (R : Resolver) (a : Jv Num) (k : String) (off : ℤ) : Except String Ptr := do
  return (← devPtr R (← argStr a k)) + BitVec.ofInt 64 (4 * off)

/-! ## Instructions -/

/-- The payload of an instruction. -/
abbrev Payload : Type := { l : List Byte // l.length = 112 }

/-- `Instr`: the header fields and the bytes of the payload. The fields have the widths of the
source, so that what is cast to them is reduced. -/
structure PackedInstr : Type where
  kind : BitVec 16
  blockLo : BitVec 16
  blockHi : BitVec 16
  flags : BitVec 16
  dbgNode : BitVec 32
  payload : Payload

/-- The kind is that of the ISA. -/
def PackedInstr.Is (ins : PackedInstr) (k : MacroKind) : Prop := ins.kind = BitVec.ofNat 16 k.code

instance (ins : PackedInstr) (k : MacroKind) : Decidable (ins.Is k) :=
  inferInstanceAs (Decidable (_ = _))

/-- The members of an argument structure, in a payload that is otherwise zero. -/
def payloadOf (ms : List (List Byte)) : Payload :=
  ⟨(encode ms).takeD 112 0, List.takeD_length 112 (encode ms) 0⟩

/-- `with_payload`: the arguments are copied to the front of a payload of zeros. -/
def withPayload (proto : PackedInstr) (ms : List (List Byte)) : PackedInstr :=
  { proto with payload := payloadOf ms }

/-- A pointer member. -/
def ptr (p : Ptr) : List Byte := leBytes 8 p

/-- An `int64_t` member. -/
def i64 (z : ℤ) : List Byte := leBytes 8 (BitVec.ofInt 64 z)

/-- A `uint32_t` or `int32_t` member. -/
def i32 (z : ℤ) : List Byte := leBytes 4 (BitVec.ofInt 32 z)

/-- A `float` member. -/
def f32 (v : Jv Num) : List Byte := leBytes 4 (asFloat v)

/-- What has been packed so far: `instrs`, `fattn_idx` and `xchg_idx`. The two lists hold positions
in the first. -/
structure PackOut : Type where
  instrs : List PackedInstr := []
  fattnIdx : List ℕ := []
  xchgIdx : List ℕ := []

/-- `PackCtx`: the tables, the header that every emitted instruction gets, and the number of the
GPU. -/
structure PackCtx : Type where
  R : Resolver
  proto : PackedInstr
  mbox : Option (String → Option Ptr)
  gpuIndex : ℤ

/-- A packer, which may throw. What it has emitted before stays emitted. -/
abbrev Packer : Type := Prog String PackOut Unit

/-- What may throw and does not pack anything. -/
def lift {α : Type} (x : Except String α) : Prog String PackOut α := fun o => (x, o)

/-- `out.push_back`: the instruction comes behind those that have been packed before. -/
def pushBack (ins : PackedInstr) : Packer := Prog.act fun o =>
  ((), { o with instrs := o.instrs ++ [ins] })

/-- `emit`: an instruction with the header of its source and these members as its payload. -/
def emit (c : PackCtx) (ms : List (List Byte)) : Packer := pushBack (withPayload c.proto ms)

/-- `c.out_idx_fattn.push_back(out.size())`: the position of the instruction that is emitted next.
-/
def noteFattn : Packer := Prog.act fun o =>
  ((), { o with fattnIdx := o.fattnIdx ++ [o.instrs.length] })

/-- `c.out_idx_xchg->push_back(out.size())`: the position of the instruction that is emitted next.
-/
def noteXchg : Packer := Prog.act fun o =>
  ((), { o with xchgIdx := o.xchgIdx ++ [o.instrs.length] })

/-- The packer of a kind that becomes one instruction, from the members of its arguments. Most
packers are of this form and differ in their members. -/
def packOne (f : Jv Num → PackCtx → Except String (List (List Byte))) (a : Jv Num) (c : PackCtx) :
    Packer :=
  do
    let ms ← lift (f a c)
    emit c ms

/-! ## The packers of the kinds -/

/-- N_EMBD -/
def nEmbd : ℤ := 5120

/-- N_LAYER -/
def nLayer : ℤ := 64

/-- CONV_STATE_N -/
def convStateN : ℤ := 30720

/-- `lout_index_of`: the block of which a norm with an add completes the output. It is the one
before the block that the norm's weight is of, and there is none if it is not the first norm of a
block. -/
def loutIndexOf (a : Jv Num) : Except String ℤ :=
  if argHas a "add_src" then do
    let w ← argStr a "weight"
    match afterFirst "blk.".toList w.toList with
    | none => return -1
    | some rest => return if contains w ".attn_norm.weight" then atoi rest - 1 else -1
  else .ok (-1)

/-- `pack_NOP`: there are no arguments. -/
def packNop (_ : Jv Num) (c : PackCtx) : Packer := pushBack c.proto

/-- `pack_BOUNDARY`: there are no arguments either. -/
def packBoundary (_ : Jv Num) (c : PackCtx) : Packer := pushBack c.proto

/-- `pack_EMBED_LOOKUP`: the width of a row is passed twice, as the columns and as the stride. -/
def packEmbedLookup : Jv Num → PackCtx → Packer := packOne fun a c => do
  let emb ← devPtr c.R (← argStr a "weight")
  let token ← devPtr c.R (← argStr a "token")
  let y ← devF32 c.R a "dst" 0
  let ncols ← argI a "n_embd"
  return [ptr emb, ptr token, ptr y, i32 ncols, i32 ncols]

/-- `pack_RMSNORM`: the add and the sum are optional, and absent ones are null pointers. Which debug
buffer a norm writes is read off the name of its weight. -/
def packRmsnorm : Jv Num → PackCtx → Packer := packOne fun a c => do
  let x ← devF32 c.R a "src" 0
  let w ← devF32 c.R a "weight" 0
  let add ← if argHas a "add_src" then devF32 c.R a "add_src" 0 else .ok 0
  let y ← devF32 c.R a "dst" 0
  let ncols ← argI a "width"
  let sum ← if argHas a "write_sum" then devF32 c.R a "write_sum" 0 else .ok 0
  let il ← loutIndexOf a
  let lout ← if 0 ≤ il then c.R.resolve "dbg_lout" else .ok 0
  let dbg := if 0 ≤ il then lout + BitVec.ofInt 64 (il * nEmbd * 4) else 0
  let weight ← argStr a "weight"
  let mid ← c.R.resolve "dbg_mid"
  let block := afterFirst "blk.".toList weight.toList
  let dbg :=
    if block.isSome && argHas a "add_src" && contains weight ".post_attention_norm.weight" then
      mid + BitVec.ofInt 64 (atoi (block.getD []) * nEmbd * 4)
    else if weight = "gguf:blk.0.attn_norm.weight" then mid + BitVec.ofInt 64 (nLayer * nEmbd * 4)
    else dbg
  return [ptr x, ptr w, ptr add, ptr y, i32 ncols, i32 1, ptr sum, ptr dbg]

/-- `pack_QUANT_Q8_1`: the output is padded to whole multiples of 512 elements. -/
def packQuantQ8_1 : Jv Num → PackCtx → Packer := packOne fun a c => do
  let x ← devF32 c.R a "src" 0
  let y ← devPtr c.R (← argStr a "dst")
  let elems ← argI a "elems"
  let ne00 := (BitVec.ofInt 32 elems).toNat
  return [ptr x, ptr y, i32 ne00, i32 (Loops.padUp ne00 512)]

/-- `pack_gemv_f16_common` -/
def packGemvF16Common (ncolsDefault : ℤ) : Jv Num → PackCtx → Packer := packOne fun a c => do
  let w ← devPtr c.R (← argStr a "weight")
  let x ← devF32 c.R a "src" 0
  let dst ← devF32 c.R a "dst" 0
  let ncols ← argIDef a "src_elems" ncolsDefault
  let rowLo ← argI a "row_lo"
  let rowHi ← argI a "row_hi"
  return [ptr w, ptr x, ptr dst, i32 ncols, i32 rowLo, i32 rowHi]

/-- `pack_GEMV_F16` -/
def packGemvF16 : Jv Num → PackCtx → Packer := packGemvF16Common nEmbd

/-- `pack_HEAD_GEMV_F16`: the same as for other f16 weights. -/
def packHeadGemvF16 : Jv Num → PackCtx → Packer := packGemvF16Common nEmbd

/-- `pack_MMVQ_Q4_0` and `pack_MMVQ_AR16`, whose argument structures have the same members. -/
def packMmvqCommon : Jv Num → PackCtx → Packer := packOne fun a c => do
  let w ← devPtr c.R (← argStr a "weight")
  let y ← devPtr c.R (← argStr a "src")
  let dst ← devF32 c.R a "dst" (← argIDef a "dst_off" 0)
  let ncols ← argI a "src_elems"
  let rowLo ← argI a "row_lo"
  let rowHi ← argI a "row_hi"
  return [ptr w, ptr y, ptr dst, i32 ncols, i32 rowLo, i32 rowHi]

/-- `pack_MMVQ_Q4_0`: a GEMV with a Q4_0 weight. -/
def packMmvqQ4_0 : Jv Num → PackCtx → Packer := packMmvqCommon

/-- `pack_MMVQ_AR16`: a GEMV with an AR16 weight. -/
def packMmvqAr16 : Jv Num → PackCtx → Packer := packMmvqCommon

/-- `pack_MMVQ_Q4_0_FUSED`: two weights of the same shape, one output. -/
def packMmvqQ4_0Fused : Jv Num → PackCtx → Packer := packOne fun a c => do
  let wUp ← devPtr c.R (← argStr a "weight_up")
  let wGate ← devPtr c.R (← argStr a "weight_gate")
  let y ← devPtr c.R (← argStr a "src")
  let dst ← devF32 c.R a "dst" 0
  let ncols ← argI a "src_elems"
  let rowLo ← argI a "row_lo"
  let rowHi ← argI a "row_hi"
  return [ptr wUp, ptr wGate, ptr y, ptr dst, i32 ncols, i32 rowLo, i32 rowHi]

/-- `pack_CONV_SHIFT_CONCAT`: the history, the new column, the window, and where the history is
written back. -/
def packConvShiftConcat : Jv Num → PackCtx → Packer := packOne fun a c => do
  let hist ← devF32 c.R a "conv_state" 0
  let xnew ← devF32 c.R a "token_col" 0
  let win ← devF32 c.R a "window_dst" 0
  let state ← devF32 c.R a "state_writeback" 0
  let row ← devPtr c.R "rs_row"
  let channels ← argI a "channels"
  return [ptr hist, ptr xnew, ptr win, ptr state, ptr row, i64 convStateN, i32 channels]

/-- `pack_SSM_CONV_SILU`: the window, the kernels of the channels and the output. -/
def packSsmConvSilu : Jv Num → PackCtx → Packer := packOne fun a c => do
  let win ← devF32 c.R a "window" 0
  let weight ← devF32 c.R a "kernel" 0
  let dst ← devF32 c.R a "dst" 0
  let channels ← argI a "channels"
  return [ptr win, ptr weight, ptr dst, i32 channels]

/-- `pack_QK_L2NORM`: one instruction for q and k, in place. That is why k has to follow q, and the
packer throws where it does not. -/
def packQkL2norm : Jv Num → PackCtx → Packer := packOne fun a c => do
  let qOff ← argI a "q_off"
  let kOff ← argI a "k_off"
  let heads ← argI a "heads"
  let hd ← argI a "head_dim"
  if kOff ≠ qOff + heads * hd then
    .error "QK_L2NORM: q|k not contiguous"
  else do
    let src ← devF32 c.R a "buf" qOff
    let dst ← devF32 c.R a "buf" qOff
    let eps ← a.atKey "eps"
    return [ptr src, ptr dst, i32 (2 * heads), f32 eps]

/-- `pack_GDN_GATES`: the raw gates, the two weights of the block, and where the gates go. -/
def packGdnGates : Jv Num → PackCtx → Packer := packOne fun a c => do
  let alphaRaw ← devF32 c.R a "alpha" 0
  let betaRaw ← devF32 c.R a "beta" 0
  let dtBias ← devF32 c.R a "dt_bias" 0
  let gateA ← devF32 c.R a "a" 0
  let g ← devF32 c.R a "g_dst" 0
  let beta ← devF32 c.R a "beta_dst" 0
  let nHeads ← argI a "heads"
  return [ptr alphaRaw, ptr betaRaw, ptr dtBias, ptr gateA, ptr g, ptr beta, i32 nHeads]

/-- `pack_GDN_STEP`: q, k and v are parts of one buffer, and the state is updated in place. -/
def packGdnStep : Jv Num → PackCtx → Packer := packOne fun a c => do
  let q ← devF32 c.R a "qkv" (← argI a "q_off")
  let k ← devF32 c.R a "qkv" (← argI a "k_off")
  let v ← devF32 c.R a "qkv" (← argI a "v_off")
  let g ← devF32 c.R a "g" 0
  let beta ← devF32 c.R a "beta" 0
  let stateIn ← devF32 c.R a "state" 0
  let stateOut ← devF32 c.R a "state" 0
  let attnOut ← devF32 c.R a "dst" 0
  let nHeads ← argI a "v_heads"
  let nKHeads ← argI a "k_heads"
  let scale ← a.atKey "scale"
  return [ptr q, ptr k, ptr v, ptr g, ptr beta, ptr stateIn, ptr stateOut, ptr attnOut, i32 nHeads,
    i32 nKHeads, f32 scale]

/-- `pack_GATED_RMSNORM`: the heads are normed one by one, so that only their number is passed. -/
def packGatedRmsnorm : Jv Num → PackCtx → Packer := packOne fun a c => do
  let x ← devF32 c.R a "src" 0
  let w ← devF32 c.R a "weight" 0
  let z ← devF32 c.R a "gate" 0
  let dst ← devF32 c.R a "dst" 0
  let nHeads ← argI a "heads"
  let eps ← a.atKey "eps"
  return [ptr x, ptr w, ptr z, ptr dst, i32 nHeads, f32 eps]

/-- `pack_STATE_LOAD`: from the row of the cache to the working state. -/
def packStateLoad : Jv Num → PackCtx → Packer := packOne fun a c => do
  let src ← devF32 c.R a "src" 0
  let rows ← devPtr c.R "rs_row"
  let dst ← devF32 c.R a "dst" 0
  let elems ← argI a "elems"
  return [ptr src, ptr rows, ptr dst, i64 (BitVec.ofInt 32 elems).toInt, i32 elems, i32 1]

/-- `pack_STATE_STORE`: from the working state back to the row. -/
def packStateStore : Jv Num → PackCtx → Packer := packOne fun a c => do
  let src ← devF32 c.R a "src" 0
  let dst ← devF32 c.R a "dst" 0
  let rows ← devPtr c.R "rs_row"
  let elems ← argI a "elems"
  return [ptr src, ptr dst, ptr rows, i64 (BitVec.ofInt 32 elems).toInt, i32 elems, i32 1]

/-- `pack_QK_NORM_ROPE`: q and k are one instruction each. If k's arguments are missing, that of q
has been emitted. -/
def packQkNormRope (a : Jv Num) (c : PackCtx) : Packer := do
  let pos ← lift (do devPtr c.R (← argStr a "positions"))
  let q ← lift do
    let src ← devF32 c.R a "q_src" (← argIDef a "q_off" 0)
    let normW ← devF32 c.R a "q_norm_weight" 0
    let dst ← devF32 c.R a "q_dst" 0
    let nHeads ← argI a "q_heads"
    let srcStride ← argI a "q_head_stride"
    return [ptr src, ptr normW, ptr pos, ptr dst, i32 nHeads, i32 srcStride]
  emit c q
  let k ← lift do
    let src ← devF32 c.R a "k_src" 0
    let normW ← devF32 c.R a "k_norm_weight" 0
    let dst ← devF32 c.R a "k_dst" 0
    let nHeads ← argI a "k_heads"
    let srcStride ← argI a "head_dim"
    return [ptr src, ptr normW, ptr pos, ptr dst, i32 nHeads, i32 srcStride]
  emit c k

/-- `pack_KV_APPEND`: K and V are one instruction each. -/
def packKvAppend (a : Jv Num) (c : PackCtx) : Packer := do
  let row ← lift (devPtr c.R "kv_row")
  let rw ← lift (argI a "row_width")
  let kk ← lift do
    let src ← devF32 c.R a "k_src" 0
    let cache ← devPtr c.R (← argStr a "cache_k")
    return [ptr src, ptr row, ptr cache, i32 rw]
  emit c kk
  let vv ← lift do
    let src ← devF32 c.R a "v_src" 0
    let cache ← devPtr c.R (← argStr a "cache_v")
    return [ptr src, ptr row, ptr cache, i32 rw]
  emit c vv

/-- `pack_FATTN_DECODE`: its position is recorded, and the width of a cache row is what the local KV
heads take. -/
def packFattnDecode (a : Jv Num) (c : PackCtx) : Packer := do
  let ms ← lift do
    let q ← devF32 c.R a "q" 0
    let kCache ← devPtr c.R (← argStr a "cache_k")
    let vCache ← devPtr c.R (← argStr a "cache_v")
    let mask ← devPtr c.R (← argStr a "mask")
    let partials ← devF32 c.R a "partials" 0
    let nKvCell ← devPtr c.R (← argStr a "n_kv")
    let nQ ← argI a "q_heads"
    let nKvHeads ← argI a "kv_heads"
    let rowWidth := (← argI a "kv_heads") * (← argI a "head_dim")
    return [ptr q, ptr kCache, ptr vCache, ptr mask, ptr partials, ptr nKvCell,
      i32 nQ, i32 nKvHeads,
      i32 rowWidth]
  noteFattn
  emit c ms

/-- `pack_FATTN_REDUCE`: the number of chunks is an argument of its own, and has to be that of the
decode. -/
def packFattnReduce : Jv Num → PackCtx → Packer := packOne fun a c => do
  let partials ← devF32 c.R a "partials" 0
  let dst ← devF32 c.R a "dst" 0
  let error ← devPtr c.R "fattn_error"
  let nQ ← argI a "q_heads"
  let nChunks ← argI a "n_splits"
  return [ptr partials, ptr dst, ptr error, i32 nQ, i32 nChunks]

/-- `pack_ATTN_GATE`: the gates stand in the buffer of q, at an offset and with its stride. -/
def packAttnGate : Jv Num → PackCtx → Packer := packOne fun a c => do
  let attn ← devF32 c.R a "attn" 0
  let gate ← devF32 c.R a "gate_src" (← argIDef a "gate_off" 0)
  let dst ← devF32 c.R a "dst" 0
  let nQ ← argI a "heads"
  let gateStride ← argI a "gate_head_stride"
  return [ptr attn, ptr gate, ptr dst, i32 nQ, i32 gateStride]

/-- `pack_LOGITS_EMIT`: the two last members are zero, so that no flag is ever set. -/
def packLogitsEmit : Jv Num → PackCtx → Packer := packOne fun a c => do
  let src ← devF32 c.R a "src" 0
  let dst ← devPtr c.R (← argStr a "dst")
  let n ← argI a "elems"
  return [ptr src, ptr dst, i32 n, i32 0, ptr 0]

/-- `mbox_ptr`: an address in a mailbox, which only the harness of the pair has. -/
def mboxPtr (c : PackCtx) (a : Jv Num) (k : String) : Except String Ptr :=
  match c.mbox with
  | none => .error "XCHG op packed without a mailbox table (single-GPU?)"
  | some mbox => do
    let s ← argStr a k
    if "mbox:".toList.isPrefixOf s.toList then
      match mbox (String.ofList (s.toList.drop 5)) with
      | some p => return p
      | none => .error s!"XCHG: unknown mailbox {s}"
    else .error s!"XCHG: bad mailbox spec {s}"

/-- `pack_XCHG_PUSH`: the payload of the peer is written through its mailbox. -/
def packXchgPush : Jv Num → PackCtx → Packer := packOne fun a c => do
  let localPartial ← devF32 c.R a "local_partial" 0
  let peerPayload ← mboxPtr c a "peer_payload"
  let nElems ← argI a "n_elems"
  return [ptr localPartial, ptr peerPayload, i32 nElems]

/-- The members of `XchgReduceArgs`, in the order of the structure: where `seqno` is in the bytes
follows from it. -/
def xchgReduceArgs (localPartial myPayload out peerSeqno mySeqno : Ptr) (nElems : ℤ)
    (seqno : BitVec 32) (gpuIndex : ℤ) : List (List Byte) :=
  [ptr localPartial, ptr myPayload, ptr out, ptr peerSeqno, ptr mySeqno, i32 nElems,
    leBytes 4 seqno,
    i32 gpuIndex]

def packXchgReduce (a : Jv Num) (c : PackCtx) : Packer := do
  let ms ← lift do
    let localPartial ← devF32 c.R a "local_partial" 0
    let myPayload ← mboxPtr c a "my_payload"
    let out ← devF32 c.R a "out" 0
    let peerSeqno ← mboxPtr c a "peer_seqno"
    let mySeqno ← mboxPtr c a "my_seqno"
    let nElems ← argI a "n_elems"
    return xchgReduceArgs localPartial myPayload out peerSeqno mySeqno nElems 0 c.gpuIndex
  noteXchg
  emit c ms

def packUnsupported (_ : Jv Num) (c : PackCtx) : Packer :=
  Prog.fail s!"packer: kind {c.proto.kind.toNat} not supported at the single-GPU binding"

/-! ## The program -/

/-- `KindEntry`: the name of a kind in program.json, the kind, and its packer. -/
structure KindEntry : Type where
  kind : MacroKind
  name : String
  pack : Jv Num → PackCtx → Packer

/-- `KIND_TABLE`: one entry for each kind of the ISA. -/
def kindTable : List KindEntry :=
  [⟨.nop, "NOP", packNop⟩, ⟨.boundary, "BOUNDARY", packBoundary⟩,
    ⟨.embedLookup, "EMBED_LOOKUP", packEmbedLookup⟩, ⟨.rmsnorm, "RMSNORM", packRmsnorm⟩,
    ⟨.quantQ8_1, "QUANT_Q8_1", packQuantQ8_1⟩, ⟨.headGemvF16, "HEAD_GEMV_F16", packHeadGemvF16⟩,
    ⟨.logitsEmit, "LOGITS_EMIT", packLogitsEmit⟩, ⟨.mmvqQ4_0, "MMVQ_Q4_0", packMmvqQ4_0⟩,
    ⟨.mmvqQ4_0Fused, "MMVQ_Q4_0_FUSED", packMmvqQ4_0Fused⟩,
    ⟨.mmvqAr16, "MMVQ_AR16", packMmvqAr16⟩, ⟨.gemvF16, "GEMV_F16", packGemvF16⟩,
    ⟨.convShiftConcat, "CONV_SHIFT_CONCAT", packConvShiftConcat⟩,
    ⟨.ssmConvSilu, "SSM_CONV_SILU", packSsmConvSilu⟩, ⟨.qkL2norm, "QK_L2NORM", packQkL2norm⟩,
    ⟨.gdnGates, "GDN_GATES", packGdnGates⟩, ⟨.gdnStep, "GDN_STEP", packGdnStep⟩,
    ⟨.gatedRmsnorm, "GATED_RMSNORM", packGatedRmsnorm⟩,
    ⟨.qkNormRope, "QK_NORM_ROPE", packQkNormRope⟩, ⟨.kvAppend, "KV_APPEND", packKvAppend⟩,
    ⟨.fattnDecode, "FATTN_DECODE", packFattnDecode⟩,
    ⟨.fattnReduce, "FATTN_REDUCE", packFattnReduce⟩, ⟨.attnGate, "ATTN_GATE", packAttnGate⟩,
    ⟨.residualAdd, "RESIDUAL_ADD", packUnsupported⟩, ⟨.stateLoad, "STATE_LOAD", packStateLoad⟩,
    ⟨.stateStore, "STATE_STORE", packStateStore⟩, ⟨.xchgPush, "XCHG_PUSH", packXchgPush⟩,
    ⟨.xchgReduce, "XCHG_REDUCE", packXchgReduce⟩]

/-- `kind_by_name`: the entry of `KIND_TABLE` with a name. -/
def kindByName (raw : String) : Option KindEntry :=
  let name := if "OP_".toList.isPrefixOf raw.toList then String.ofList (raw.toList.drop 3) else raw
  kindTable.find? fun e => name = e.name

/-- `PackedProgram`: what `pack_program` returns, with the two lists of positions in it. -/
structure PackedProgram : Type extends PackOut where
  epochStride : BitVec 32 := 0
  complete : Bool := false
  firstFailure : String := ""
  packedBeforeFailure : ℕ := 0

/-- The header fields of an instruction. Their casts to the widths of the fields are without a
check. -/
def protoOf (kind : MacroKind) (ij : Jv Num) : Except String PackedInstr := do
  let blockLo ← argI ij "block_lo"
  let blockHi ← argI ij "block_hi"
  let flags ← argIDef ij "flags" 0
  let dbgNode ← match ij.get "dbg_node" with
    | some (.num x) => asI (.num x)
    | _ => .ok 0
  return {
    kind := BitVec.ofNat 16 kind.code
    blockLo := BitVec.ofInt 16 blockLo
    blockHi := BitVec.ofInt 16 blockHi
    flags := BitVec.ofInt 16 flags
    dbgNode := BitVec.ofInt 32 dbgNode
    payload := payloadOf [] }

section Program

variable (R : Resolver) (mbox : Option (String → Option Ptr)) (gpuIndex : ℤ)

/-- The loop over the instructions, from number `i` on. An unknown kind and an exception of a packer
end it, with the number of the instruction in the text of the failure. -/
def packLoop : ℕ → List (Jv Num) → PackedProgram → Except String PackedProgram
  | _, [], out => .ok { out with complete := true, packedBeforeFailure := out.instrs.length }
  | i, ij :: rest, out => do
    let kname := (← ij.atKey "kind").text
    match kindByName kname with
    | none =>
      return { out with
        firstFailure := s!"instr {i}: unknown kind '{kname}'"
        packedBeforeFailure := i }
    | some ke =>
      let proto ← protoOf ke.kind ij
      match ke.pack ((ij.get "args").getD .nul) ⟨R, proto, mbox, gpuIndex⟩ out.toPackOut with
      | (.ok _, o) => packLoop (i + 1) rest { out with toPackOut := o }
      | (.error e, o) =>
        return { out with
          toPackOut := o
          firstFailure := s!"instr {i} ({kname}): {e}"
          packedBeforeFailure := i }

/-- `pack_program`: the loop over the `instructions` of a program.json. -/
def packProgram (pj : Jv Num) : Except String PackedProgram := do
  let epochStride ← match ((pj.get "meta").bind (Jv.get · "per_pass")).bind
    (Jv.get · "epoch_stride") with
    | some es => asI es
    | none => .ok 0
  let instrs ← match pj.get "instructions" with
    | some v => .ok v
    | none => pj.atKey "instrs"
  packLoop R mbox gpuIndex 0 instrs.items { epochStride := BitVec.ofInt 32 epochStride }

end Program

end Packing

end Megakernel
