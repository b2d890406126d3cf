import Megakernel.KvWindow
import Megakernel.Warps

/-!
# Split-KV decode attention

OP_KV_APPEND and OP_FATTN_DECODE of `k0/ops/attn.cuh` over a whole run: one pass
per token, in every pass each attention layer appends the row of the token to its
caches and then attends over the padded window.

Values are finite single-precision numbers under operations about which nothing
is assumed (`F32`), so every rounding is covered; `-inf` is adjoined where the op
uses it, in scores. The warp is modelled lane by lane, with the reductions as the
butterflies they are.

`decode_causal` says that the padding never counts: the rows beyond the position
weigh exactly zero, and the records do not depend on them.

The op is followed per head and chunk, as a fold over tiles. That the records of all heads and
chunks come out in one buffer, whatever the order of the warps, is shown where the merge is
(`FattnSoftmax`).
-/

namespace Megakernel

open Loops Warps

/-! ## Arithmetic -/

/-- Finite single-precision values with the operations of the device. About these nothing is
assumed, so that every rounding is an instance. -/
class F32 (F : Type*) extends LinearOrder F, Zero F, Add F, Sub F, Mul F, Div F where
  expf : F → F
  /-- `-FLT_MAX / 2` -/
  lowest : F
  /-- SOFTMAX_FTZ_THRESHOLD -/
  ftz : F
  /-- MK_ATTN_SCALE -/
  scale : F

/-- Half-precision values with the conversions. The caches and the mask hold these. -/
class F16 (H : Type*) (F : outParam Type*) extends Zero H where
  /-- `__half2float` -/
  toF32 : H → F
  /-- `__float2half_rn` -/
  ofF32 : F → H

open F32 F16

variable {F H : Type*}

section Lanes

variable [F32 F]

/-- `fmaxf`, of which the first argument is finite. -/
def fmaxf (m : F) (x : WithBot F) : F := WithBot.unbotD m (max (m : WithBot F) x)

/-- `expf(x - m)`, where `expf(-inf) = 0`. -/
def expSub (x : WithBot F) (m : F) : F := WithBot.unbotD 0 (x.map fun y => expf (y - m))

@[simp] theorem expSub_bot (m : F) : expSub ⊥ m = 0 := rfl

/-- `warp_sum_f32` -/
def warpSum (v : ℕ → F) : ℕ → F := butterfly (· + ·) v

/-- `warp_max_f32` -/
def warpMax (v : ℕ → WithBot F) : ℕ → WithBot F := butterfly max v

end Lanes

/-! ## OP_KV_APPEND -/

section KvAppend

variable [F16 H F]

/-- The new contents of the row: the threads share the row in groups of four elements, each
converted to half precision on its own. -/
def appendRow (threads rowWidth : ℕ) (src : ℕ → F) (row : ℕ → H) : ℕ → H :=
  (List.range threads).foldl
    (fun row t0 => (forRange t0 (rowWidth / 4) threads).foldl
      (fun row i4 i => if i / 4 = i4 then ofF32 (src i) else row i) row) row

theorem appendRow_apply {threads rowWidth : ℕ} (ht : 0 < threads) (hw : 4 ∣ rowWidth) (src : ℕ → F)
    (row : ℕ → H) {i : ℕ} (hi : i < rowWidth) :
    appendRow threads rowWidth src row i = ofF32 (src i) := by
  rw [appendRow, ← List.foldl_flatMap, foldl_write (· / 4) fun i => ofF32 (src i)]
  refine if_pos (List.mem_flatMap.mpr ?_)
  have hdiv : i / 4 < rowWidth / 4 := Nat.div_lt_div_of_lt_of_dvd hw hi
  obtain ⟨t, ⟨hlt, hmem⟩, -⟩ := existsUnique_thread ht hdiv
  exact ⟨t, List.mem_range.mpr hlt, hmem⟩

theorem appendRow_of_le {threads rowWidth : ℕ} (ht : 0 < threads) (src : ℕ → F)
    (row : ℕ → H) {i : ℕ}
    (hi : rowWidth ≤ i) : appendRow threads rowWidth src row i = row i := by
  rw [appendRow, ← List.foldl_flatMap, foldl_write (· / 4) fun i => ofF32 (src i)]
  apply if_neg
  intro hmem
  obtain ⟨t, -, ht'⟩ := List.mem_flatMap.mp hmem
  obtain ⟨hlt, -⟩ := (mem_forRange ht).mp ht'
  exact absurd (Nat.div_le_div_right hi) hlt.not_ge

/-- `op_kv_append` -/
def kvAppend (threads rowWidth rowIdx : ℕ) (src : ℕ → F) (cache : ℕ → ℕ → H) : ℕ → ℕ → H :=
  Function.update cache rowIdx (appendRow threads rowWidth src (cache rowIdx))

end KvAppend

/-! ## OP_FATTN_DECODE -/

/-- `FattnDecodeArgs`, with what the pointers lead to in place of the pointers: rows of the caches,
entries of the mask, the staged queries. -/
structure FattnDecodeArgs (F H : Type*) : Type _ where
  q : ℕ → F
  kCache : ℕ → ℕ → H
  vCache : ℕ → ℕ → H
  nKv : ℕ
  mask : ℕ → WithBot F
  nQ : ℕ
  nKvHeads : ℕ

/-- `mk_load_kv_slice`: element `c` of row `t` of the tile. -/
def loadKvSlice [Zero H] (cache : ℕ → ℕ → H) (t0 limit headOff t c : ℕ) : H :=
  if t0 + t < limit then cache (t0 + t) (headOff + c) else 0

theorem loadKvSlice_congr [Zero H] {pos : ℕ} {cache cache' : ℕ → ℕ → H}
    (h : ∀ j ≤ pos, cache' j = cache j) {t0 limit headOff t c : ℕ} (ht : t0 + t ≤ pos) :
    loadKvSlice cache' t0 limit headOff t c = loadKvSlice cache t0 limit headOff t c := by
  rw [loadKvSlice, loadKvSlice, h _ ht]

/-- What the decode knows when it works for one head on one chunk: the arguments, the KV head, the
query head and the end of the chunk. -/
structure Slice (F H : Type*) : Type _ where
  a : FattnDecodeArgs F H
  kvh : ℕ
  qh : ℕ
  kv1 : ℕ

/-- The state of the warp of a head: per lane the running maximum, the running sum and eight
elements of the V accumulator. All lanes know the same maximum, but each sums up its own positions.
-/
structure Warp (F : Type*) : Type _ where
  m : ℕ → F
  s : ℕ → F
  vacc : ℕ → ℕ → F

variable [F32 F] [F16 H F]

/-- Before the first tile. -/
def Warp.init : Warp F := ⟨fun _ => lowest, fun _ => 0, fun _ _ => 0⟩

/-- `q_s` of the head. -/
def Slice.qS (x : Slice F H) (c : ℕ) : F := scale * x.a.q (x.qh * attnHd + c)

/-- Row `t` of the K tile. -/
def Slice.kRow (x : Slice F H) (t0 t c : ℕ) : F :=
  toF32 (loadKvSlice x.a.kCache t0 x.kv1 (x.kvh * attnHd) t c)

/-- Row `t` of the V tile. -/
def Slice.vRow (x : Slice F H) (t0 t c : ℕ) : F :=
  toF32 (loadKvSlice x.a.vCache t0 x.kv1 (x.kvh * attnHd) t c)

/-- The product of the query with a row. -/
def dot (q k : ℕ → F) : F :=
  (forRange 0 attnHd 2).foldl (fun dot c => dot + (q c * k c + q (c + 1) * k (c + 1))) 0

/-- The score of a lane. -/
def Slice.score (x : Slice F H) (t0 lane : ℕ) : WithBot F :=
  if t0 + lane < x.kv1 then (dot x.qS (x.kRow t0 lane) : F) + x.a.mask (t0 + lane) else ⊥

/-- `m_new` -/
def Slice.mNew (x : Slice F H) (w : Warp F) (t0 lane : ℕ) : F :=
  fmaxf (w.m lane) (warpMax (x.score t0) lane)

/-- `p`: the weight of the row of a lane. -/
def Slice.weight (x : Slice F H) (w : Warp F) (t0 lane : ℕ) : F :=
  if t0 + lane < x.kv1 then expSub (x.score t0 lane) (x.mNew w t0 lane) else 0

/-- One tile: phase K, in which every lane has a row and its score, then phase V, in which every
lane has eight dimensions and goes through all the rows. -/
def Slice.tile (x : Slice F H) (w : Warp F) (t0 : ℕ) : Warp F :=
  let f := fun lane => expf (w.m lane - x.mNew w t0 lane)
  let p := x.weight w t0
  { m := x.mNew w t0
    s := fun lane => w.s lane * f lane + warpSum p lane
    vacc := fun lane i => (List.range fattnTile).foldl
      (fun acc t => if p t ≠ 0 then acc + p t * x.vRow t0 t (lane * 8 + i) else acc)
      (w.vacc lane i * f lane) }

/-- A split-KV partial record: maximum, sum and accumulator of a head on a chunk, as the reduce
reads them. -/
structure Record (F : Type*) : Type _ where
  acc : ℕ → F
  max : WithBot F
  sum : F

/-- The slice of a head on a chunk. -/
def FattnDecodeArgs.slice (a : FattnDecodeArgs F H) (nchunks chunk kvh warp : ℕ) : Slice F H :=
  ⟨a, kvh, kvh * (a.nQ / a.nKvHeads) + warp, kv1 a.nKv nchunks chunk⟩

/-- `op_fattn_decode` for the head of a warp on one chunk: the record it stores. -/
def fattnDecode (a : FattnDecodeArgs F H) (nchunks chunk kvh warp : ℕ) : Record F :=
  let w := (tiles a.nKv nchunks chunk).foldl (a.slice nchunks chunk kvh warp).tile Warp.init
  { acc := fun d => w.vacc (d / 8) (d % 8)
    max := w.m 0
    sum := w.s 0 }

/-! ### The padding -/

section Padding

variable {a : FattnDecodeArgs F H} {x : Slice F H} {pos : ℕ}

/-- The mask hides the rows of the window beyond a position. Below it nothing is said of the mask.
-/
def FattnDecodeArgs.Masked (a : FattnDecodeArgs F H) (pos : ℕ) : Prop :=
  ∀ j < a.nKv, pos < j → a.mask j = ⊥

/-- A masked row has no score. -/
theorem Slice.score_eq_bot (hmask : x.a.Masked pos) (hle : x.kv1 ≤ x.a.nKv) {t0 lane : ℕ}
    (hj : pos < t0 + lane) : x.score t0 lane = ⊥ := by
  rw [Slice.score]
  split
  · next hlt => rw [hmask _ (hlt.trans_le hle) hj, WithBot.add_bot]
  · rfl

/-- A masked row weighs exactly zero. -/
theorem Slice.weight_eq_zero (hmask : x.a.Masked pos) (hle : x.kv1 ≤ x.a.nKv) {t0 lane : ℕ}
    (hj : pos < t0 + lane) (w : Warp F) : x.weight w t0 lane = 0 := by
  rw [Slice.weight, x.score_eq_bot hmask hle hj, expSub_bot, ite_self]

/-- The same arguments with other caches. -/
def FattnDecodeArgs.withCaches (a : FattnDecodeArgs F H) (kCache vCache : ℕ → ℕ → H) :
    FattnDecodeArgs F H := { a with kCache, vCache }

/-- The same slice of other caches. -/
def Slice.withCaches (x : Slice F H) (kCache vCache : ℕ → ℕ → H) : Slice F H :=
  { x with a := x.a.withCaches kCache vCache }

variable {kCache vCache : ℕ → ℕ → H}

/-- Scores do not depend on the masked rows. -/
theorem Slice.score_withCaches (hmask : x.a.Masked pos) (hle : x.kv1 ≤ x.a.nKv)
    (hk : ∀ j ≤ pos, kCache j = x.a.kCache j) (t0 : ℕ) :
    (x.withCaches kCache vCache).score t0 = x.score t0 := by
  funext lane
  obtain hj | hj := Nat.lt_or_ge pos (t0 + lane)
  · rw [x.score_eq_bot hmask hle hj]
    exact Slice.score_eq_bot (x := x.withCaches kCache vCache) hmask hle hj
  · have hrow : (x.withCaches kCache vCache).kRow t0 lane = x.kRow t0 lane := by
      funext c
      exact congrArg toF32 (loadKvSlice_congr hk hj)
    simp only [Slice.score, hrow]
    rfl

/-- A tile does not depend on the masked rows. -/
theorem Slice.tile_withCaches (hmask : x.a.Masked pos) (hle : x.kv1 ≤ x.a.nKv)
    (hk : ∀ j ≤ pos, kCache j = x.a.kCache j) (hv : ∀ j ≤ pos, vCache j = x.a.vCache j)
    (w : Warp F) (t0 : ℕ) : (x.withCaches kCache vCache).tile w t0 = x.tile w t0 := by
  have hscore : (x.withCaches kCache vCache).score t0 = x.score t0 :=
    x.score_withCaches hmask hle hk t0
  have hm : (x.withCaches kCache vCache).mNew w t0 = x.mNew w t0 := by
    funext lane
    rw [Slice.mNew, hscore, Slice.mNew]
  have hp : (x.withCaches kCache vCache).weight w t0 = x.weight w t0 := by
    funext lane
    rw [Slice.weight, hscore, hm, Slice.weight]
    rfl
  rw [Slice.tile, hm, hp, Slice.tile]
  congr 1
  funext lane i
  refine List.foldl_ext _ _ _ fun acc t _ => ?_
  obtain hj | hj := Nat.lt_or_ge pos (t0 + t)
  · rw [x.weight_eq_zero hmask hle hj, if_neg (not_not.mpr rfl), if_neg (not_not.mpr rfl)]
  · have hrow : (x.withCaches kCache vCache).vRow t0 t = x.vRow t0 t := by
      funext c
      exact congrArg toF32 (loadKvSlice_congr hv hj)
    rw [hrow]

/-- **The records do not depend on the masked rows.** The weights of such rows are zeros, and phase
V skips them, so that not even a product with what the rows hold is formed. -/
theorem fattnDecode_withCaches (hmask : a.Masked pos) (hk : ∀ j ≤ pos, kCache j = a.kCache j)
    (hv : ∀ j ≤ pos, vCache j = a.vCache j) (nchunks chunk kvh warp : ℕ) :
    fattnDecode (a.withCaches kCache vCache) nchunks chunk kvh warp =
      fattnDecode a nchunks chunk kvh warp := by
  have htile : ((a.withCaches kCache vCache).slice nchunks chunk kvh warp).tile =
      (a.slice nchunks chunk kvh warp).tile := by
    funext w t0
    exact Slice.tile_withCaches (x := a.slice nchunks chunk kvh warp) hmask (Nat.min_le_right _ _)
      hk hv w t0
  simp only [fattnDecode, htile]
  rfl

end Padding

end Megakernel
