import Megakernel.DeltaNetSplit
import Megakernel.StoredWeights

/-!
# A DeltaNet block on two GPUs

The tensors of a block as the file stores them, and the halves that `weight_slice` uploads of
them. Run on its half with half of the counts, the emitted block gives each GPU the caches and
the gated output of its heads, and the partials of the output projection add up
(`dn_block_split`).

The counts are parameters throughout, with `headStride` as the table of periods for them. At the
counts of the network it is `dn_stride` (`headStride_network`).
-/

namespace Megakernel.DeltaNet

open Halves List

variable {B K : Type*}

/-- The weights of a block in the file. Names decide how each of them is cut, which is why they are
part of the layer. -/
structure Layer (B K : Type*) : Type _ where
  qkv : Stored B K
  conv : Stored B K
  gate : Stored B K
  alpha : Stored B K
  beta : Stored B K
  a : Stored B K
  dtBias : Stored B K
  norm : Stored B K
  out : Stored B K

namespace Layer

variable (L : Layer B K) (c : Counts) (g : ℕ)

/-- The weights of a single GPU. -/
def whole : Weights K where
  qkv := L.qkv.whole
  conv := L.conv.whole
  gate := L.gate.whole
  alpha := L.alpha.whole
  beta := L.beta.whole
  a := L.a.whole 0
  dtBias := L.dtBias.whole 0
  norm := L.norm.whole 0
  out := L.out.whole

/-- The cut of a tensor. -/
def cut (c : Counts) (s : Stored B K) : DnStride := headStride c.kHeads c.headDim s.info.name

/-- The weights of GPU `g` of two. -/
def half : Weights K where
  qkv := L.qkv.half (cut c L.qkv) g
  conv := L.conv.half (cut c L.conv) g
  gate := L.gate.half (cut c L.gate) g
  alpha := L.alpha.half (cut c L.alpha) g
  beta := L.beta.half (cut c L.beta) g
  a := L.a.half (cut c L.a) g 0
  dtBias := L.dtBias.half (cut c L.dtBias) g 0
  norm := L.norm.half (cut c L.norm) g 0
  out := L.out.halfCols (cut c L.out) g

end Layer

/-- A layer with the names and shapes of a block. The per-head vectors are scalars, and half of a
period of the columns of `ssm_out` is in whole quant blocks. -/
structure Layer.Fits (L : Layer B K) (blk : Gguf.Bytes) (c : Counts) : Prop where
  qkv : IsNamed L.qkv (blk ++ nameOf ".attn_qkv.weight") c.nEmbd c.channels
  conv : IsNamed L.conv (blk ++ nameOf ".ssm_conv1d.weight") gdnDconv c.channels
  gate : IsNamed L.gate (blk ++ nameOf ".attn_gate.weight") c.nEmbd (c.vHeads * c.headDim)
  alpha : IsNamed L.alpha (blk ++ nameOf ".ssm_alpha.weight") c.nEmbd c.vHeads
  beta : IsNamed L.beta (blk ++ nameOf ".ssm_beta.weight") c.nEmbd c.vHeads
  a : IsNamed L.a (blk ++ nameOf ".ssm_a") c.vHeads 1
  a_scalar : L.a.tt.blockElems = 1
  dtBias : IsNamed L.dtBias (blk ++ nameOf ".ssm_dt.bias") c.vHeads 1
  dtBias_scalar : L.dtBias.tt.blockElems = 1
  norm : IsNamed L.norm (blk ++ nameOf ".ssm_norm.weight") c.headDim 1
  out : IsNamed L.out (blk ++ nameOf ".ssm_out.weight") (c.vHeads * c.headDim) c.nEmbd
  out_pos : 0 < L.out.tt.blockElems
  out_blocks : L.out.tt.blockElems ∣ c.kHeads / 2 * c.headDim

/-! ## The halves -/

section Halves

variable {blk : Gguf.Bytes} {c : Counts} {s : Stored B K} {ncols nrows p n g : ℕ}

/-- The cut depends on the ending of the name alone. -/
theorem cut_eq {suf : String} (h : IsNamed s (blk ++ nameOf suf) ncols nrows)
    (hsuf : ∀ suf' ∈ strideTable, suf = suf' ∨ (nameOf suf).isSuffixOf (nameOf suf') = false) :
    Layer.cut c s = headStride c.kHeads c.headDim (nameOf suf) := by
  rw [Layer.cut, h.name, headStride_append blk hsuf]

theorem half_dealt {suf : String} {h m : ℕ} (hs : IsNamed s (blk ++ nameOf suf) ncols nrows)
    (hsuf : ∀ suf' ∈ strideTable, suf = suf' ∨ (nameOf suf).isSuffixOf (nameOf suf') = false)
    (hcut : headStride c.kHeads c.headDim (nameOf suf) = ⟨.row, 2 * h⟩)
    (hrows : nrows = m * (2 * h)) :
    ∀ i < m * h, ∀ j < ncols, s.half (Layer.cut c s) g i j = s.whole (pick h g i) j := by
  have hrows' : s.info.ne 1 = m * (2 * h) := hs.nrows.trans hrows
  have hhalf := Stored.half_rows (g := g) (Layer.cut c s) hs.matrix
    ((cut_eq hs hsuf).trans hcut) hrows'
  rwa [hs.ncols] at hhalf

/-- **The halves that are uploaded are those of the heads.** For every weight the cut by its name is
the one that its use in the block needs. -/
theorem weights_dealt {L : Layer B K} (hL : L.Fits blk c) (h : c.Halves p n) :
    WeightsDealt p n c.headDim c.nEmbd g (L.half c g) L.whole := by
  have hrow : (⟨.row, c.kHeads * c.headDim⟩ : DnStride) = ⟨.row, 2 * (p * c.headDim)⟩ := by
    rw [h.kElems, Nat.one_mul]
  have hhead (dim : StrideDim) : (⟨dim, c.kHeads⟩ : DnStride) = ⟨dim, 2 * p⟩ := by
    rw [h.kHeads]
  exact
    { qkv := half_dealt hL.qkv (by decide) hrow h.channels
      gate := half_dealt hL.gate (by decide) hrow h.vElems
      alpha := half_dealt hL.alpha (by decide) (hhead .row) h.vHeads
      beta := half_dealt hL.beta (by decide) (hhead .row) h.vHeads
      conv := half_dealt hL.conv (by decide) hrow h.channels
      dtBias := by
        have hcut : Layer.cut c L.dtBias = ⟨.row1d, 2 * p⟩ :=
          (cut_eq hL.dtBias (by decide)).trans (hhead .row1d)
        exact Stored.half_elems _ hL.dtBias_scalar hcut (hL.dtBias.ncols.trans h.vHeads)
      a := by
        have hcut : Layer.cut c L.a = ⟨.row1d, 2 * p⟩ :=
          (cut_eq hL.a (by decide)).trans (hhead .row1d)
        exact Stored.half_elems _ hL.a_scalar hcut (hL.a.ncols.trans h.vHeads)
      norm := by
        have hcut : (Layer.cut c L.norm).dim = .none :=
          congrArg DnStride.dim (cut_eq hL.norm (by decide))
        have hax : weightAxis L.norm.info.name = .mirror := by
          rw [hL.norm.name, weightAxis, nameEnds_self]
          simp
        have hnorm := Stored.half_mirror (g := g) _ hL.norm.matrix hcut hax hL.norm.nrows
        rwa [hL.norm.ncols] at hnorm
      out := by
        have hcut : Layer.cut c L.out = ⟨.col, 2 * (p * c.headDim)⟩ := by
          rw [cut_eq hL.out (by decide), ← Nat.one_mul (2 * _), ← h.kElems]
          rfl
        have hblocks : L.out.tt.blockElems ∣ p * c.headDim := by
          have hdvd := hL.out_blocks
          rwa [h.kHeads, Nat.mul_div_cancel_left p (by decide)] at hdvd
        have hout := Stored.half_cols (g := g) _ hL.out_pos hblocks hcut
          (hL.out.ncols.trans h.vElems)
        rwa [hL.out.nrows] at hout }

end Halves

/-! ## Two GPUs -/

/-- The head of a single GPU that head `h` of GPU `g` is. -/
def phi (c : Counts) (g h : ℕ) : ℕ := pick (c.kHeads / 2) g h

/-- The caches of GPU `g` are those of its heads, by the heads and channels that are dealt to it. -/
structure HeadCaches (c : Counts) (g : ℕ) (s b : Buffers K) : Prop where
  conv : ∀ h < (2 * c.kHeads + c.vHeads) / 2, ∀ i < c.headDim, ∀ j < 3,
    s.convCache ((h * c.headDim + i) * 3 + j) = b.convCache ((phi c g h * c.headDim + i) * 3 + j)
  state : ∀ h < c.vHeads / 2, ∀ col < c.headDim, ∀ i < c.headDim,
    s.stateCache ((h * c.headDim + col) * c.headDim + i) =
      b.stateCache ((phi c g h * c.headDim + col) * c.headDim + i)

theorem headCaches_iff {c : Counts} {p n g : ℕ} (h : c.Halves p n) {s b : Buffers K} :
    HeadCaches c g s b ↔ CachesDealt p n c.headDim g s b := by
  have hp : c.kHeads / 2 = p := by
    rw [h.kHeads, Nat.mul_div_cancel_left p (by decide)]
  have hv : c.vHeads / 2 = n * p := by
    rw [h.vHeads, half_periods]
  have hqkv : (2 * c.kHeads + c.vHeads) / 2 = (2 + n) * p := by
    rw [h.kHeads, h.vHeads, ← Nat.add_mul, half_periods]
  constructor
  · rintro ⟨hconv, hstate⟩
    simp only [phi, hp, hv, hqkv] at hconv hstate
    exact ⟨dealt_parts₂.mpr hconv, dealt_parts₂.mpr hstate⟩
  · rintro ⟨hconv, hstate⟩
    constructor
    · simp only [phi, hp, hqkv]
      exact dealt_parts₂.mp hconv
    · simp only [phi, hp, hv]
      exact dealt_parts₂.mp hstate

/-- **The strided head split computes the single-GPU mixer.** The cuts are those of `dn_stride` at
its counts. On the uploaded halves, and with the counts that `--split` emits, each GPU computes
the convolution state, the recurrent state and the gated output of its heads, and the partials of
`ssm_out` add up to the product. -/
theorem dn_block_split [Field K] [LinearOrder K] (c : Counts) (hk : 2 ∣ c.kHeads)
    (hv : c.kHeads ∣ c.vHeads) (blk : Gguf.Bytes) (L : Layer B K) (hL : L.Fits blk c) (e : Env K)
    (hQ : e.quant.size ∣ c.kHeads / 2 * c.headDim) (x : ℕ → K) (b : Buffers K) (s : ℕ → Buffers K)
    (hs : ∀ g < 2, HeadCaches c g (s g) b) :
    headStride 16 128 = dnStride ∧
    (∀ g < 2, HeadCaches c g (mixer true c e (L.half c g) x (s g)) (mixer false c e L.whole x b) ∧
      ∀ h < c.vHeads / 2, ∀ i < c.headDim,
        (mixer true c e (L.half c g) x (s g)).attnOut (h * c.headDim + i) =
          (mixer false c e L.whole x b).attnOut (phi c g h * c.headDim + i)) ∧
    ∀ r < c.nEmbd, (mixer true c e (L.half c 0) x (s 0)).projOut r +
      (mixer true c e (L.half c 1) x (s 1)).projOut r =
        (mixer false c e L.whole x b).projOut r := by
  obtain ⟨p, hp⟩ := hk
  obtain ⟨n, hn⟩ := hv
  have h : c.Halves p n := ⟨hp, by rw [hn, hp, Nat.mul_comm]⟩
  have hhalf : c.kHeads / 2 = p := by
    rw [hp, Nat.mul_div_cancel_left p (by decide)]
  have hvhalf : c.vHeads / 2 = n * p := by
    rw [h.vHeads, half_periods]
  have hcaches (g : ℕ) (hg : g < 2) : CachesDealt p n c.headDim g (s g) b :=
    (headCaches_iff h).mp (hs g hg)
  refine ⟨headStride_network, fun g hg => ?_, fun r hr => ?_⟩
  · obtain ⟨hnew, hgated⟩ :=
      mixer_dealt (e := e) h hg (weights_dealt hL h) (hcaches g hg) x
    refine ⟨(headCaches_iff h).mpr hnew, ?_⟩
    rw [hvhalf]
    simp only [phi, hhalf]
    exact dealt_parts.mp hgated
  · rw [hhalf] at hQ
    exact projOut_mixer h (weights_dealt hL h) (weights_dealt hL h) (hcaches 0 (by decide))
      (hcaches 1 (by decide)) hQ x hr

/-- Two key heads, four value heads, one element each. -/
def smallCounts : Counts := ⟨2, 4, 1, 1⟩

/-- A block of these counts. -/
def smallLayer : Layer ℕ ℚ where
  qkv := plainWeight Nat.cast (nameOf "blk.0" ++ nameOf ".attn_qkv.weight") 1 8
  conv := plainWeight Nat.cast (nameOf "blk.0" ++ nameOf ".ssm_conv1d.weight") 4 8
  gate := plainWeight Nat.cast (nameOf "blk.0" ++ nameOf ".attn_gate.weight") 1 4
  alpha := plainWeight Nat.cast (nameOf "blk.0" ++ nameOf ".ssm_alpha.weight") 1 4
  beta := plainWeight Nat.cast (nameOf "blk.0" ++ nameOf ".ssm_beta.weight") 1 4
  a := plainWeight Nat.cast (nameOf "blk.0" ++ nameOf ".ssm_a") 4 1
  dtBias := plainWeight Nat.cast (nameOf "blk.0" ++ nameOf ".ssm_dt.bias") 4 1
  norm := plainWeight Nat.cast (nameOf "blk.0" ++ nameOf ".ssm_norm.weight") 1 1
  out := plainWeight Nat.cast (nameOf "blk.0" ++ nameOf ".ssm_out.weight") 4 1

theorem smallLayer_fits : smallLayer.Fits (nameOf "blk.0") smallCounts where
  qkv := plainWeight_isNamed _ _ _ _
  conv := plainWeight_isNamed _ _ _ _
  gate := plainWeight_isNamed _ _ _ _
  alpha := plainWeight_isNamed _ _ _ _
  beta := plainWeight_isNamed _ _ _ _
  a := plainWeight_isNamed _ _ _ _
  a_scalar := rfl
  dtBias := plainWeight_isNamed _ _ _ _
  dtBias_scalar := rfl
  norm := plainWeight_isNamed _ _ _ _
  out := plainWeight_isNamed _ _ _ _
  out_pos := Nat.one_pos
  out_blocks := one_dvd _

/-- Functions of the device library that rational numbers have. -/
def smallEnv : Env ℚ where
  device := ⟨fun y => 1 + y, fun y => y - 1, fun y => 1 / (1 + y)⟩
  quant := Quantizer.exact ℚ
  eps := 1 / 1000000
  scale := 1

/-- Buffers that hold zeros. -/
def zeroBuffers : Buffers ℚ :=
  ⟨fun _ => 0, fun _ => 0, fun _ => 0, fun _ => 0, fun _ => 0, fun _ => 0, fun _ => 0, fun _ => 0,
    fun _ => 0, fun _ => 0⟩

theorem dn_block_split_small :
    (mixer true smallCounts smallEnv (smallLayer.half smallCounts 0) (fun _ => 1)
        zeroBuffers).projOut 0 +
      (mixer true smallCounts smallEnv (smallLayer.half smallCounts 1) (fun _ => 1)
        zeroBuffers).projOut 0 =
      (mixer false smallCounts smallEnv smallLayer.whole (fun _ => 1) zeroBuffers).projOut 0 :=
  (dn_block_split smallCounts (by decide) (by decide) (nameOf "blk.0") smallLayer smallLayer_fits
    smallEnv (one_dvd _) (fun _ => 1) zeroBuffers (fun _ => zeroBuffers)
    fun _ _ => ⟨fun _ _ _ _ _ _ => rfl, fun _ _ _ _ _ _ => rfl⟩).2.2 0 Nat.one_pos

end Megakernel.DeltaNet
