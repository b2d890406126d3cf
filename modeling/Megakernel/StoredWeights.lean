import Megakernel.WeightSlice

/-!
# Stored weights and their halves

A weight as a GGUF file stores it, decoded from the whole tensor or from what a GPU has
uploaded of it. The periods of `dn_stride` are those of 16 key heads of 128 elements;
`headStride` is the same table for any counts. For each way in which `weight_slice` cuts a
tensor there is one lemma that says what the rows and columns of a half are.
-/

namespace Megakernel

open Halves List

/-- `dn_stride` for any counts: the periods are those of the key heads. -/
def headStride (kHeads headDim : ℕ) (name : Gguf.Bytes) : DnStride :=
  if nameEnds name ".attn_qkv.weight" then ⟨.row, kHeads * headDim⟩
  else if nameEnds name ".ssm_conv1d.weight" then ⟨.row, kHeads * headDim⟩
  else if nameEnds name ".attn_gate.weight" then ⟨.row, kHeads * headDim⟩
  else if nameEnds name ".ssm_alpha.weight" then ⟨.row, kHeads⟩
  else if nameEnds name ".ssm_beta.weight" then ⟨.row, kHeads⟩
  else if nameEnds name ".ssm_a" then ⟨.row1d, kHeads⟩
  else if nameEnds name ".ssm_dt.bias" then ⟨.row1d, kHeads⟩
  else if nameEnds name ".ssm_out.weight" then ⟨.col, kHeads * headDim⟩
  else ⟨.none, 0⟩

theorem headStride_network : headStride 16 128 = dnStride := rfl

/-! ## Names -/

/-- What comes in front of an ending does not matter for another ending, unless that one is longer
and ends in it. -/
theorem nameEnds_append (blk : Gguf.Bytes) {suf suf' : String}
    (h : suf = suf' ∨ (nameOf suf).isSuffixOf (nameOf suf') = false) :
    nameEnds (blk ++ nameOf suf) suf' = nameEnds (nameOf suf) suf' := by
  rw [nameEnds, nameEnds, Bool.eq_iff_iff, isSuffixOf_iff_suffix, isSuffixOf_iff_suffix]
  refine ⟨fun hends => ?_, fun hends => hends.trans (suffix_append blk _)⟩
  obtain rfl | hnot := h
  · exact suffix_refl _
  · obtain hle | hle := suffix_or_suffix_of_suffix hends (suffix_append blk (nameOf suf))
    · exact hle
    · rw [← isSuffixOf_iff_suffix, hnot] at hle
      cases hle

theorem nameEnds_self (blk : Gguf.Bytes) (suf : String) :
    nameEnds (blk ++ nameOf suf) suf = true := by
  rw [nameEnds, isSuffixOf_iff_suffix]
  exact suffix_append blk (nameOf suf)

/-- A name that ends in `suf` is none that does not. -/
theorem append_ne_nameOf (blk : Gguf.Bytes) {suf name : String}
    (h : (nameOf suf).isSuffixOf (nameOf name) = false) : blk ++ nameOf suf ≠ nameOf name := by
  intro heq
  have hends := suffix_append blk (nameOf suf)
  rw [heq, ← isSuffixOf_iff_suffix, h] at hends
  cases hends

/-- The endings that `dn_stride` knows. -/
def strideTable : List String :=
  [".attn_qkv.weight", ".ssm_conv1d.weight", ".attn_gate.weight", ".ssm_alpha.weight",
    ".ssm_beta.weight", ".ssm_a", ".ssm_dt.bias", ".ssm_out.weight"]

theorem headStride_append (blk : Gguf.Bytes) {suf : String}
    (h : ∀ suf' ∈ strideTable, suf = suf' ∨ (nameOf suf).isSuffixOf (nameOf suf') = false)
    (k d : ℕ) : headStride k d (blk ++ nameOf suf) = headStride k d (nameOf suf) := by
  simp only [strideTable, forall_mem_cons] at h
  obtain ⟨h₁, h₂, h₃, h₄, h₅, h₆, h₇, h₈, -⟩ := h
  simp only [headStride, nameEnds_append blk h₁, nameEnds_append blk h₂, nameEnds_append blk h₃,
    nameEnds_append blk h₄, nameEnds_append blk h₅, nameEnds_append blk h₆, nameEnds_append blk h₇,
    nameEnds_append blk h₈]

/-- The endings that `weight_axis` knows. -/
def axisTable : List String :=
  [".attn_norm.weight", ".post_attention_norm.weight", ".attn_q_norm.weight", ".attn_k_norm.weight",
    ".ssm_norm.weight", ".attn_output.weight", ".ffn_down.weight", ".attn_q.weight",
    ".attn_k.weight", ".attn_v.weight", ".ffn_gate.weight", ".ffn_up.weight"]

theorem weightAxis_append (blk : Gguf.Bytes) {suf : String}
    (hname : ∀ name ∈ ["token_embd.weight", "output_norm.weight", "output.weight"],
      (nameOf suf).isSuffixOf (nameOf name) = false)
    (h : ∀ suf' ∈ axisTable, suf = suf' ∨ (nameOf suf).isSuffixOf (nameOf suf') = false) :
    weightAxis (blk ++ nameOf suf) = weightAxis (nameOf suf) := by
  simp only [forall_mem_cons] at hname
  obtain ⟨hn₁, hn₂, hn₃, -⟩ := hname
  simp only [axisTable, forall_mem_cons] at h
  obtain ⟨h₁, h₂, h₃, h₄, h₅, h₆, h₇, h₈, h₉, h₁₀, h₁₁, h₁₂, -⟩ := h
  have hself {name : String} (hn : (nameOf suf).isSuffixOf (nameOf name) = false) :
      nameOf suf ≠ nameOf name := append_ne_nameOf [] hn
  simp only [weightAxis, append_ne_nameOf blk hn₁, append_ne_nameOf blk hn₂,
    append_ne_nameOf blk hn₃, hself hn₁, hself hn₂, hself hn₃, nameEnds_append blk h₁,
    nameEnds_append blk h₂, nameEnds_append blk h₃, nameEnds_append blk h₄, nameEnds_append blk h₅,
    nameEnds_append blk h₆, nameEnds_append blk h₇, nameEnds_append blk h₈, nameEnds_append blk h₉,
    nameEnds_append blk h₁₀, nameEnds_append blk h₁₁, nameEnds_append blk h₁₂]

/-! ## Halves of a tensor -/

/-- A weight in a file: `dq` decodes a quant block. The format of the blocks is left open, so that
all kinds of tensors are covered. -/
structure Stored (B K : Type*) : Type _ where
  info : Gguf.TensorInfo
  tt : Gguf.TypeTraits
  dq : (Fin tt.blockBytes → B) → ℕ → K
  data : ℕ → B

/-- A matrix of a name and shape. -/
structure IsNamed {B K : Type*} (s : Stored B K) (name : Gguf.Bytes) (ncols nrows : ℕ) : Prop where
  name : s.info.name = name
  matrix : IsMatrix s.tt s.info
  ncols : s.info.ne 0 = ncols
  nrows : s.info.ne 1 = nrows

/-- A matrix of floats, of which the first byte of each says what it stands for. -/
def plainWeight {K : Type*} (dq : ℕ → K) (name : Gguf.Bytes) (ncols nrows : ℕ) : Stored ℕ K where
  info :=
    { name := name
      type := 0
      ne d := if d = 0 then ncols else if d = 1 then nrows else 1
      offset := 0
      nbytes := nrows * (ncols * 4) }
  tt := ⟨"f32", 1, 4⟩
  dq bytes _ := dq (bytes 0)
  data y := y

theorem plainWeight_isNamed {K : Type*} (dq : ℕ → K) (name : Gguf.Bytes) (ncols nrows : ℕ) :
    IsNamed (plainWeight dq name ncols nrows) name ncols nrows where
  name := rfl
  matrix := by
    refine ⟨one_dvd _, ?_⟩
    change nrows * (ncols * 4) = nrows * (ncols / 1 * 4)
    rw [Nat.div_one]
  ncols := rfl
  nrows := rfl

namespace Stored

variable {B K : Type*} (s : Stored B K) (ds : DnStride) (g : ℕ)

/-- The entries of the tensor. -/
def whole : ℕ → ℕ → K := entry s.tt s.dq (s.info.ne 0) s.data

/-- What a GPU uploads of it. -/
def upload : ℕ → B :=
  uploaded s.data (weightSliceBy ds (weightAxis s.info.name) s.tt s.info g)

/-- The entries of what is uploaded, in rows of the same length. -/
def half : ℕ → ℕ → K := entry s.tt s.dq (s.info.ne 0) (s.upload ds g)

/-- The entries of what is uploaded, in rows of half the length. -/
def halfCols : ℕ → ℕ → K := entry s.tt s.dq (s.info.ne 0 / 2) (s.upload ds g)

variable {s g} {h m : ℕ}

/-- Rows in periods. -/
theorem half_rows (hmat : IsMatrix s.tt s.info) (hds : ds = ⟨.row, 2 * h⟩)
    (hne : s.info.ne 1 = m * (2 * h)) :
    ∀ i < m * h, ∀ c < s.info.ne 0, s.half ds g i c = s.whole (pick h g i) c := by
  intro i hi c hc
  have hpos : 0 < h := Nat.pos_of_lt_mul_left hi
  apply entry_picked_rows hmat.blocks _ s.dq s.data hi hc
  rw [hds]
  simp only [weightSliceBy]
  rw [hne]
  exact sliceRows_eq hpos _ g

/-- The contiguous halves of the rows. -/
theorem half_contiguous (hmat : IsMatrix s.tt s.info) (hds : ds.dim = .none)
    (hax : weightAxis s.info.name = .row) (hne : s.info.ne 1 = 2 * h) :
    ∀ i < h, ∀ c < s.info.ne 0, s.half ds g i c = s.whole (pick h g i) c := by
  intro i hi c hc
  rw [← Nat.one_mul h] at hi
  apply entry_picked_rows hmat.blocks _ s.dq s.data hi hc
  have hbytes : s.info.nbytes / 2 = h * rowBytes s.tt (s.info.ne 0) := by
    rw [hmat.nbytes, hne, Nat.mul_assoc, Nat.mul_div_cancel_left _ (by decide)]
  simp only [weightSliceBy, hds, hax]
  rw [hbytes]
  exact copy_half_eq _ g

/-- Elements in periods. -/
theorem half_elems (hbe : s.tt.blockElems = 1) (hds : ds = ⟨.row1d, 2 * h⟩)
    (hne : s.info.ne 0 = m * (2 * h)) : Dealt h m g (s.half ds g 0) (s.whole 0) := by
  intro i hi
  have hpos : 0 < h := Nat.pos_of_lt_mul_left hi
  apply entry_picked_elems hbe _ s.dq s.data hi
  rw [hds]
  simp only [weightSliceBy]
  rw [hne]
  exact sliceRows_eq hpos _ g

/-- Columns in periods of whole quant blocks. Each row of the half holds half of the columns of that
row. -/
theorem half_cols (hbe : 0 < s.tt.blockElems) (hblocks : s.tt.blockElems ∣ h)
    (hds : ds = ⟨.col, 2 * h⟩) (hne : s.info.ne 0 = m * (2 * h)) :
    ∀ r < s.info.ne 1, Dealt h m g (s.halfCols ds g r) (s.whole r) := by
  intro r hr i hi
  obtain ⟨k, rfl⟩ := hblocks
  rw [Nat.mul_comm s.tt.blockElems k] at hds hne hi ⊢
  have hpos : 0 < k := Nat.pos_of_mul_pos_right (Nat.pos_of_lt_mul_left hi)
  rw [halfCols, whole, hne, half_periods]
  apply entry_picked_cols hbe _ s.dq s.data hr hi
  rw [hds]
  simp only [weightSliceBy]
  rw [hne]
  exact sliceCols_eq hbe hpos _ g

/-- The contiguous halves of the columns. -/
theorem half_contiguousCols (hbe : 0 < s.tt.blockElems) (hblocks : s.tt.blockElems ∣ h)
    (hds : ds.dim = .none) (hax : weightAxis s.info.name = .col) (hne : s.info.ne 0 = 2 * h) :
    ∀ r < s.info.ne 1, Dealt h 1 g (s.halfCols ds g r) (s.whole r) := by
  intro r hr i hi
  obtain ⟨k, rfl⟩ := hblocks
  rw [Nat.mul_comm s.tt.blockElems k] at hne hi ⊢
  rw [← Nat.one_mul (2 * _)] at hne
  rw [halfCols, whole, hne, half_periods]
  apply entry_picked_cols hbe _ s.dq s.data hr hi
  have hrow : rowBytes s.tt (s.info.ne 0) = 2 * (k * s.tt.blockBytes) := by
    have hassoc : 1 * (2 * (k * s.tt.blockElems)) = 2 * k * s.tt.blockElems := by ring
    rw [rowBytes, hne, hassoc, Nat.mul_div_cancel _ hbe]
    ring
  simp only [weightSliceBy, hds, hax]
  rw [hrow]
  exact sliceHalfCols_eq _ _ g

/-- A mirrored vector. -/
theorem half_mirror (hmat : IsMatrix s.tt s.info) (hds : ds.dim = .none)
    (hax : weightAxis s.info.name = .mirror) (hne : s.info.ne 1 = 1) :
    ∀ i < s.info.ne 0, s.half ds g 0 i = s.whole 0 i := by
  intro i hi
  have hrow : i < s.info.ne 0 / s.tt.blockElems * s.tt.blockElems := by
    rwa [Nat.div_mul_cancel hmat.blocks]
  rw [half, whole, entry, entry]
  congr 1
  funext k
  have hlt : i / s.tt.blockElems * s.tt.blockBytes + k < rowBytes s.tt (s.info.ne 0) :=
    blockByte_lt hrow k.isLt
  have hbytes : s.info.nbytes = rowBytes s.tt (s.info.ne 0) := by
    rw [hmat.nbytes, hne, Nat.one_mul]
  simp only [upload, weightSliceBy, hds, hax]
  rw [Nat.zero_mul, Nat.zero_add, hbytes]
  apply uploaded_of_getElem?
  rw [copy, getElem?_map, getElem?_range hlt, Option.map_some, Nat.zero_add]

end Stored

end Megakernel
