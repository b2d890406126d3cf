import Megakernel.Gguf
import Megakernel.Halves

/-!
# Slicing the weights

`dn_stride`, `weight_axis` and `weight_slice` of `k0/harness.cpp`: which part of
every weight each of the two GPUs uploads. A slice is given by the offsets of its
bytes in the tensor, in the order in which they are copied.

All the copying loops deal out blocks of rows, of elements or of columns in turn
(`Halves.pick`), the contiguous halves with a single block for each GPU. From this
follows that the slices partition the tensor, that the rows of a row split are the
picked rows, and that the products with the slices of a column split add up to the
product with the whole matrix (`weight_slice_splits`).

A GPU that reads its slice does not know what has been cut off: it decodes rows of the length that
its own arguments say. That it finds the right entries there is what the lemmas on decoding are
about.
-/

namespace Megakernel

open Halves List

/-! ## The axes -/

/-- `WAxis` -/
inductive WAxis : Type where
  | mirror
  | row
  | col
  deriving DecidableEq

/-- The `dim` of a `DnStride`. -/
inductive StrideDim : Type where
  /-- 0: not strided -/
  | none
  /-- 1: the rows, `ne[1]` -/
  | row
  /-- 2: the input columns, `ne[0]` -/
  | col
  /-- 3: the elements of a flat vector, `ne[0]` -/
  | row1d
  deriving DecidableEq

/-- `DnStride`: the dimension that is dealt out, and the period in rows, elements or columns. -/
structure DnStride : Type where
  dim : StrideDim
  period : ℕ
  deriving DecidableEq

/-- The bytes of a name in the source. -/
def nameOf (s : String) : Gguf.Bytes := s.toList.map fun c => UInt8.ofNat c.toNat

/-- `name_ends` -/
def nameEnds (name : Gguf.Bytes) (suf : String) : Bool := (nameOf suf).isSuffixOf name

/-- `dn_stride`: by the end of the name. A name that ends in none of them has no stride and is split
by `weight_axis`. -/
def dnStride (name : Gguf.Bytes) : DnStride :=
  if nameEnds name ".attn_qkv.weight" then ⟨.row, 2048⟩
  else if nameEnds name ".ssm_conv1d.weight" then ⟨.row, 2048⟩
  else if nameEnds name ".attn_gate.weight" then ⟨.row, 2048⟩
  else if nameEnds name ".ssm_alpha.weight" then ⟨.row, 16⟩
  else if nameEnds name ".ssm_beta.weight" then ⟨.row, 16⟩
  else if nameEnds name ".ssm_a" then ⟨.row1d, 16⟩
  else if nameEnds name ".ssm_dt.bias" then ⟨.row1d, 16⟩
  else if nameEnds name ".ssm_out.weight" then ⟨.col, 2048⟩
  else ⟨.none, 0⟩

/-- `weight_axis`: rows, columns, or mirrored, by the end of the name. A name that nothing fits is
mirrored. -/
def weightAxis (name : Gguf.Bytes) : WAxis :=
  if name = nameOf "token_embd.weight" ∨ name = nameOf "output_norm.weight" ∨
      nameEnds name ".attn_norm.weight" ∨ nameEnds name ".post_attention_norm.weight" ∨
      nameEnds name ".attn_q_norm.weight" ∨ nameEnds name ".attn_k_norm.weight" ∨
      nameEnds name ".ssm_norm.weight" then .mirror
  else if nameEnds name ".attn_output.weight" ∨ nameEnds name ".ffn_down.weight" then .col
  else if nameEnds name ".attn_q.weight" ∨ nameEnds name ".attn_k.weight" ∨
      nameEnds name ".attn_v.weight" ∨ nameEnds name ".ffn_gate.weight" ∨
      nameEnds name ".ffn_up.weight" ∨ name = nameOf "output.weight" then .row
  else .mirror

/-! ## The slice -/

/-- `rowbytes` -/
def rowBytes (tt : Gguf.TypeTraits) (ne0 : ℕ) : ℕ := ne0 / tt.blockElems * tt.blockBytes

/-- Rows `ne[1]`, in blocks of a period. -/
def sliceRows (period ne1 rowbytes g : ℕ) : List ℕ :=
  let half := period / 2
  (range (ne1 / period)).flatMap fun b => copy ((b * period + g * half) * rowbytes)
    (half * rowbytes)

/-- Columns, per row in runs of whole quant blocks. -/
def sliceCols (tt : Gguf.TypeTraits) (period ne0 ne1 g : ℕ) : List ℕ :=
  let half := period / 2
  (range ne1).flatMap fun r => (range (ne0 / period)).flatMap fun b =>
    copy (r * rowBytes tt ne0 + (b * period + g * half) / tt.blockElems * tt.blockBytes)
      (half / tt.blockElems * tt.blockBytes)

/-- The contiguous half of the columns of every row. -/
def sliceHalfCols (rowbytes ne1 g : ℕ) : List ℕ :=
  let half := rowbytes / 2
  (range ne1).flatMap fun r => copy (r * rowbytes + g * half) half

/-- `weight_slice`, given what `dn_stride` and `weight_axis` say. -/
def weightSliceBy (ds : DnStride) (ax : WAxis) (tt : Gguf.TypeTraits) (t : Gguf.TensorInfo)
    (g : ℕ) : List ℕ :=
  match ds.dim with
  | .row => sliceRows ds.period (t.ne 1) (rowBytes tt (t.ne 0)) g
  | .row1d => sliceRows ds.period (t.ne 0) tt.blockBytes g
  | .col => sliceCols tt ds.period (t.ne 0) (t.ne 1) g
  | .none =>
    match ax with
    | .mirror => copy 0 t.nbytes
    | .row => copy (g * (t.nbytes / 2)) (t.nbytes / 2)
    | .col => sliceHalfCols (rowBytes tt (t.ne 0)) (t.ne 1) g

/-- `weight_slice`: the offsets of the bytes that GPU `g` uploads, in the order in which they are
copied. -/
def weightSlice (tt : Gguf.TypeTraits) (t : Gguf.TensorInfo) (g : ℕ) : List ℕ :=
  weightSliceBy (dnStride t.name) (weightAxis t.name) tt t g

/-! ## What is split -/

/-- What a weight is split along, and the period in which it is dealt out. -/
inductive Split : Type where
  | mirror
  /-- rows -/
  | rows (period : ℕ)
  /-- elements of a vector -/
  | elems (period : ℕ)
  /-- input columns -/
  | cols (period : ℕ)

/-- The split of a weight. A contiguous half is a single block of a period as long as the whole, so
that all slices are instances of one picture. -/
def splitOf (t : Gguf.TensorInfo) : Split :=
  match (dnStride t.name).dim with
  | .row => .rows (dnStride t.name).period
  | .row1d => .elems (dnStride t.name).period
  | .col => .cols (dnStride t.name).period
  | .none =>
    match weightAxis t.name with
    | .mirror => .mirror
    | .row => .rows (t.ne 1)
    | .col => .cols (t.ne 0)

/-- A matrix of a type: whole quant blocks in a row, and the size that goes with it. The reader
accepts tensors for which this fails, but no GEMV could work on them. -/
structure IsMatrix (tt : Gguf.TypeTraits) (t : Gguf.TensorInfo) : Prop where
  blocks : tt.blockElems ∣ t.ne 0
  nbytes : t.nbytes = t.ne 1 * rowBytes tt (t.ne 0)

/-- The divisibility that a split assumes: whole periods, and for columns whole quant blocks in a
run. -/
def Split.Divides (tt : Gguf.TypeTraits) (t : Gguf.TensorInfo) : Split → Prop
  | .mirror => True
  | .rows period => 2 ∣ period ∧ period ∣ t.ne 1
  | .elems period => t.ne 1 = 1 ∧ period ∣ t.ne 0 ∧ 2 * tt.blockElems ∣ period
  | .cols period => period ∣ t.ne 0 ∧ 2 * tt.blockElems ∣ period

theorem typeTraits_pos {c : ℕ} {tt : Gguf.TypeTraits} (h : Gguf.typeTraits c = some tt) :
    0 < tt.blockElems := by
  unfold Gguf.typeTraits at h
  split at h <;> cases h <;> decide

/-- A block of a type that is at most half a period of 16 long is a scalar. -/
theorem typeTraits_scalar {c : ℕ} {tt : Gguf.TypeTraits} (h : Gguf.typeTraits c = some tt)
    (hdvd : 2 * tt.blockElems ∣ 16) : tt.blockElems = 1 := by
  unfold Gguf.typeTraits at h
  split at h <;> cases h <;> first | rfl | exact absurd hdvd (by decide)

theorem dnStride_period_pos {name : Gguf.Bytes} (h : (dnStride name).dim ≠ .none) :
    0 < (dnStride name).period := by
  rw [dnStride] at h ⊢
  split_ifs at h ⊢ <;> first | decide | exact absurd rfl h

theorem dnStride_period_row1d {name : Gguf.Bytes} (h : (dnStride name).dim = .row1d) :
    (dnStride name).period = 16 := by
  rw [dnStride] at h ⊢
  split_ifs at h ⊢ <;> rfl

/-! ## The slices as picks -/

section Picks

variable {tt : Gguf.TypeTraits} {t : Gguf.TensorInfo}

/-- A row split deals out the bytes of the rows. -/
theorem sliceRows_eq {h m : ℕ} (hpos : 0 < h) (rowbytes g : ℕ) :
    sliceRows (2 * h) (m * (2 * h)) rowbytes g =
      (range (m * (h * rowbytes))).map (pick (h * rowbytes) g) := by
  rw [sliceRows, ← flatMap_copy_pick, Nat.mul_div_cancel m (by omega),
    Nat.mul_div_cancel_left h (by decide)]
  refine flatMap_congr fun b _ => ?_
  congr 1
  ring

/-- So does the shortcut that halves the bytes. -/
theorem copy_half_eq (w g : ℕ) : copy (g * w) w = (range (1 * w)).map (pick w g) := by
  rw [← flatMap_copy_pick, range_one, flatMap_singleton, Nat.zero_mul, Nat.zero_add]

/-- A column split deals out the quant blocks of every row. -/
theorem sliceCols_eq {h m : ℕ} (hbe : 0 < tt.blockElems) (hpos : 0 < h) (ne1 g : ℕ) :
    sliceCols tt (2 * (h * tt.blockElems)) (m * (2 * (h * tt.blockElems))) ne1 g =
      (range ne1).flatMap fun r => (range (m * (h * tt.blockBytes))).map fun y =>
        r * (m * (2 * (h * tt.blockBytes))) + pick (h * tt.blockBytes) g y := by
  have hrow : rowBytes tt (m * (2 * (h * tt.blockElems))) = m * (2 * (h * tt.blockBytes)) := by
    have hassoc : m * (2 * (h * tt.blockElems)) = m * (2 * h) * tt.blockElems := by ring
    rw [rowBytes, hassoc, Nat.mul_div_cancel _ hbe]
    ring
  have hhalf : 2 * (h * tt.blockElems) / 2 = h * tt.blockElems :=
    Nat.mul_div_cancel_left _ (by decide)
  have hperiod : 0 < 2 * (h * tt.blockElems) := Nat.mul_pos (by decide) (Nat.mul_pos hpos hbe)
  rw [sliceCols, hrow, Nat.mul_div_cancel m hperiod]
  refine flatMap_congr fun r _ => ?_
  rw [← flatMap_copy_add_pick]
  refine flatMap_congr fun b _ => ?_
  have hoff : (b * (2 * (h * tt.blockElems)) + g * (2 * (h * tt.blockElems) / 2)) / tt.blockElems =
      b * (2 * h) + g * h := by
    have hassoc : b * (2 * (h * tt.blockElems)) + g * (h * tt.blockElems) =
        (b * (2 * h) + g * h) * tt.blockElems := by ring
    rw [hhalf, hassoc, Nat.mul_div_cancel _ hbe]
  rw [hoff, hhalf, Nat.mul_div_cancel h hbe]
  congr 1
  ring

/-- So do the contiguous halves of the rows. -/
theorem sliceHalfCols_eq (w ne1 g : ℕ) :
    sliceHalfCols (2 * w) ne1 g = (range ne1).flatMap fun r => (range (1 * w)).map fun y =>
      r * (1 * (2 * w)) + pick w g y := by
  rw [sliceHalfCols, Nat.mul_div_cancel_left w (by decide)]
  refine flatMap_congr fun r _ => ?_
  rw [← flatMap_copy_add_pick, range_one, flatMap_singleton, Nat.zero_mul,
    Nat.zero_add, Nat.one_mul]

/-- The slices of a row split are picks of bytes. -/
theorem weightSlice_rows {period : ℕ} (hmat : IsMatrix tt t) (hsplit : splitOf t = .rows period)
    (hdiv : (splitOf t).Divides tt t) : ∃ m h, period = 2 * h ∧ t.ne 1 = m * (2 * h) ∧
      ∀ g, weightSlice tt t g =
        (range (m * (h * rowBytes tt (t.ne 0)))).map (pick (h * rowBytes tt (t.ne 0)) g) := by
  rw [hsplit] at hdiv
  obtain ⟨⟨h, rfl⟩, m, hm⟩ := hdiv
  rw [splitOf] at hsplit
  split at hsplit
  · next hdim =>
    have hperiod : (dnStride t.name).period = 2 * h := Split.rows.inj hsplit
    have hpos : 0 < (dnStride t.name).period := dnStride_period_pos (by rw [hdim]; nofun)
    rw [Nat.mul_comm] at hm
    refine ⟨m, h, rfl, hm, fun g => ?_⟩
    simp only [weightSlice, weightSliceBy, hdim]
    rw [hperiod, hm]
    exact sliceRows_eq (by omega) _ g
  · cases hsplit
  · cases hsplit
  · next hdim =>
    split at hsplit
    · cases hsplit
    · next hax =>
      have hne : t.ne 1 = 2 * h := Split.rows.inj hsplit
      refine ⟨1, h, rfl, by rw [hne, Nat.one_mul], fun g => ?_⟩
      have hbytes : t.nbytes / 2 = h * rowBytes tt (t.ne 0) := by
        rw [hmat.nbytes, hne, Nat.mul_assoc, Nat.mul_div_cancel_left _ (by decide)]
      simp only [weightSlice, weightSliceBy, hdim, hax]
      rw [hbytes]
      exact copy_half_eq _ g
    · cases hsplit

/-- The slices of a vector are picks of bytes. -/
theorem weightSlice_elems {period : ℕ} (htt : Gguf.typeTraits t.type = some tt)
    (hsplit : splitOf t = .elems period) (hdiv : (splitOf t).Divides tt t) :
    ∃ m h, period = 2 * h ∧ t.ne 0 = m * (2 * h) ∧ tt.blockElems = 1 ∧
      ∀ g, weightSlice tt t g =
        (range (m * (h * tt.blockBytes))).map (pick (h * tt.blockBytes) g) := by
  rw [hsplit] at hdiv
  obtain ⟨-, ⟨m, hm⟩, hbe⟩ := hdiv
  rw [splitOf] at hsplit
  split at hsplit
  · cases hsplit
  · next hdim =>
    have hperiod : (dnStride t.name).period = period := Split.elems.inj hsplit
    have h16 := dnStride_period_row1d hdim
    rw [hperiod] at h16
    subst h16
    rw [Nat.mul_comm] at hm
    refine ⟨m, 8, rfl, hm, typeTraits_scalar htt hbe, fun g => ?_⟩
    simp only [weightSlice, weightSliceBy, hdim]
    rw [hperiod, hm]
    exact sliceRows_eq (by decide : 0 < 8) _ g
  · cases hsplit
  · split at hsplit <;> cases hsplit

/-- The slices of a column split are picks of quant blocks, row by row. -/
theorem weightSlice_cols {period : ℕ} (htt : Gguf.typeTraits t.type = some tt)
    (hsplit : splitOf t = .cols period) (hdiv : (splitOf t).Divides tt t) :
    ∃ m h, period = 2 * (h * tt.blockElems) ∧ t.ne 0 = m * (2 * (h * tt.blockElems)) ∧
      ∀ g, weightSlice tt t g = (range (t.ne 1)).flatMap fun r =>
        (range (m * (h * tt.blockBytes))).map fun y =>
          r * (m * (2 * (h * tt.blockBytes))) + pick (h * tt.blockBytes) g y := by
  have hbe := typeTraits_pos htt
  rw [hsplit] at hdiv
  obtain ⟨⟨m, hm⟩, h, hh⟩ := hdiv
  have hperiod : period = 2 * (h * tt.blockElems) := by
    rw [hh]
    ring
  subst hperiod
  rw [splitOf] at hsplit
  split at hsplit
  · cases hsplit
  · cases hsplit
  · next hdim =>
    have hperiod : (dnStride t.name).period = 2 * (h * tt.blockElems) := Split.cols.inj hsplit
    have hpos : 0 < (dnStride t.name).period := dnStride_period_pos (by rw [hdim]; nofun)
    rw [Nat.mul_comm] at hm
    refine ⟨m, h, rfl, hm, fun g => ?_⟩
    simp only [weightSlice, weightSliceBy, hdim]
    rw [hperiod, hm]
    refine sliceCols_eq hbe (Nat.pos_of_ne_zero fun h0 => ?_) _ g
    rw [hperiod, h0] at hpos
    omega
  · next hdim =>
    split at hsplit
    · cases hsplit
    · cases hsplit
    · next hax =>
      have hne : t.ne 0 = 2 * (h * tt.blockElems) := Split.cols.inj hsplit
      refine ⟨1, h, rfl, by rw [hne, Nat.one_mul], fun g => ?_⟩
      have hrow : rowBytes tt (t.ne 0) = 2 * (h * tt.blockBytes) := by
        have hassoc : 2 * (h * tt.blockElems) = 2 * h * tt.blockElems := by ring
        rw [rowBytes, hne, hassoc, Nat.mul_div_cancel _ hbe]
        ring
      simp only [weightSlice, weightSliceBy, hdim, hax]
      rw [hrow]
      exact sliceHalfCols_eq _ _ g

end Picks

/-! ## Decoding -/

section Decode

variable {B R : Type*} {tt : Gguf.TypeTraits} {t : Gguf.TensorInfo}

/-- Entry `(r, c)` of a matrix as the GEMVs address it: row `r` starts at byte
`r * (ncols / block_elems) * block_bytes`, and `dq` decodes a quant block. -/
def entry (tt : Gguf.TypeTraits) (dq : (Fin tt.blockBytes → B) → ℕ → R) (ncols : ℕ) (bytes : ℕ → B)
    (r c : ℕ) : R :=
  dq (fun k => bytes (r * rowBytes tt ncols + c / tt.blockElems * tt.blockBytes + k))
    (c % tt.blockElems)

/-- What a GPU has uploaded. -/
def uploaded (data : ℕ → B) (slice : List ℕ) (y : ℕ) : B := data (slice.getD y 0)

/-- A GEMV in exact arithmetic. -/
def gemv [CommSemiring R] (tt : Gguf.TypeTraits) (dq : (Fin tt.blockBytes → B) → ℕ → R) (ncols : ℕ)
    (bytes : ℕ → B) (x : ℕ → R) (r : ℕ) : R :=
  ((range ncols).map fun c => entry tt dq ncols bytes r c * x c).sum

theorem uploaded_of_getElem? {data : ℕ → B} {slice : List ℕ} {y off : ℕ}
    (h : slice[y]? = some off) : uploaded data slice y = data off := by
  rw [uploaded, getD_eq_getElem?_getD, h, Option.getD_some]

/-- A byte of an entry lies in its row. -/
theorem blockByte_lt {be bb n c k : ℕ} (hc : c < n * be) (hk : k < bb) :
    c / be * bb + k < n * bb := by
  have hlt : c / be < n := Nat.div_lt_of_lt_mul (by rwa [Nat.mul_comm])
  have hle : (c / be + 1) * bb ≤ n * bb := Nat.mul_le_mul_right bb hlt
  rw [Nat.add_mul, Nat.one_mul] at hle
  omega

/-- Of picked bytes of rows, local row `i` decodes to the picked row. -/
theorem entry_picked_rows {m h g ne0 i c : ℕ} {slice : List ℕ} (hblocks : tt.blockElems ∣ ne0)
    (hslice : slice = (range (m * (h * rowBytes tt ne0))).map (pick (h * rowBytes tt ne0) g))
    (dq : (Fin tt.blockBytes → B) → ℕ → R) (data : ℕ → B) (hi : i < m * h) (hc : c < ne0) :
    entry tt dq ne0 (uploaded data slice) i c = entry tt dq ne0 data (pick h g i) c := by
  have hrow : c < ne0 / tt.blockElems * tt.blockElems := by
    rwa [Nat.div_mul_cancel hblocks]
  rw [entry, entry]
  congr 1
  funext k
  rw [Nat.add_assoc, Nat.add_assoc, hslice]
  apply uploaded_of_getElem?
  exact getElem?_map_pick g hi (blockByte_lt hrow k.isLt)

/-- Of picked scalars, local element `i` decodes to the picked one. -/
theorem entry_picked_elems {m h g i : ℕ} {slice : List ℕ} (hbe : tt.blockElems = 1)
    (hslice : slice = (range (m * (h * tt.blockBytes))).map (pick (h * tt.blockBytes) g))
    (dq : (Fin tt.blockBytes → B) → ℕ → R) (data : ℕ → B) (hi : i < m * h) (n n' : ℕ) :
    entry tt dq n (uploaded data slice) 0 i = entry tt dq n' data 0 (pick h g i) := by
  rw [entry, entry, hbe, Nat.mod_one, Nat.mod_one]
  congr 1
  funext k
  rw [Nat.zero_mul, Nat.zero_mul, Nat.zero_add, Nat.zero_add, Nat.div_one, Nat.div_one, hslice]
  apply uploaded_of_getElem?
  exact getElem?_map_pick g hi k.isLt

/-- Of picked quant blocks, local column `c` of every row decodes to the picked column. -/
theorem entry_picked_cols {m h g ne1 r c : ℕ} {slice : List ℕ} (hbe : 0 < tt.blockElems)
    (hslice : slice = (range ne1).flatMap fun r => (range (m * (h * tt.blockBytes))).map fun y =>
      r * (m * (2 * (h * tt.blockBytes))) + pick (h * tt.blockBytes) g y)
    (dq : (Fin tt.blockBytes → B) → ℕ → R) (data : ℕ → B) (hr : r < ne1)
    (hc : c < m * (h * tt.blockElems)) :
    entry tt dq (m * (h * tt.blockElems)) (uploaded data slice) r c =
      entry tt dq (m * (2 * (h * tt.blockElems))) data r (pick (h * tt.blockElems) g c) := by
  have hrow : rowBytes tt (m * (2 * (h * tt.blockElems))) = m * (2 * (h * tt.blockBytes)) := by
    have hassoc : m * (2 * (h * tt.blockElems)) = m * (2 * h) * tt.blockElems := by ring
    rw [rowBytes, hassoc, Nat.mul_div_cancel _ hbe]
    ring
  have hlocal : rowBytes tt (m * (h * tt.blockElems)) = m * (h * tt.blockBytes) := by
    rw [rowBytes, ← Nat.mul_assoc, Nat.mul_div_cancel _ hbe, Nat.mul_assoc]
  -- the picked column lies in the picked quant block, at the same place
  have hblock : pick (h * tt.blockElems) g c / tt.blockElems = pick h g (c / tt.blockElems) :=
    pick_mul_div hbe h g c
  have hplace : pick (h * tt.blockElems) g c % tt.blockElems = c % tt.blockElems :=
    pick_mul_mod hbe h g c
  rw [entry, entry, hblock, hplace, hrow, hlocal, hslice]
  congr 1
  funext k
  have hz : c / tt.blockElems * tt.blockBytes + k < m * (h * tt.blockBytes) := by
    rw [← Nat.mul_assoc] at hc ⊢
    exact blockByte_lt hc k.isLt
  rw [Nat.add_assoc, Nat.add_assoc, ← pick_mul_add k.isLt]
  exact uploaded_of_getElem? (getElem?_flatMap_range_map _ hr hz)

/-- **Rows**: local row `i` decodes to the picked row. -/
theorem entry_rows {period : ℕ} (hmat : IsMatrix tt t) (hsplit : splitOf t = .rows period)
    (hdiv : (splitOf t).Divides tt t) (dq : (Fin tt.blockBytes → B) → ℕ → R) (data : ℕ → B) (g : ℕ)
    {i c : ℕ} (hi : i < t.ne 1 / 2) (hc : c < t.ne 0) :
    entry tt dq (t.ne 0) (uploaded data (weightSlice tt t g)) i c =
      entry tt dq (t.ne 0) data (pick (period / 2) g i) c := by
  obtain ⟨m, h, rfl, hm, hslice⟩ := weightSlice_rows hmat hsplit hdiv
  rw [hm, half_periods] at hi
  rw [Nat.mul_div_cancel_left h (by decide)]
  exact entry_picked_rows hmat.blocks (hslice g) dq data hi hc

/-- **Vectors**: local element `i` decodes to the picked element. -/
theorem entry_elems {period : ℕ} (htt : Gguf.typeTraits t.type = some tt)
    (hsplit : splitOf t = .elems period) (hdiv : (splitOf t).Divides tt t)
    (dq : (Fin tt.blockBytes → B) → ℕ → R) (data : ℕ → B) (g : ℕ) {i : ℕ} (hi : i < t.ne 0 / 2) :
    entry tt dq (t.ne 0 / 2) (uploaded data (weightSlice tt t g)) 0 i =
      entry tt dq (t.ne 0) data 0 (pick (period / 2) g i) := by
  obtain ⟨m, h, rfl, hm, hbe, hslice⟩ := weightSlice_elems htt hsplit hdiv
  rw [hm, half_periods] at hi
  rw [Nat.mul_div_cancel_left h (by decide)]
  exact entry_picked_elems hbe (hslice g) dq data hi _ _

/-- Columns: local column `c` of every row decodes to the picked column. A run of columns is a whole
number of quant blocks, so that no block is torn apart. -/
theorem entry_cols {period : ℕ} (htt : Gguf.typeTraits t.type = some tt)
    (hsplit : splitOf t = .cols period) (hdiv : (splitOf t).Divides tt t)
    (dq : (Fin tt.blockBytes → B) → ℕ → R) (data : ℕ → B) (g : ℕ) {r c : ℕ} (hr : r < t.ne 1)
    (hc : c < t.ne 0 / 2) :
    entry tt dq (t.ne 0 / 2) (uploaded data (weightSlice tt t g)) r c =
      entry tt dq (t.ne 0) data r (pick (period / 2) g c) := by
  obtain ⟨m, h, rfl, hm, hslice⟩ := weightSlice_cols htt hsplit hdiv
  rw [hm, half_periods] at hc ⊢
  rw [Nat.mul_div_cancel_left _ (by decide)]
  exact entry_picked_cols (typeTraits_pos htt) (hslice g) dq data hr hc

/-- **Columns**: the products with the two slices add up to the product with the matrix. -/
theorem gemv_cols [CommSemiring R] {period : ℕ} (htt : Gguf.typeTraits t.type = some tt)
    (hsplit : splitOf t = .cols period) (hdiv : (splitOf t).Divides tt t)
    (dq : (Fin tt.blockBytes → B) → ℕ → R) (data : ℕ → B) (x : ℕ → R) {r : ℕ} (hr : r < t.ne 1) :
    gemv tt dq (t.ne 0 / 2) (uploaded data (weightSlice tt t 0))
      (fun c => x (pick (period / 2) 0 c)) r
      + gemv tt dq (t.ne 0 / 2) (uploaded data (weightSlice tt t 1))
        (fun c => x (pick (period / 2) 1 c)) r = gemv tt dq (t.ne 0) data x r := by
  have hside : ∀ g, gemv tt dq (t.ne 0 / 2) (uploaded data (weightSlice tt t g))
      (fun c => x (pick (period / 2) g c)) r = ((range (t.ne 0 / 2)).map fun c =>
        entry tt dq (t.ne 0) data r (pick (period / 2) g c) * x (pick (period / 2) g c)).sum := by
    intro g
    rw [gemv]
    congr 1
    refine map_congr_left fun c hc => ?_
    rw [entry_cols htt hsplit hdiv dq data g hr (mem_range.mp hc)]
  obtain ⟨m, h, rfl, hm, -⟩ := weightSlice_cols htt hsplit hdiv
  have hhalf : t.ne 0 / 2 = m * (h * tt.blockElems) := by
    rw [hm, half_periods]
  rw [hside, hside, hhalf, Nat.mul_div_cancel_left _ (by decide), gemv]
  have hsum := sum_pick (fun c => entry tt dq (t.ne 0) data r c * x c) m (h * tt.blockElems)
  rwa [← hm] at hsum

/-- The slices of a weight that is not mirrored partition its bytes. -/
theorem weightSlice_perm (htt : Gguf.typeTraits t.type = some tt) (hmat : IsMatrix tt t)
    (hdiv : (splitOf t).Divides tt t) (hmirror : splitOf t ≠ .mirror) :
    weightSlice tt t 0 ++ weightSlice tt t 1 ~ range t.nbytes := by
  rcases hsplit : splitOf t with _ | period | period | period
  · exact absurd hsplit hmirror
  · obtain ⟨m, h, -, hm, hslice⟩ := weightSlice_rows hmat hsplit hdiv
    have hbytes : t.nbytes = m * (2 * (h * rowBytes tt (t.ne 0))) := by
      rw [hmat.nbytes, hm]
      ring
    rw [hslice, hslice, hbytes]
    exact range_perm m _
  · have hone : t.ne 1 = 1 := by
      rw [hsplit] at hdiv
      exact hdiv.1
    obtain ⟨m, h, -, hm, hbe, hslice⟩ := weightSlice_elems htt hsplit hdiv
    have hbytes : t.nbytes = m * (2 * (h * tt.blockBytes)) := by
      rw [hmat.nbytes, hone, rowBytes, hbe, Nat.div_one, hm]
      ring
    rw [hslice, hslice, hbytes]
    exact range_perm m _
  · obtain ⟨m, h, -, hm, hslice⟩ := weightSlice_cols htt hsplit hdiv
    have hrow : rowBytes tt (t.ne 0) = m * (2 * (h * tt.blockBytes)) := by
      have hassoc : m * (2 * (h * tt.blockElems)) = m * (2 * h) * tt.blockElems := by ring
      rw [rowBytes, hm, hassoc, Nat.mul_div_cancel _ (typeTraits_pos htt)]
      ring
    rw [hslice, hslice, hmat.nbytes, hrow, ← flatMap_copy (t.ne 1)]
    refine (flatMap_append_perm (range (t.ne 1)) _ _).trans ?_
    refine Perm.flatMap (Perm.refl _) fun r _ => ?_
    have hperm := (range_perm m (h * tt.blockBytes)).map
      (r * (m * (2 * (h * tt.blockBytes))) + ·)
    rw [map_append, map_map, map_map] at hperm
    exact hperm

/-- **Slicing is a partition that the GEMVs can consume.** The slices of a weight that is not
mirrored cover each of its bytes once; the rows, or elements, of a row split decode to the picked
ones; and the products with the slices of a column split add up to the product with the matrix. -/
theorem weight_slice_splits [CommSemiring R] (htt : Gguf.typeTraits t.type = some tt)
    (hmat : IsMatrix tt t) (hdiv : (splitOf t).Divides tt t)
    (dq : (Fin tt.blockBytes → B) → ℕ → R) (data : ℕ → B) :
    (splitOf t ≠ .mirror → weightSlice tt t 0 ++ weightSlice tt t 1 ~ range t.nbytes) ∧
    (∀ period, splitOf t = .rows period → ∀ g < 2, ∀ i < t.ne 1 / 2, ∀ c < t.ne 0,
      entry tt dq (t.ne 0) (uploaded data (weightSlice tt t g)) i c =
        entry tt dq (t.ne 0) data (pick (period / 2) g i) c) ∧
    (∀ period, splitOf t = .elems period → ∀ g < 2, ∀ i < t.ne 0 / 2,
      entry tt dq (t.ne 0 / 2) (uploaded data (weightSlice tt t g)) 0 i =
        entry tt dq (t.ne 0) data 0 (pick (period / 2) g i)) ∧
    ∀ period, splitOf t = .cols period → ∀ (x : ℕ → R), ∀ r < t.ne 1,
      gemv tt dq (t.ne 0 / 2) (uploaded data (weightSlice tt t 0))
          (fun c => x (pick (period / 2) 0 c)) r +
        gemv tt dq (t.ne 0 / 2) (uploaded data (weightSlice tt t 1))
          (fun c => x (pick (period / 2) 1 c)) r = gemv tt dq (t.ne 0) data x r := by
  refine ⟨weightSlice_perm htt hmat hdiv, ?_, ?_, ?_⟩
  · exact fun period hsplit g _ i hi c hc => entry_rows hmat hsplit hdiv dq data g hi hc
  · exact fun period hsplit g _ i hi => entry_elems htt hsplit hdiv dq data g hi
  · exact fun period hsplit x r hr => gemv_cols htt hsplit hdiv dq data x hr

end Decode

/-- Two rows of an output projection over two periods of columns, in blocks of 16 entries. -/
def outWeight : Gguf.TensorInfo where
  name := nameOf "blk.0.ssm_out.weight"
  type := 42
  ne d := if d = 0 then 4096 else if d = 1 then 2 else 1
  offset := 0
  nbytes := 5120

/-- An entry of a block: half a byte, times the first byte. -/
def outEntry (b : Fin 10 → ℤ) (c : ℕ) : ℤ :=
  b (Fin.ofNat 10 0) * (b (Fin.ofNat 10 (2 + c / 2)) / 16 ^ (c % 2) % 16 - 8)

theorem weight_slice_splits_out :
    weightSlice ⟨"q4_0_ar16", 16, 10⟩ outWeight 0 ++ weightSlice ⟨"q4_0_ar16", 16, 10⟩ outWeight 1 ~
        range 5120 ∧
      ∀ r < 2,
        gemv ⟨"q4_0_ar16", 16, 10⟩ outEntry 2048
            (uploaded (fun y : ℕ => (y % 251 : ℤ)) (weightSlice ⟨"q4_0_ar16", 16, 10⟩ outWeight 0))
            (fun c => pick 1024 0 c) r +
          gemv ⟨"q4_0_ar16", 16, 10⟩ outEntry 2048
            (uploaded (fun y : ℕ => (y % 251 : ℤ)) (weightSlice ⟨"q4_0_ar16", 16, 10⟩ outWeight 1))
            (fun c => pick 1024 1 c) r =
        gemv ⟨"q4_0_ar16", 16, 10⟩ outEntry 4096 (fun y : ℕ => (y % 251 : ℤ)) (fun c => c) r := by
  have hsplit : splitOf outWeight = .cols 2048 := rfl
  have hdiv : (splitOf outWeight).Divides ⟨"q4_0_ar16", 16, 10⟩ outWeight := by
    rw [hsplit]
    exact ⟨by decide, by decide⟩
  have h := weight_slice_splits rfl ⟨by decide, rfl⟩ hdiv outEntry fun y : ℕ => (y % 251 : ℤ)
  refine ⟨h.1 ?_, h.2.2.2 2048 hsplit fun c => c⟩
  rw [hsplit]
  nofun

end Megakernel
