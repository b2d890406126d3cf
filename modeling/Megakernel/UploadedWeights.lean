import Megakernel.ExactOps

/-!
# The weights that the GPUs read

A weight of the network is found in the file under its name, with the type that the op expects and
the shape of the network (`InFile`). One GPU uploads all of its bytes; of two GPUs each uploads what
`weight_slice` gives it. What an op reads as entries of its half are then entries of the whole: the
picked rows, the picked elements, the picked columns, or all of a mirrored weight.

The lemmas are stated for the entries as an op reads them, with the column counts of its own
arguments. So they can be used in a GEMV without a look at bytes.
-/

namespace Megakernel.Exact

open Schedule Halves List

/-- `upload` of a single GPU: the bytes of a weight; `blk.64.` is left out. -/
def wholeWeight (f : Gguf.File) (bytes : ℕ → UInt8) (name : Gguf.Bytes) : Option (List UInt8) :=
  if (nameOf "blk.64.").isPrefixOf name then none
  else (f.find name).map fun t => (copy 0 t.nbytes).map fun off => bytes (t.data + off)

/-- A weight of the graph is a matrix in the file, under the name and of the type and shape that the
network has for it. What the reader guarantees of sizes is a part of it. -/
structure InFile (f : Gguf.File) (w name : Gguf.Bytes) (tt : Gguf.TypeTraits) (ncols nrows : ℕ) :
    Prop where
  name : w = name
  loaded : (nameOf "blk.64.").isPrefixOf w = false
  tensor : ∃ t, f.find w = some t ∧ Gguf.typeTraits t.type = some tt ∧ IsMatrix tt t ∧
    t.ne 0 = ncols ∧ t.ne 1 = nrows

section Entries

variable {tt : Gguf.TypeTraits} {dq : (Fin tt.blockBytes → UInt8) → ℕ → ℝ} {f : ℕ → UInt8}
  {ncols n r c : ℕ}

/-- The bytes of an entry are in the rows. -/
theorem entry_congr {a b : ℕ → UInt8} (hblocks : tt.blockElems ∣ ncols) (hr : r < n)
    (hc : c < ncols)
    (h : ∀ y < n * rowBytes tt ncols, a y = b y) :
    entry tt dq ncols a r c = entry tt dq ncols b r c := by
  have hrow : c < ncols / tt.blockElems * tt.blockElems := by rwa [Nat.div_mul_cancel hblocks]
  rw [entry, entry]
  congr 1
  funext k
  apply h
  have hlt : c / tt.blockElems * tt.blockBytes + k < rowBytes tt ncols := blockByte_lt hrow k.isLt
  have hle : (r + 1) * rowBytes tt ncols ≤ n * rowBytes tt ncols := Nat.mul_le_mul_right _ hr
  rw [Nat.add_mul, Nat.one_mul] at hle
  omega

/-- Entries of bytes that have been uploaded. -/
theorem entry_map {l : List ℕ} (hlen : l.length = n * rowBytes tt ncols)
    (hblocks : tt.blockElems ∣ ncols) (hr : r < n) (hc : c < ncols) :
    entry tt dq ncols (fun y => (l.map f).getD y 0) r c = entry tt dq ncols (uploaded f l) r c := by
  refine entry_congr hblocks hr hc fun y hy => ?_
  rw [← hlen] at hy
  simp [uploaded, hy]

theorem entry_copy {nbytes : ℕ} (hlen : nbytes = n * rowBytes tt ncols)
    (hblocks : tt.blockElems ∣ ncols) (hr : r < n) (hc : c < ncols) :
    entry tt dq ncols (fun y => ((copy 0 nbytes).map f).getD y 0) r c =
      entry tt dq ncols f r c := by
  refine entry_congr hblocks hr hc fun y hy => ?_
  rw [← hlen] at hy
  simp [copy, hy]

/-- In the first row the length of the rows does not matter. -/
theorem entry_zero (a : ℕ → UInt8) (ncols ncols' : ℕ) :
    entry tt dq ncols a 0 c = entry tt dq ncols' a 0 c := by
  rw [entry, entry, Nat.zero_mul, Nat.zero_mul]

end Entries

namespace InFile

variable {f : Gguf.File} {bytes : ℕ → UInt8} {w name : Gguf.Bytes} {fmt : Format}
  {ncols nrows m h : ℕ} {g : Fin 2}

/-- What the two kinds of upload make of a weight: all of its bytes, or those that `weight_slice`
picks for GPU `g`. -/
theorem uploads (hw : InFile f w name fmt.tt ncols nrows) (bytes : ℕ → UInt8) : ∃ t, t.name = name ∧
    Gguf.typeTraits t.type = some fmt.tt ∧ IsMatrix fmt.tt t ∧ t.ne 0 = ncols ∧ t.ne 1 = nrows ∧
      wholeWeight f bytes w = some ((copy 0 t.nbytes).map fun off => bytes (t.data + off)) ∧
      ∀ g : Fin 2, uploadedWeight f bytes g w =
        some ((weightSlice fmt.tt t g).map fun off => bytes (t.data + off)) := by
  obtain ⟨hname, hloaded, t, hfind, htraits, hmat, hcols, hrows⟩ := hw
  have htname : t.name = w := by
    have := find?_some hfind
    simpa using this
  refine ⟨t, htname.trans hname, htraits, hmat, hcols, hrows, ?_, fun g => ?_⟩
  · simp [wholeWeight, hloaded, hfind]
  · simp [uploadedWeight, hloaded, hfind, htraits]

/-- **Rows**: the rows of a half are the picked rows. -/
theorem rows (fmt : Format) (hw : InFile f w name fmt.tt ncols nrows) {period : ℕ}
    (hsplit : ∀ t : Gguf.TensorInfo, t.name = name → t.ne 1 = nrows → splitOf t = .rows period)
    (hperiod : period = 2 * h) (hnrows : nrows = m * (2 * h)) :
    ∀ i < m * h, ∀ c < ncols, fmt.matrix ncols (uploadedWeight f bytes g w) i c =
      fmt.matrix ncols (wholeWeight f bytes w) (pick h g i) c := by
  intro i hi c hc
  obtain ⟨t, hname, htraits, hmat, hcols, hrows, hwhole, hup⟩ := hw.uploads bytes
  have hrow := hsplit t hname hrows
  have hdiv : (splitOf t).Divides fmt.tt t := by
    rw [hrow, hperiod]
    exact ⟨Nat.dvd_mul_right 2 h, by rw [hrows, hnrows]; exact Nat.dvd_mul_left _ m⟩
  have hlen : (weightSlice fmt.tt t g).length = m * h * rowBytes fmt.tt ncols := by
    obtain ⟨m', h', hh, hm, hslice⟩ := weightSlice_rows hmat hrow hdiv
    rw [hrows, hnrows, ← hh, hperiod] at hm
    obtain rfl : h = h' := by omega
    have hpos : 0 < 2 * h := by
      have := Nat.pos_of_lt_mul_left hi
      omega
    obtain rfl : m = m' := Nat.eq_of_mul_eq_mul_right hpos hm
    rw [hslice, length_map, length_range, hcols, Nat.mul_assoc]
  have hpick : pick h g i < nrows := by
    rw [hnrows]
    exact pick_lt g.isLt hi
  have hblocks := hmat.blocks
  have hentry := entry_rows hmat hrow hdiv fmt.dq (fun y => bytes (t.data + y)) g (i := i) (c := c)
    (by rw [hrows, hnrows, half_periods]; exact hi) (by rwa [hcols])
  have hnbytes : t.nbytes = nrows * rowBytes fmt.tt ncols := by rw [hmat.nbytes, hrows, hcols]
  rw [hcols] at hblocks hentry
  rw [hperiod, Nat.mul_div_cancel_left h (by decide)] at hentry
  rw [Format.matrix, Format.matrix, hup, hwhole]
  exact (entry_map hlen hblocks hi hc).trans (hentry.trans
    (entry_copy hnbytes hblocks hpick hc).symm)

/-- **Elements** of a vector, in rows of whatever length. -/
theorem elems (fmt : Format) (hw : InFile f w name fmt.tt ncols 1) {period : ℕ}
    (hsplit : ∀ t : Gguf.TensorInfo, t.name = name → splitOf t = .elems period)
    (hperiod : period = 2 * h) (hblock : fmt.tt.blockElems ∣ h) (hncols : ncols = m * (2 * h)) :
    Dealt h m g (fmt.matrix ncols (uploadedWeight f bytes g w) 0)
      (fmt.matrix ncols (wholeWeight f bytes w) 0) := by
  intro i hi
  obtain ⟨t, hname, htraits, hmat, hcols, hrows, hwhole, hup⟩ := hw.uploads bytes
  have helem := hsplit t hname
  have hdiv : (splitOf t).Divides fmt.tt t := by
    rw [helem, hperiod]
    exact ⟨hrows, by rw [hcols, hncols]; exact Nat.dvd_mul_left _ m, Nat.mul_dvd_mul_left 2 hblock⟩
  have hhalf : t.ne 0 / 2 = m * h := by rw [hcols, hncols, half_periods]
  obtain ⟨m', h', hh, hm, hbe, hslice⟩ := weightSlice_elems htraits helem hdiv
  have hlen : (weightSlice fmt.tt t g).length = 1 * rowBytes fmt.tt (m * h) := by
    rw [hcols, hncols, ← hh, hperiod] at hm
    obtain rfl : h = h' := by omega
    have hpos : 0 < 2 * h := by
      have := Nat.pos_of_lt_mul_left hi
      omega
    obtain rfl : m = m' := Nat.eq_of_mul_eq_mul_right hpos hm
    rw [hslice, length_map, length_range, rowBytes, hbe, Nat.div_one, Nat.one_mul, Nat.mul_assoc]
  have hone (n : ℕ) : fmt.tt.blockElems ∣ n := hbe ▸ one_dvd n
  have hpick : pick h g i < ncols := by
    rw [hncols]
    exact pick_lt g.isLt hi
  have hentry := entry_elems htraits helem hdiv fmt.dq (fun y => bytes (t.data + y)) g (i := i)
    (by rwa [hhalf])
  have hnbytes : t.nbytes = 1 * rowBytes fmt.tt ncols := by rw [hmat.nbytes, hrows, hcols]
  rw [hhalf, hcols, hperiod, Nat.mul_div_cancel_left h (by decide)] at hentry
  rw [Format.matrix, Format.matrix, hup, hwhole]
  exact (entry_zero _ _ _).trans ((entry_map hlen (hone _) Nat.one_pos hi).trans
    (hentry.trans (entry_copy hnbytes (hone _) Nat.one_pos hpick).symm))

/-- **Columns**: the columns of a half are the picked columns. -/
theorem cols (fmt : Format) (hw : InFile f w name fmt.tt ncols nrows) {period : ℕ}
    (hsplit : ∀ t : Gguf.TensorInfo, t.name = name → t.ne 0 = ncols → splitOf t = .cols period)
    (hperiod : period = 2 * h) (hblock : fmt.tt.blockElems ∣ h) (hncols : ncols = m * (2 * h)) :
    ∀ r < nrows, Dealt h m g (fmt.matrix (m * h) (uploadedWeight f bytes g w) r)
      (fmt.matrix ncols (wholeWeight f bytes w) r) := by
  intro r hr i hi
  obtain ⟨t, hname, htraits, hmat, hcols, hrows, hwhole, hup⟩ := hw.uploads bytes
  have hcol := hsplit t hname hcols
  have hdiv : (splitOf t).Divides fmt.tt t := by
    rw [hcol, hperiod]
    exact ⟨by rw [hcols, hncols]; exact Nat.dvd_mul_left _ m, Nat.mul_dvd_mul_left 2 hblock⟩
  have hhalf : t.ne 0 / 2 = m * h := by rw [hcols, hncols, half_periods]
  have hbe := typeTraits_pos htraits
  have hlen : (weightSlice fmt.tt t g).length = nrows * rowBytes fmt.tt (m * h) := by
    obtain ⟨m', h', hh, hm, hslice⟩ := weightSlice_cols htraits hcol hdiv
    rw [hcols, hncols, ← hh, hperiod] at hm
    have hh : h = h' * fmt.tt.blockElems := by omega
    have hpos : 0 < 2 * h := by
      have := Nat.pos_of_lt_mul_left hi
      omega
    obtain rfl : m = m' := Nat.eq_of_mul_eq_mul_right hpos hm
    have hrow : rowBytes fmt.tt (m * h) = m * (h' * fmt.tt.blockBytes) := by
      rw [rowBytes, hh, ← Nat.mul_assoc, Nat.mul_div_cancel _ hbe, Nat.mul_assoc]
    simp [hslice, hrow, hrows]
  have hpick : pick h g i < ncols := by
    rw [hncols]
    exact pick_lt g.isLt hi
  have hentry := entry_cols htraits hcol hdiv fmt.dq (fun y => bytes (t.data + y)) g
    (r := r) (c := i)
    (by rwa [hrows]) (by rwa [hhalf])
  have hnbytes : t.nbytes = nrows * rowBytes fmt.tt ncols := by rw [hmat.nbytes, hrows, hcols]
  have hblocks := hmat.blocks
  rw [hhalf, hcols, hperiod, Nat.mul_div_cancel_left h (by decide)] at hentry
  rw [hcols] at hblocks
  rw [Format.matrix, Format.matrix, hup, hwhole]
  exact (entry_map hlen (hblock.mul_left m) hr hi).trans
    (hentry.trans (entry_copy hnbytes hblocks hr hpick).symm)

/-- **Mirrored** weights are uploaded whole. -/
theorem mirrored (fmt : Format) (hw : InFile f w name fmt.tt ncols nrows)
    (hsplit : ∀ t : Gguf.TensorInfo, t.name = name → splitOf t = .mirror) :
    uploadedWeight f bytes g w = wholeWeight f bytes w := by
  obtain ⟨t, hname, -, -, -, -, hwhole, hup⟩ := hw.uploads bytes
  have hmirror := hsplit t hname
  have hslice : weightSlice fmt.tt t g = copy 0 t.nbytes := by
    rw [splitOf] at hmirror
    split at hmirror
    · cases hmirror
    · cases hmirror
    · cases hmirror
    · next hdim =>
      split at hmirror
      · next hax => simp only [weightSlice, weightSliceBy, hdim, hax]
      · cases hmirror
      · cases hmirror
  rw [hup, hwhole, hslice]

end InFile

end Megakernel.Exact
