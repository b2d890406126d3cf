import Megakernel.Host
import Megakernel.Loops
import Mathlib.Algebra.Order.Monoid.WithTop

/-!
# The KV window of a pass

What `k0/harness.cpp` allocates for the attention layers, what
`Runtime::set_pass_inputs` writes before a pass, and which cache rows and mask
words the chunks of OP_FATTN_DECODE (`k0/ops/attn.cuh`) load for it.

The caches have `n_ctx` rows, the window of the pass at position `pos` is
`pos + 1` rows padded up to 256, and the chunks load the whole window. So the
loads stay inside the allocation just if the block of 256 rows that `pos` lies in
is allocated whole (`accesses_in_bounds_iff`); the mask is padded like the window
and never read outside.

Two paths are covered by one set of definitions, the single GPU and the pair: they differ in the
width of a cache row and in the number of kv heads, and in nothing else that a pass writes or reads.
-/

namespace Megakernel

open Loops

/-- A value as a 32-bit unsigned register holds it. -/
def u32 (x : ℕ) : ℕ := x % 2 ^ 32

theorem u32_eq {x : ℕ} (h : x < 2 ^ 32) : u32 x = x := Nat.mod_eq_of_lt h

/-! ## Allocation -/

/-- The two ways of running the model: on one GPU, or split over two. -/
inductive Path : Type where
  /-- `Runtime` -/
  | single
  /-- `GpuCtx` -/
  | dual
  deriving DecidableEq

/-- `N_EMBD_GQA`: the elements of a cache row of the whole model. -/
def nEmbdGqa : ℕ := 1024

/-- `MK_ATTN_HD` -/
def attnHd : ℕ := 256

/-- The elements of a cache row on one GPU. -/
def Path.kvRow : Path → ℕ
  | .single => nEmbdGqa
  | .dual => nEmbdGqa / 2

/-- The kv heads of one GPU. -/
def Path.kvHeads (path : Path) : ℕ := path.kvRow / attnHd

/-- `N_LAYER` -/
def nLayer : ℕ := 64

/-- `is_attn_layer` -/
def isAttnLayer (il : ℕ) : Bool := il % 4 == 3

/-- The attention layers in the order of the trunk. -/
def attnLayers : List ℕ := (List.range nLayer).filter isAttnLayer

/-- A device: `cudaMalloc` gives out at most the memory it has. -/
structure Device : Type where
  /-- bytes of device memory -/
  mem : ℕ
  /-- far beyond any device -/
  mem_lt : mem < 2 ^ 44

/-- The bytes of one cache of one layer: `n_ctx` rows of f16. -/
def cacheBytes (path : Path) (nCtx : ℕ) : ℕ := nCtx * path.kvRow * 2

/-- `mask_cap`: the f16 entries of the mask. -/
def maskCap (nCtx : ℕ) : ℕ := padUp nCtx 256

/-- The harness accepts `--n-ctx`: the caches of all attention layers and the mask fit. Nothing else
is asked of `n_ctx`, and in particular not that it be a multiple of 256. -/
def Accepts (dev : Device) (path : Path) (nCtx : ℕ) : Prop :=
  1 ≤ nCtx ∧ attnLayers.length * 2 * cacheBytes path nCtx + maskCap nCtx * 2 ≤ dev.mem

theorem Accepts.lt {dev : Device} {path : Path} {nCtx : ℕ} (h : Accepts dev path nCtx) :
    nCtx < 2 ^ 29 := by
  have hmem := h.2.trans_lt dev.mem_lt
  have hlen : attnLayers.length = 16 := by decide
  have hrow : 512 ≤ path.kvRow := by cases path <;> decide
  have hbytes : nCtx * 512 ≤ nCtx * path.kvRow := Nat.mul_le_mul_left nCtx hrow
  rw [hlen, cacheBytes] at hmem
  omega

/-! ## The inputs of a pass -/

variable {F : Type*}

/-- The cells `set_pass_inputs` writes. The mask holds f16 values, of which only zero and `-inf` are
used. What it does not overwrite stays from the passes before. -/
structure PassCells (F : Type*) : Type _ where
  /-- `positions`, the M-RoPE ids -/
  positions : Fin 4 → ℕ
  /-- `kv_row` -/
  kvRow : ℕ
  /-- `n_kv` -/
  nKv : ℕ
  /-- `mask_f16` -/
  mask : ℕ → WithBot F
  /-- `fattn_error` -/
  fattnError : ℕ

/-- F16_ZERO -/
def f16Zero [Zero F] : WithBot F := 0

/-- F16_NEG_INF -/
def f16NegInf : WithBot F := ⊥

/-- `Runtime::set_pass_inputs`: the padded window and the new cells, or the exception when the
position is too far for the mask. In the window the mask is zero up to the position and `-inf`
behind it. -/
def setPassInputs [Zero F] (cap pos : ℕ) (c : PassCells F) : Except String (ℕ × PassCells F) :=
  let nPast := pos
  let nKv := padUp (nPast + 1) 256
  if cap < nKv then .error "mask: n_kv past n_ctx padding cap"
  else .ok (nKv,
    { positions := fun _ => u32 pos
      kvRow := pos
      nKv := u32 nKv
      mask := fun j =>
        if j < nKv then if j ≤ nPast then f16Zero else f16NegInf else c.mask j
      fattnError := 0 })

/-- The cells as allocated, filled with zeros. -/
def PassCells.zero [Zero F] : PassCells F := ⟨fun _ => 0, 0, 0, fun _ => f16Zero, 0⟩

/-- `gpu_set_inputs` does the same for one GPU of the pair. -/
def gpuSetInputs [Zero F] (cap pos : ℕ) (c : PassCells F) : Except String (ℕ × PassCells F) :=
  setPassInputs cap pos c

/-- The rows of the window. -/
theorem padUp_pos (pos : ℕ) : padUp (pos + 1) 256 = (pos / 256 + 1) * 256 := by
  rw [padUp]
  omega

/-- The window of a position inside the context fits the mask. -/
theorem window_le_maskCap {nCtx pos : ℕ} (hpos : pos < nCtx) : padUp (pos + 1) 256 ≤ maskCap nCtx :=
  padUp_le (by decide) (dvd_padUp nCtx 256) ((Nat.succ_le_of_lt hpos).trans
    (le_padUp _ (by decide)))

/-- What `set_pass_inputs` leaves in the cells. -/
theorem setPassInputs_ok [Zero F] {cap pos w : ℕ} {c c' : PassCells F}
    (h : setPassInputs cap pos c = .ok (w, c')) :
    w ≤ cap ∧ w = padUp (pos + 1) 256 ∧ c'.kvRow = pos ∧ c'.nKv = u32 w ∧ c'.fattnError = 0 ∧
      ∀ j < w, c'.mask j = if j ≤ pos then f16Zero else f16NegInf := by
  rw [setPassInputs] at h
  split at h
  · cases h
  · next hcap =>
    cases h
    refine ⟨Nat.le_of_not_lt hcap, rfl, rfl, rfl, rfl, ?_⟩
    intro j hj
    exact if_pos hj

/-- Inside the context it does not throw. -/
theorem exists_setPassInputs [Zero F] {nCtx pos : ℕ} (hpos : pos < nCtx) (c : PassCells F) :
    ∃ w c', setPassInputs (maskCap nCtx) pos c = .ok (w, c') := by
  have hcap := window_le_maskCap hpos
  rw [setPassInputs, if_neg (Nat.not_lt.mpr hcap)]
  exact ⟨_, _, rfl⟩

/-! ## The chunks of a window -/

/-- MK_FATTN_TILE -/
def fattnTile : ℕ := 32

/-- `clen`, in 32-bit arithmetic: an equal share of the window, rounded up to whole tiles. The sums
wrap for windows near the range of a register. -/
def clen (nKv nchunks : ℕ) : ℕ :=
  u32 (u32 (u32 (nKv + nchunks - 1) / nchunks + fattnTile - 1) / fattnTile * fattnTile)

/-- `kv0` -/
def kv0 (nKv nchunks chunk : ℕ) : ℕ := min (u32 (chunk * clen nKv nchunks)) nKv

/-- `kv1` -/
def kv1 (nKv nchunks chunk : ℕ) : ℕ :=
  min (u32 (kv0 nKv nchunks chunk + clen nKv nchunks)) nKv

/-- The `t0` of the tile loop of a chunk. -/
def tiles (nKv nchunks chunk : ℕ) : List ℕ :=
  forRange (kv0 nKv nchunks chunk) (kv1 nKv nchunks chunk) fattnTile

/-- The cache rows that `mk_load_kv_slice` loads in a chunk, tile by tile. A row is loaded whether
or not the mask hides it. -/
def rowsLoaded (nKv nchunks chunk : ℕ) : List ℕ :=
  (tiles nKv nchunks chunk).flatMap fun t0 =>
    ((List.range fattnTile).map (t0 + ·)).filter (· < kv1 nKv nchunks chunk)

/-- The first entries `j` of the mask words a chunk loads; a word holds the entries `j` and
`j + 1`. -/
def maskWords (nKv nchunks chunk : ℕ) : List ℕ :=
  (tiles nKv nchunks chunk).flatMap fun t0 =>
    ((List.range (fattnTile / 2)).map (t0 + 2 * ·)).filter (· < kv1 nKv nchunks chunk)

/-- The tiles of a chunk that starts at a multiple of the tile. -/
theorem mem_tiles_of_dvd {nKv nchunks c t0 : ℕ} (hdvd : fattnTile ∣ kv0 nKv nchunks c) :
    t0 ∈ tiles nKv nchunks c ↔
      fattnTile ∣ t0 ∧ kv0 nKv nchunks c ≤ t0 ∧ t0 < kv1 nKv nchunks c := by
  rw [tiles, mem_forRange (by decide)]
  constructor
  · rintro ⟨hlt, k, rfl⟩
    exact ⟨Nat.dvd_add hdvd (Nat.dvd_mul_right _ k), Nat.le_add_right _ _, hlt⟩
  · rintro ⟨ht, hle, hlt⟩
    obtain ⟨k, hk⟩ := Nat.dvd_sub ht hdvd
    exact ⟨hlt, k, by omega⟩

/-- A window and a number of chunks so far below the limits that the 32-bit arithmetic does not
wrap. Every window that fits in memory is (`Fits.noWrap`). -/
structure NoWrap (nKv nchunks : ℕ) : Prop where
  pos : 0 < nchunks
  lt : 2 * nKv + 33 * nchunks < 2 ^ 32

section NoWrap

variable {nKv nchunks : ℕ}

theorem NoWrap.clen_eq (h : NoWrap nKv nchunks) :
    clen nKv nchunks = chunkLen fattnTile nKv nchunks := by
  have hpos := h.pos
  have hlt := h.lt
  have hdiv : (nKv + nchunks - 1) / nchunks ≤ nKv + nchunks - 1 := Nat.div_le_self _ _
  have htile : fattnTile = 32 := rfl
  rw [clen, chunkLen, padUp, u32_eq (x := nKv + nchunks - 1) (by omega)]
  generalize (nKv + nchunks - 1) / nchunks = share at hdiv ⊢
  have hround := Nat.div_mul_le_self (share + fattnTile - 1) fattnTile
  rw [u32_eq (x := share + fattnTile - 1) (by omega), u32_eq (by omega)]

theorem NoWrap.kv0_eq (h : NoWrap nKv nchunks) {c : ℕ} (hc : c < nchunks) :
    kv0 nKv nchunks c = chunkLo fattnTile nKv nchunks c := by
  have hle : c * chunkLen fattnTile nKv nchunks ≤ nKv + nchunks * (fattnTile + 1) :=
    mul_chunkLen_le (by decide) h.pos hc.le
  have hlt := h.lt
  have htile : fattnTile = 32 := rfl
  rw [htile] at hle ⊢
  rw [kv0, h.clen_eq, htile, u32_eq (by omega), chunkLo]

theorem NoWrap.kv1_eq (h : NoWrap nKv nchunks) {c : ℕ} (hc : c < nchunks) :
    kv1 nKv nchunks c = chunkHi fattnTile nKv nchunks c := by
  have hlen : chunkLen fattnTile nKv nchunks < (nKv + nchunks - 1) / nchunks + fattnTile :=
    padUp_lt _ (by decide)
  have hdiv : (nKv + nchunks - 1) / nchunks ≤ nKv + nchunks - 1 := Nat.div_le_self _ _
  have hlo : chunkLo fattnTile nKv nchunks c ≤ nKv := Nat.min_le_right _ _
  have hlt := h.lt
  have hpos := h.pos
  have htile : fattnTile = 32 := rfl
  rw [kv1, h.kv0_eq hc, h.clen_eq, chunkHi, u32_eq (by omega)]

end NoWrap

/-- A padded window and a number of chunks as the harness accepts them. -/
structure Fits (nKv nchunks : ℕ) : Prop where
  pos : 0 < nchunks
  chunks_lt : nchunks < 2 ^ 16
  window_lt : nKv < 2 ^ 30
  whole : 256 ∣ nKv

section Fits

variable {nKv nchunks : ℕ}

theorem Fits.noWrap (h : Fits nKv nchunks) : NoWrap nKv nchunks := by
  have hc := h.chunks_lt
  have hw := h.window_lt
  exact ⟨h.pos, by omega⟩

theorem Fits.kv0_eq (h : Fits nKv nchunks) {c : ℕ} (hc : c < nchunks) :
    kv0 nKv nchunks c = chunkLo fattnTile nKv nchunks c := h.noWrap.kv0_eq hc

theorem Fits.kv1_eq (h : Fits nKv nchunks) {c : ℕ} (hc : c < nchunks) :
    kv1 nKv nchunks c = chunkHi fattnTile nKv nchunks c := h.noWrap.kv1_eq hc

theorem Fits.tile_dvd (h : Fits nKv nchunks) : fattnTile ∣ nKv :=
  Dvd.dvd.trans (by decide) h.whole

/-- The tiles of a chunk start at multiples of the tile. -/
theorem Fits.mem_tiles (h : Fits nKv nchunks) {c : ℕ} (hc : c < nchunks) {t0 : ℕ} :
    t0 ∈ tiles nKv nchunks c ↔
      fattnTile ∣ t0 ∧ kv0 nKv nchunks c ≤ t0 ∧ t0 < kv1 nKv nchunks c := by
  apply mem_tiles_of_dvd
  rw [h.kv0_eq hc]
  exact dvd_chunkLo h.tile_dvd c

/-- **A chunk loads exactly its rows.** -/
theorem Fits.mem_rowsLoaded (h : Fits nKv nchunks) {c : ℕ} (hc : c < nchunks) {row : ℕ} :
    row ∈ rowsLoaded nKv nchunks c ↔ kv0 nKv nchunks c ≤ row ∧ row < kv1 nKv nchunks c := by
  simp only [rowsLoaded, List.mem_flatMap, List.mem_filter, List.mem_map, List.mem_range,
    decide_eq_true_eq]
  constructor
  · rintro ⟨t0, ht0, ⟨t, -, rfl⟩, hlt⟩
    obtain ⟨-, hle, -⟩ := (h.mem_tiles hc).mp ht0
    exact ⟨hle.trans (Nat.le_add_right _ _), hlt⟩
  · rintro ⟨hle, hlt⟩
    have hmod := Nat.mod_lt row (y := fattnTile) (by decide)
    have hdvd : fattnTile ∣ kv0 nKv nchunks c := by
      rw [h.kv0_eq hc]
      exact dvd_chunkLo h.tile_dvd c
    refine ⟨row - row % fattnTile, (h.mem_tiles hc).mpr ⟨?_, ?_, ?_⟩, ⟨row % fattnTile, hmod, ?_⟩,
      hlt⟩
    · exact Nat.dvd_sub_mod row
    · obtain ⟨q, hq⟩ := hdvd
      have hdiv := Nat.div_add_mod row fattnTile
      have hq' : q ≤ row / fattnTile := (Nat.le_div_iff_mul_le (by decide)).mpr (by
        rw [Nat.mul_comm, ← hq]
        exact hle)
      have hmul := Nat.mul_le_mul_left fattnTile hq'
      omega
    · omega
    · exact Nat.sub_add_cancel (Nat.mod_le row fattnTile)

/-- Every row of the window is loaded by some chunk. -/
theorem Fits.exists_mem_rowsLoaded (h : Fits nKv nchunks) {row : ℕ} (hrow : row < nKv) :
    ∃ c < nchunks, row ∈ rowsLoaded nKv nchunks c := by
  have htile : 0 < fattnTile := by decide
  obtain ⟨c, ⟨hc, hmem⟩, -⟩ := existsUnique_chunk htile h.pos hrow
  refine ⟨c, hc, (h.mem_rowsLoaded hc).mpr ?_⟩
  rw [h.kv0_eq hc, h.kv1_eq hc]
  exact hmem

theorem Fits.lt_of_mem_rowsLoaded (h : Fits nKv nchunks) {c : ℕ} (hc : c < nchunks) {row : ℕ}
    (hrow : row ∈ rowsLoaded nKv nchunks c) : row < nKv :=
  ((h.mem_rowsLoaded hc).mp hrow).2.trans_le (Nat.min_le_right _ _)

/-- Both entries of a mask word lie in the window. -/
theorem Fits.lt_of_mem_maskWords (h : Fits nKv nchunks) {c : ℕ} (hc : c < nchunks) {j : ℕ}
    (hj : j ∈ maskWords nKv nchunks c) : j + 1 < nKv := by
  simp only [maskWords, List.mem_flatMap, List.mem_filter, List.mem_map, List.mem_range,
    decide_eq_true_eq] at hj
  obtain ⟨t0, ht0, ⟨i, -, rfl⟩, hlt⟩ := hj
  obtain ⟨hdvd, -, -⟩ := (h.mem_tiles hc).mp ht0
  have hlt' : t0 + 2 * i < nKv := hlt.trans_le (Nat.min_le_right _ _)
  have hw := h.whole
  have htile : fattnTile = 32 := rfl
  rw [htile] at hdvd
  omega

end Fits

/-! ## Accesses of a pass -/

/-- What a pass at a position reads and writes in the caches and the mask lies in the allocation, in
every chunk of every attention layer. -/
structure InBounds (path : Path) (nCtx nchunks : ℕ) (c : PassCells F) : Prop where
  /-- OP_FATTN_DECODE loads rows of `cache_k` and `cache_v` -/
  loads : ∀ kvh < path.kvHeads, ∀ chunk < nchunks, ∀ row ∈ rowsLoaded c.nKv nchunks chunk,
    row < nCtx ∧ (row * path.kvRow + kvh * attnHd + attnHd) * 2 ≤ cacheBytes path nCtx
  /-- and words of the mask -/
  mask : ∀ kvh < path.kvHeads, ∀ chunk < nchunks, ∀ j ∈ maskWords c.nKv nchunks chunk,
    j + 1 < maskCap nCtx
  /-- OP_KV_APPEND writes a row -/
  append : c.kvRow < nCtx

/-- The slice of a kv head lies in its row. -/
theorem slice_le {path : Path} {kvh : ℕ} (h : kvh < path.kvHeads) :
    kvh * attnHd + attnHd ≤ path.kvRow := by
  have hle : (kvh + 1) * attnHd ≤ path.kvRow :=
    (Nat.mul_le_mul_right attnHd h).trans (Nat.div_mul_le_self _ _)
  rwa [Nat.add_mul, Nat.one_mul] at hle

/-- The window of an accepted context is small enough for the 32-bit arithmetic. -/
theorem fits_window {dev : Device} {path : Path} {nCtx pos nchunks : ℕ}
    (hacc : Accepts dev path nCtx) (hpos : pos < nCtx) (hn : 0 < nchunks) (hn' : nchunks < 2 ^ 16) :
    u32 (padUp (pos + 1) 256) = padUp (pos + 1) 256 ∧ Fits (padUp (pos + 1) 256) nchunks := by
  have hlt := hacc.lt
  have hpad : padUp (pos + 1) 256 < pos + 1 + 256 := padUp_lt _ (by decide)
  exact ⟨u32_eq (by omega), hn, hn', by omega, dvd_padUp _ _⟩

section Accesses

variable [Zero F] {dev : Device} {path : Path} {nCtx pos nchunks w : ℕ} {c c' : PassCells F}

/-- Where the block of 256 rows is allocated whole, the accesses are in bounds. -/
theorem inBounds_of_le (hacc : Accepts dev path nCtx) (hpos : pos < nCtx) (hn : 0 < nchunks)
    (hn' : nchunks < 2 ^ 16) (hset : setPassInputs (maskCap nCtx) pos c = .ok (w, c'))
    (hle : padUp (pos + 1) 256 ≤ nCtx) : InBounds path nCtx nchunks c' := by
  obtain ⟨hcap, hw, hrow, hnKv, -, -⟩ := setPassInputs_ok hset
  obtain ⟨hu, hfits⟩ := fits_window hacc hpos hn hn'
  rw [hw, hu] at hnKv
  refine ⟨?_, ?_, ?_⟩
  · intro kvh hkvh chunk hchunk row hmem
    rw [hnKv] at hmem
    have hlt : row < nCtx := (hfits.lt_of_mem_rowsLoaded hchunk hmem).trans_le hle
    refine ⟨hlt, ?_⟩
    have hslice := slice_le hkvh
    have hrows := Nat.mul_le_mul_right path.kvRow (Nat.succ_le_of_lt hlt)
    rw [Nat.succ_mul] at hrows
    rw [cacheBytes]
    exact Nat.mul_le_mul_right 2 (by omega)
  · intro kvh _ chunk hchunk j hmem
    rw [hnKv] at hmem
    exact (hfits.lt_of_mem_maskWords hchunk hmem).trans_le (hw ▸ hcap)
  · rw [hrow]
    exact hpos

/-- **The accesses of a pass stay inside the allocation if and only if the block of 256 rows its
position lies in is allocated whole.** -/
theorem accesses_in_bounds_iff (hacc : Accepts dev path nCtx) (hpos : pos < nCtx)
    (hn : 0 < nchunks) (hn' : nchunks < 2 ^ 16)
    (hset : setPassInputs (maskCap nCtx) pos c = .ok (w, c')) :
    InBounds path nCtx nchunks c' ↔ (pos / 256 + 1) * 256 ≤ nCtx := by
  rw [← padUp_pos]
  refine ⟨fun h => ?_, inBounds_of_le hacc hpos hn hn' hset⟩
  obtain ⟨-, hw, -, hnKv, -, -⟩ := setPassInputs_ok hset
  obtain ⟨hu, hfits⟩ := fits_window hacc hpos hn hn'
  rw [hw, hu] at hnKv
  -- the last row of the window is loaded by some chunk
  have hwin := le_padUp (pos + 1) (m := 256) (by decide)
  have hlast : padUp (pos + 1) 256 - 1 < padUp (pos + 1) 256 := by omega
  obtain ⟨chunk, hchunk, hmem⟩ := hfits.exists_mem_rowsLoaded hlast
  rw [← hnKv] at hmem
  have hlt := (h.loads 0 (by cases path <;> decide) chunk hchunk _ hmem).1
  omega

end Accesses

/-- A device of 48 GiB. -/
def bigDevice : Device := ⟨48 * 2 ^ 30, by decide⟩

theorem accesses_in_bounds_512 :
    ∃ c : PassCells ℤ, setPassInputs (maskCap 512) 300 PassCells.zero = .ok (512, c) ∧
      InBounds .dual 512 72 c := by
  obtain ⟨w, c, hset⟩ := exists_setPassInputs (show 300 < 512 by decide) (PassCells.zero (F := ℤ))
  obtain ⟨-, rfl, -⟩ := setPassInputs_ok hset
  have hacc : Accepts bigDevice .dual 512 := ⟨by decide, by decide⟩
  refine ⟨c, hset, ?_⟩
  exact (accesses_in_bounds_iff hacc (by decide) (by decide)
    (by decide) hset).mpr (by decide)

/-- **A context that is not a multiple of 256 is left**: of 300 rows, chunk 9 of 72 loads the row
after the last in the pass at position 256. -/
theorem not_accesses_in_bounds :
    ∃ c : PassCells ℤ, Accepts bigDevice .single 300 ∧
      setPassInputs (maskCap 300) 256 PassCells.zero = .ok (512, c) ∧
      300 ∈ rowsLoaded c.nKv 72 9 ∧ ¬ InBounds .single 300 72 c := by
  have hmem : 300 ∈ rowsLoaded 512 72 9 := by decide
  refine ⟨_, ⟨by decide, by decide⟩, rfl, hmem, fun h => ?_⟩
  have hlt := (h.loads 0 (by decide) 9 (by decide) 300 hmem).1
  omega

end Megakernel
