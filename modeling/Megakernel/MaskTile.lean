import Megakernel.KvWindow

/-!
# Chunks and mask words

The chunk bounds of OP_FATTN_DECODE (`k0/ops/attn.cuh`) for every window and every number of
chunks, not only those the harness accepts: `clen` is rounded up by the number of chunks and
again to whole tiles, so that the last chunks may come out short or empty. In a tile, 16
threads stage the mask as words of two entries, and every lane reads its entry back.

In 32-bit arithmetic two sums can wrap besides the start of a chunk: the one that rounds up,
and the end of the last chunk that starts inside the window. Then positions of the window are
in no chunk (`AlignedPartition.sum_lt`, `AlignedPartition.end_lt`); in all other windows the
chunks are an aligned partition (`alignedPartition`).

The conditions are about two sums only, and both are necessary: for each of them there is a window
that violates it and loses a position. The windows of the harness are far below (`Fits.chunked`).
-/

namespace Megakernel

open Loops

/-! ## The mask of a tile -/

/-- The address of entry `j` of the mask. -/
def maskAddr (base j : ℕ) : ℕ := base + 2 * j

/-- The word at entry `j`, which is the low half. -/
def maskWord (mask : ℕ → BitVec 16) (j : ℕ) : BitVec 32 := mask (j + 1) ++ mask j

/-- What thread `tid` stages for the tile at `t0`. -/
def stagedWord (mask : ℕ → BitVec 16) (kv1 t0 tid : ℕ) : BitVec 32 :=
  if t0 + 2 * tid < kv1 then maskWord mask (t0 + 2 * tid) else 0

/-- `mask_t[lane]`, in the words of the tile. -/
def maskT (words : ℕ → BitVec 32) (lane : ℕ) : BitVec 16 :=
  (words (lane / 2)).extractLsb' (16 * (lane % 2)) 16

theorem maskT_even {words : ℕ → BitVec 32} {hi lo : BitVec 16} {i : ℕ} (h : words i = hi ++ lo) :
    maskT words (2 * i) = lo := by
  rw [maskT, Nat.mul_mod_right, Nat.mul_div_right i (by decide), h,
    BitVec.extractLsb'_append_eq_of_add_le (by decide)]
  exact BitVec.extractLsb'_eq_self

theorem maskT_odd {words : ℕ → BitVec 32} {hi lo : BitVec 16} {i : ℕ} (h : words i = hi ++ lo) :
    maskT words (2 * i + 1) = hi := by
  have hmod : (2 * i + 1) % 2 = 1 := by omega
  have hdiv : (2 * i + 1) / 2 = i := by omega
  rw [maskT, hmod, hdiv, h, BitVec.extractLsb'_append_eq_of_le (by decide)]
  exact BitVec.extractLsb'_eq_self

/-- **A lane reads the entry of its own position**: half of the lanes the low half of a staged word,
the others the high half. -/
theorem maskT_stagedWord (mask : ℕ → BitVec 16) {kv1 t0 lane : ℕ} (h : t0 + lane < kv1) :
    maskT (stagedWord mask kv1 t0) lane = mask (t0 + lane) := by
  obtain ⟨i, rfl | rfl⟩ := Nat.even_or_odd' lane
  · have hword : stagedWord mask kv1 t0 i = mask (t0 + 2 * i + 1) ++ mask (t0 + 2 * i) := if_pos h
    exact maskT_even hword
  · have hword : stagedWord mask kv1 t0 i = mask (t0 + 2 * i + 1) ++ mask (t0 + 2 * i) :=
      if_pos (Nat.lt_of_succ_lt h)
    exact maskT_odd hword

/-! ## The chunks -/

/-- What the chunks of a window are to be: in order, each starting at a multiple of the tile, and
each position of the window in exactly one. -/
structure AlignedPartition (nKv nchunks : ℕ) : Prop where
  ordered : ∀ c c', c < c' → c' < nchunks → kv1 nKv nchunks c ≤ kv0 nKv nchunks c'
  cover : ∀ j < nKv, ∃! c, c < nchunks ∧ kv0 nKv nchunks c ≤ j ∧ j < kv1 nKv nchunks c
  inside : ∀ c < nchunks, kv1 nKv nchunks c ≤ nKv
  aligned : ∀ c < nchunks, kv0 nKv nchunks c < kv1 nKv nchunks c → fattnTile ∣ kv0 nKv nchunks c
  /-- a mask word that is read has an aligned address and both entries in the window -/
  words : ∀ c < nchunks, ∀ t0 ∈ tiles nKv nchunks c, ∀ tid < fattnTile / 2,
    t0 + 2 * tid < kv1 nKv nchunks c →
      (∀ base, 4 ∣ base → 4 ∣ maskAddr base (t0 + 2 * tid)) ∧ t0 + 2 * tid + 1 < nKv
  lanes : ∀ c < nchunks, ∀ t0 ∈ tiles nKv nchunks c, ∀ lane < fattnTile,
    t0 + lane < kv1 nKv nchunks c → ∀ mask,
      maskT (stagedWord mask (kv1 nKv nchunks c) t0) lane = mask (t0 + lane)

/-- A window whose chunks start and end, as far as they have rows, below the range of 32 bits. It is
what the 32-bit arithmetic needs to agree with the exact one. -/
structure Chunked (nKv nchunks : ℕ) : Prop where
  pos : 0 < nchunks
  whole : 256 ∣ nKv
  sum_lt : nKv + nchunks - 1 < 2 ^ 32
  start_lt : ∀ c < nchunks, c * clen nKv nchunks < 2 ^ 32
  end_lt : ∀ c < nchunks, c * clen nKv nchunks < nKv →
    c * clen nKv nchunks + clen nKv nchunks < 2 ^ 32

section Chunked

variable {nKv nchunks c : ℕ}

/-- A share is no longer than the window. -/
theorem share_le (hpos : 0 < nchunks) (nKv : ℕ) : (nKv + nchunks - 1) / nchunks ≤ nKv := by
  obtain ⟨k, rfl⟩ := Nat.exists_eq_succ_of_ne_zero hpos.ne'
  refine Nat.lt_succ_iff.mp (Nat.div_lt_of_lt_mul ?_)
  rw [Nat.succ_mul, Nat.mul_succ]
  have := Nat.zero_le (k * nKv)
  omega

theorem Chunked.clen_eq (h : Chunked nKv nchunks) :
    clen nKv nchunks = chunkLen fattnTile nKv nchunks := by
  have hshare := share_le h.pos nKv
  have hsum := h.sum_lt
  have hpos := h.pos
  -- a multiple of 256 below the range leaves room for the rounding up to a tile
  obtain ⟨q, hq⟩ := h.whole
  have htile : fattnTile = 32 := rfl
  rw [clen, chunkLen, padUp, u32_eq h.sum_lt]
  generalize (nKv + nchunks - 1) / nchunks = share at hshare ⊢
  have hround := Nat.div_mul_le_self (share + fattnTile - 1) fattnTile
  rw [u32_eq (x := share + fattnTile - 1) (by omega), u32_eq (by omega)]

theorem Chunked.kv0_eq (h : Chunked nKv nchunks) (hc : c < nchunks) :
    kv0 nKv nchunks c = chunkLo fattnTile nKv nchunks c := by
  rw [kv0, u32_eq (h.start_lt c hc), h.clen_eq, chunkLo]

/-- A chunk with rows ends where it should. -/
theorem Chunked.kv1_eq (h : Chunked nKv nchunks) (hc : c < nchunks)
    (hlive : c * clen nKv nchunks < nKv) :
    kv1 nKv nchunks c = chunkHi fattnTile nKv nchunks c := by
  have hlo : kv0 nKv nchunks c = c * clen nKv nchunks := by
    rw [kv0, u32_eq (h.start_lt c hc)]
    exact min_eq_left hlive.le
  rw [kv1, chunkHi, ← h.kv0_eq hc, ← h.clen_eq, hlo, u32_eq (h.end_lt c hc hlive)]

/-- A chunk that starts behind the window may wrap, and has no rows all the same. -/
theorem Chunked.kv1_le (h : Chunked nKv nchunks) (hc : c < nchunks) :
    kv1 nKv nchunks c ≤ chunkHi fattnTile nKv nchunks c := by
  obtain hlive | hdead := lt_or_ge (c * clen nKv nchunks) nKv
  · exact (h.kv1_eq hc hlive).le
  · have hhi : chunkHi fattnTile nKv nchunks c = nKv := by
      rw [chunkHi, chunkLo, ← h.clen_eq, min_eq_right hdead]
      exact min_eq_right (Nat.le_add_right _ _)
    rw [hhi]
    exact min_le_right _ _

theorem Chunked.mem_iff (h : Chunked nKv nchunks) (hc : c < nchunks) {j : ℕ} :
    kv0 nKv nchunks c ≤ j ∧ j < kv1 nKv nchunks c ↔
      chunkLo fattnTile nKv nchunks c ≤ j ∧ j < chunkHi fattnTile nKv nchunks c := by
  rw [h.kv0_eq hc]
  constructor
  · rintro ⟨hlo, hhi⟩
    exact ⟨hlo, hhi.trans_le (h.kv1_le hc)⟩
  · rintro ⟨hlo, hhi⟩
    have hlive : c * clen nKv nchunks < nKv := by
      by_contra hdead
      have hstart : chunkLo fattnTile nKv nchunks c = nKv := by
        rw [chunkLo, ← h.clen_eq]
        exact min_eq_right (not_lt.mp hdead)
      have hend := hhi.trans_le (chunkHi_le c)
      omega
    rw [h.kv1_eq hc hlive]
    exact ⟨hlo, hhi⟩

theorem Chunked.dvd_kv0 (h : Chunked nKv nchunks) (hc : c < nchunks) :
    fattnTile ∣ kv0 nKv nchunks c := by
  rw [h.kv0_eq hc]
  exact dvd_chunkLo (Dvd.dvd.trans (by decide) h.whole) c

/-- The counter of the tile loop does not wrap. -/
theorem add_tile_lt (hwhole : 256 ∣ nKv) (hlt : nKv < 2 ^ 32) {t0 : ℕ}
    (ht0 : t0 ∈ tiles nKv nchunks c) : t0 + fattnTile < 2 ^ 32 := by
  have hkv1 := ((mem_forRange (by decide)).mp ht0).1
  have hle : kv1 nKv nchunks c ≤ nKv := min_le_right _ _
  have htile : fattnTile = 32 := rfl
  obtain ⟨q, rfl⟩ := hwhole
  omega

theorem Chunked.words (h : Chunked nKv nchunks) (hc : c < nchunks) {t0 tid : ℕ}
    (ht0 : t0 ∈ tiles nKv nchunks c) (htid : t0 + 2 * tid < kv1 nKv nchunks c) :
    (∀ base, 4 ∣ base → 4 ∣ maskAddr base (t0 + 2 * tid)) ∧ t0 + 2 * tid + 1 < nKv := by
  have hdvd := ((mem_tiles_of_dvd (h.dvd_kv0 hc)).mp ht0).1
  have hlt : t0 + 2 * tid < nKv := htid.trans_le (min_le_right _ _)
  have htile : fattnTile = 32 := rfl
  have hwhole := h.whole
  rw [htile] at hdvd
  constructor
  · intro base hbase
    rw [maskAddr]
    omega
  · omega

/-- The windows and numbers of chunks of the harness. -/
theorem Fits.chunked (h : Fits nKv nchunks) : Chunked nKv nchunks := by
  have hwrap := h.noWrap
  have hlt := hwrap.lt
  have hpos := h.pos
  have hmul : ∀ c ≤ nchunks, c * clen nKv nchunks < 2 ^ 32 := by
    intro c hc
    have hle : c * chunkLen fattnTile nKv nchunks ≤ nKv + nchunks * (fattnTile + 1) :=
      mul_chunkLen_le (by decide) h.pos hc
    have htile : fattnTile = 32 := rfl
    rw [hwrap.clen_eq]
    rw [htile] at hle ⊢
    omega
  refine ⟨hpos, h.whole, by omega, fun c hc => hmul c hc.le, fun c hc _ => ?_⟩
  rw [← Nat.succ_mul]
  exact hmul (c + 1) hc

/-- **The chunks are an aligned partition** of the window, in order, and in every tile the mask
words are aligned and in the window, and the lanes read their own entries. -/
theorem alignedPartition (nKv nchunks : ℕ) (h : Chunked nKv nchunks) :
    AlignedPartition nKv nchunks where
  ordered c c' hlt hc' := by
    have hc : c < nchunks := hlt.trans hc'
    calc kv1 nKv nchunks c ≤ chunkHi fattnTile nKv nchunks c := h.kv1_le hc
      _ = chunkLo fattnTile nKv nchunks (c + 1) := chunkHi_eq _ _ _ _
      _ ≤ chunkLo fattnTile nKv nchunks c' := chunkLo_mono hlt
      _ = kv0 nKv nchunks c' := (h.kv0_eq hc').symm
  cover j hj := by
    obtain ⟨c, ⟨hc, hmem⟩, huniq⟩ := existsUnique_chunk (by decide : 0 < fattnTile) h.pos hj
    refine ⟨c, ⟨hc, (h.mem_iff hc).mpr hmem⟩, ?_⟩
    rintro c' ⟨hc', hmem'⟩
    exact huniq c' ⟨hc', (h.mem_iff hc').mp hmem'⟩
  inside c _ := min_le_right _ _
  aligned c hc _ := h.dvd_kv0 hc
  words c hc t0 ht0 tid _ htid := h.words hc ht0 htid
  lanes c _ t0 _ lane _ hlane mask := maskT_stagedWord mask hlane

/-- The window of the first passes, on the grid. -/
theorem alignedPartition_256 : AlignedPartition 256 72 :=
  alignedPartition 256 72 (Fits.chunked ⟨by decide, by decide, by decide, by decide⟩)

/-! ### What a partition takes -/

/-- Without the bound on the sum the length of the chunks is 0. -/
theorem AlignedPartition.sum_lt (h : AlignedPartition nKv nchunks) (hpos : 0 < nKv)
    (hwhole : 256 ∣ nKv) (hlt : nKv < 2 ^ 32) (hchunks : nchunks < 2 ^ 32) :
    nKv + nchunks - 1 < 2 ^ 32 := by
  by_contra hwrap
  obtain ⟨q, hq⟩ := hwhole
  have hsum : u32 (nKv + nchunks - 1) < nchunks := by
    rw [u32]
    omega
  have hclen : clen nKv nchunks = 0 := by
    rw [clen, Nat.div_eq_of_lt hsum]
    rfl
  obtain ⟨c, ⟨-, hlo, hhi⟩, -⟩ := h.cover 0 hpos
  rw [kv1, hclen, Nat.add_zero, Nat.eq_zero_of_le_zero hlo] at hhi
  have hzero : 0 < u32 0 := hhi.trans_le (min_le_left _ _)
  exact absurd hzero (by decide)

/-- A chunk that starts in the window has to hold the position that it starts at. -/
theorem AlignedPartition.end_lt (h : AlignedPartition nKv nchunks)
    (hstart : ∀ c < nchunks, c * clen nKv nchunks < 2 ^ 32) (hc : c < nchunks)
    (hlive : c * clen nKv nchunks < nKv) :
    c * clen nKv nchunks + clen nKv nchunks < 2 ^ 32 := by
  have hclen : clen nKv nchunks < 2 ^ 32 := Nat.mod_lt _ (by decide)
  have hkv0 : ∀ c' < nchunks, kv0 nKv nchunks c' = min (c' * clen nKv nchunks) nKv :=
    fun c' hc' => by rw [kv0, u32_eq (hstart c' hc')]
  obtain ⟨c', ⟨hc', hlo, hhi⟩, -⟩ := h.cover _ hlive
  by_contra hwrap
  obtain hlt | heq | hgt := lt_trichotomy c' c
  · -- an earlier chunk ends before
    have hord := h.ordered c' c hlt hc
    rw [hkv0 c hc, min_eq_left hlive.le] at hord
    omega
  · rw [heq, kv1, hkv0 c hc, min_eq_left hlive.le, u32] at hhi
    have := lt_of_lt_of_le hhi (min_le_left _ _)
    omega
  · -- a later one starts beyond the range
    have hle := Nat.mul_le_mul_right (clen nKv nchunks) hgt
    have hstart' := hstart c' hc'
    rw [Nat.succ_mul] at hle
    omega

/-- **Where a sum wraps, a position is lost.** For the greatest window and 257 chunks it is the sum
that rounds up; it is 0, and so is the length of the chunks. For 200 chunks it is the end of the
last chunk. No chunk starts beyond the range in either of them. -/
theorem not_alignedPartition :
    256 ∣ 4294967040 ∧
    (∀ c < 257, c * clen 4294967040 257 < 2 ^ 32) ∧ ¬AlignedPartition 4294967040 257 ∧
    (∀ c < 200, c * clen 4294967040 200 < 2 ^ 32) ∧ ¬AlignedPartition 4294967040 200 := by
  have hwhole : 256 ∣ 4294967040 := by decide
  have hzero : clen 4294967040 257 = 0 := by decide
  have hclen : clen 4294967040 200 = 21474848 := by decide
  have hstart : ∀ c < 200, c * clen 4294967040 200 < 2 ^ 32 := by
    intro c hc
    rw [hclen]
    omega
  refine ⟨hwhole, fun c _ => by rw [hzero, Nat.mul_zero]; decide, fun h => ?_, hstart, fun h => ?_⟩
  · exact absurd (h.sum_lt (by decide) hwhole (by decide) (by decide)) (by decide)
  · have hend := h.end_lt hstart (c := 199) (by decide) (by rw [hclen]; decide)
    rw [hclen] at hend
    exact absurd hend (by decide)

end Chunked

end Megakernel
