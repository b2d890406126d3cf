import Megakernel.AttnBlock

/-!
# Splitting an attention block

Each of two GPUs holds half of the KV heads and the query heads that belong to them, in one
piece. The query heads of a KV head stay together, so the local heads compute what their heads
compute on a single GPU, also in the chunked decode: the chunks do not depend on the number of
heads. The same holds of the halves of the feed-forward part and of the vocabulary.

Caches of the two sides have rows of different widths, so that agreement is stated for slices, tiles
and records rather than for buffers. Nothing is assumed of the scores, and in particular not that
the softmax is computed without a flush.
-/

namespace Megakernel

open Halves Loops F32 F16

namespace Attention

/-! ## The decode -/

section Decode

variable {H : Type*} [F16 H ℝ] {y y' : Slice ℝ H}

/-- Two slices that have the same query, rows and mask. They may belong to heads of different
numbers in caches of different widths. -/
structure SliceAgrees (y y' : Slice ℝ H) : Prop where
  q : ∀ c < attnHd, y.qS c = y'.qS c
  k : ∀ t0 t, ∀ c < attnHd, y.kRow t0 t c = y'.kRow t0 t c
  v : ∀ t0 t, ∀ c < attnHd, y.vRow t0 t c = y'.vRow t0 t c
  kv1 : y.kv1 = y'.kv1
  mask : y.a.mask = y'.a.mask

/-- Two warps that have the same maxima and sums, and the same accumulator. -/
structure WarpAgrees (w w' : Warp ℝ) : Prop where
  m : w.m = w'.m
  s : w.s = w'.s
  vacc : ∀ lane i, lane * 8 + i < attnHd → w.vacc lane i = w'.vacc lane i

/-- Equal queries, keys and mask make equal scores, position by position in a tile, -/
theorem SliceAgrees.score (h : SliceAgrees y y') (t0 : ℕ) : y.score t0 = y'.score t0 := by
  funext lane
  have hdot : dot y.qS (y.kRow t0 lane) = dot y'.qS (y'.kRow t0 lane) := by
    rw [dot_eq, dot_eq]
    apply Finset.sum_congr rfl
    intro c hc
    rw [Finset.mem_range] at hc
    rw [h.q c hc, h.k t0 lane c hc]
  rw [Slice.score, Slice.score, hdot, h.kv1, h.mask]

/-- A tile keeps the agreement. -/
theorem SliceAgrees.tile (h : SliceAgrees y y') {w w' : Warp ℝ} (hw : WarpAgrees w w') (t0 : ℕ) :
    WarpAgrees (y.tile w t0) (y'.tile w' t0) := by
  have hm : y.mNew w t0 = y'.mNew w' t0 := by
    funext lane
    rw [Slice.mNew, Slice.mNew, hw.m, h.score]
  have hp : y.weight w t0 = y'.weight w' t0 := by
    funext lane
    rw [Slice.weight, Slice.weight, hm, h.score, h.kv1]
  constructor
  · exact hm
  · simp only [Slice.tile, hm, hp, hw.m, hw.s]
  · intro lane i hlane
    simp only [Slice.tile, hm, hp, hw.m, hw.vacc lane i hlane, h.v t0 _ _ hlane]

/-- and so the warps agree after any list of tiles. The tiles are the same on both sides, as they
depend on the number of chunks and of positions only. -/
theorem SliceAgrees.foldl (h : SliceAgrees y y') (ts : List ℕ) :
    ∀ {w w' : Warp ℝ}, WarpAgrees w w' → WarpAgrees (ts.foldl y.tile w) (ts.foldl y'.tile w') := by
  induction ts with
  | nil => exact fun hw => hw
  | cons t0 ts ih => exact fun hw => ih (h.tile hw t0)

/-- Two records that stand for the same. -/
structure RecordAgrees (r r' : Record ℝ) : Prop where
  acc : ∀ d < attnHd, r.acc d = r'.acc d
  max : r.max = r'.max
  sum : r.sum = r'.sum

/-- The record of a head and chunk depends on what the slice agrees in, and on nothing else: not on
the number of the head, nor on how many heads the cache has. -/
theorem fattnDecode_agrees {a a' : FattnDecodeArgs ℝ H} {nchunks chunk kvh kvh' warp warp' : ℕ}
    (hnKv : a.nKv = a'.nKv)
    (h : SliceAgrees (a.slice nchunks chunk kvh warp) (a'.slice nchunks chunk kvh' warp')) :
    RecordAgrees (fattnDecode a nchunks chunk kvh warp)
      (fattnDecode a' nchunks chunk kvh' warp') := by
  have hw := h.foldl (tiles a.nKv nchunks chunk) (w := Warp.init) ⟨rfl, rfl, fun _ _ _ => rfl⟩
  simp only [fattnDecode]
  rw [← hnKv]
  constructor
  · intro d hd
    exact hw.vacc _ _ (by rwa [Nat.div_add_mod'])
  · exact congrArg (fun m : ℕ → ℝ => ((m 0 : ℝ) : WithBot ℝ)) hw.m
  · exact congrFun hw.s 0

/-- The merge looks at nothing else. -/
theorem fattnReduce_agrees {partials partials' : ℕ → ℕ → Record ℝ} {nChunks h h' d : ℕ}
    (hrec : ∀ c < nChunks, RecordAgrees (partials h c) (partials' h' c)) (hd : d < attnHd) :
    fattnReduce nChunks partials h d = fattnReduce nChunks partials' h' d := by
  have hmerge : mergeChunks partials h d (List.range nChunks) =
      mergeChunks partials' h' d (List.range nChunks) := by
    apply List.foldl_ext
    intro st c hc
    have hr := hrec c (List.mem_range.mp hc)
    rw [Merge.record, Merge.record, hr.max, hr.sum, hr.acc d hd]
  rw [fattnReduce, fattnReduce, hmerge]

end Decode

/-! ## The heads of a GPU -/

section Heads

variable {n g : ℕ} {a b : ℕ → ℝ}

/-- The norm and the rotation of a head use its own elements, the position, and a weight that all
heads share. So the heads of a half come out as on a single GPU. -/
theorem dealt_qkNormRope (pos : Fin 4 → ℤ) {stride : ℕ} (hstride : attnHd ≤ stride) {w w' : ℕ → ℝ}
    (hd : Dealt (n * stride) 1 g a b) (hw : ∀ e < attnHd, w e = w' e) :
    Dealt (n * attnHd) 1 g (qkNormRope pos a stride w) (qkNormRope pos b stride w') := by
  apply dealt_parts.mpr
  intro h hh e he
  have hparts (j : ℕ) (hj : j < attnHd) : a (h * stride + j) = b (pick n g h * stride + j) :=
    dealt_parts.mp hd h hh j (hj.trans_le hstride)
  have hnorm (j : ℕ) (hj : j < attnHd) :
      headNorm a stride w h j = headNorm b stride w' (pick n g h) j := by
    have hss : ∑ j ∈ Finset.range attnHd, a (h * stride + j) * a (h * stride + j) =
        ∑ j ∈ Finset.range attnHd,
          b (pick n g h * stride + j) * b (pick n g h * stride + j) := by
      apply Finset.sum_congr rfl
      intro j hj
      rw [hparts j (Finset.mem_range.mp hj)]
    rw [headNorm, headNorm, hss, hparts j hj, hw j hj]
  have hdiv (k : ℕ) : (k * attnHd + e) / attnHd = k := by
    rw [Nat.mul_comm, Nat.mul_add_div (by decide), Nat.div_eq_of_lt he, Nat.add_zero]
  have hmod (k : ℕ) : (k * attnHd + e) % attnHd = e := by
    rw [Nat.mul_comm, Nat.mul_add_mod, Nat.mod_eq_of_lt he]
  rw [qkNormRope, qkNormRope, hdiv, hdiv, hmod, hmod]
  have hhd : attnHd = 256 := rfl
  simp only [normRope]
  -- the three parts of a head
  split
  · rw [hnorm e he, hnorm (e + 32) (by omega)]
  · split
    · rw [hnorm e he, hnorm (e - 32) (by omega)]
    · exact hnorm e he

/-- The gate of a head is behind its q. -/
theorem dealt_attnGate {z z' : ℕ → ℝ} (hd : Dealt (n * attnHd) 1 g a b)
    (hz : Dealt (n * qStride) 1 g z z') :
    Dealt (n * attnHd) 1 g (attnGate a (fun i => z (256 + i)) qStride)
      (attnGate b (fun i => z' (256 + i)) qStride) := by
  apply dealt_parts.mpr
  intro h hh e he
  have hdiv (k : ℕ) : (k * attnHd + e) / attnHd = k := by
    rw [Nat.mul_comm, Nat.mul_add_div (by decide), Nat.div_eq_of_lt he, Nat.add_zero]
  have hmod (k : ℕ) : (k * attnHd + e) % attnHd = e := by
    rw [Nat.mul_comm, Nat.mul_add_mod, Nat.mod_eq_of_lt he]
  have hgate : z (256 + (h * qStride + e)) = z' (256 + (pick n g h * qStride + e)) := by
    rw [Nat.add_left_comm, Nat.add_left_comm 256]
    exact dealt_parts.mp hz h hh (256 + e) (Nat.add_lt_add_left he 256)
  rw [attnGate, attnGate, hdiv, hdiv, hmod, hmod, hgate, dealt_parts.mp hd h hh e he]

variable {H : Type*} [F16 H ℝ]

/-- The rows of a dense cache after an append. -/
theorem rowsOf_append {threads rowWidth row j i : ℕ} (ht : 0 < threads) (cache : ℕ → H)
    (hi : i < rowWidth) :
    rowsOf rowWidth (kvAppendDense threads rowWidth row a cache) j i =
      kvAppend threads rowWidth row a (rowsOf rowWidth cache) j i := by
  simp only [rowsOf, kvAppendDense, kvAppend]
  obtain hlt | rfl | hgt := lt_trichotomy j row
  · have hle : (j + 1) * rowWidth ≤ row * rowWidth := Nat.mul_le_mul_right rowWidth hlt
    rw [Nat.add_mul, Nat.one_mul] at hle
    rw [if_neg (by omega), Function.update_of_ne hlt.ne]
    rfl
  · rw [if_pos (Nat.le_add_right _ _), Nat.add_sub_cancel_left, Function.update_self]
    rfl
  · -- the row is written up to its end
    obtain ⟨k, rfl⟩ := Nat.exists_eq_add_of_lt hgt
    have hoff : (row + k + 1) * rowWidth + i = row * rowWidth + ((k + 1) * rowWidth + i) := by ring
    have hle : rowWidth ≤ (k + 1) * rowWidth + i :=
      (Nat.le_mul_of_pos_left rowWidth k.succ_pos).trans (Nat.le_add_right _ _)
    rw [hoff, if_pos (Nat.le_add_right _ _), Nat.add_sub_cancel_left, Function.update_of_ne hgt.ne',
      appendRow_of_le ht _ _ hle, ← hoff]
    rfl

/-- The row of a token in a cache. -/
theorem dealt_kvAppend {threads row : ℕ} (ht : 0 < threads) (hg : g < 2) {cache cache' : ℕ → H}
    (hd : Dealt (n * attnHd) 1 g a b)
    (hcache : ∀ j, Dealt (n * attnHd) 1 g (rowsOf (n * attnHd) cache j)
      (rowsOf (2 * n * attnHd) cache' j)) (j : ℕ) :
    Dealt (n * attnHd) 1 g (rowsOf (n * attnHd) (kvAppendDense threads (n * attnHd) row a cache) j)
      (rowsOf (2 * n * attnHd) (kvAppendDense threads (2 * n * attnHd) row b cache') j) := by
  have hfour : 4 ∣ attnHd := by decide
  intro i hi
  have hpick : pick (n * attnHd) g i < 2 * n * attnHd := by
    have hlt := pick_lt hg hi
    rwa [Nat.one_mul, ← Nat.mul_assoc] at hlt
  have hi' : i < n * attnHd := by rwa [Nat.one_mul] at hi
  rw [rowsOf_append ht cache hi', rowsOf_append ht cache' hpick]
  by_cases hj : j = row
  · subst hj
    rw [kvAppend, kvAppend, Function.update_self, Function.update_self,
      appendRow_apply ht (hfour.mul_left n) a _ hi',
      appendRow_apply ht (hfour.mul_left (2 * n)) b _ hpick, hd i hi]
  · rw [kvAppend, kvAppend, Function.update_of_ne hj, Function.update_of_ne hj]
    exact hcache j i hi

/-- The partial records of the heads: those of a local head are those of its head on a single GPU.
-/
def PartialsDealt (n g nChunks : ℕ) (partials partials' : ℕ → ℕ → Record ℝ) : Prop :=
  ∀ h < n, ∀ c < nChunks, RecordAgrees (partials h c) (partials' (pick n g h) c)

/-- **The decode of the heads**, `gqa` for each of `n` KV heads and no more than a block has
warps. -/
theorem partialsDealt_decode {A A' : FattnDecodeArgs ℝ H} {warps gqa nChunks : ℕ} (hg : g < 2)
    (hwarps : gqa ≤ warps)
    (hq : Dealt (n * gqa * attnHd) 1 g A.q A'.q)
    (hk : ∀ j, Dealt (n * attnHd) 1 g (A.kCache j) (A'.kCache j))
    (hv : ∀ j, Dealt (n * attnHd) 1 g (A.vCache j) (A'.vCache j)) (hnKv : A.nKv = A'.nKv)
    (hmask : A.mask = A'.mask) (hnQ : A.nQ = n * gqa) (hnQ' : A'.nQ = 2 * (n * gqa))
    (hheads : A.nKvHeads = n) (hheads' : A'.nKvHeads = 2 * n)
    (old old' : ℕ → ℕ → Record ℝ) :
    PartialsDealt (n * gqa) g nChunks (decodeRecords warps nChunks A old)
      (decodeRecords warps nChunks A' old') := by
  intro h hh c hc
  have hgqa : 0 < gqa := Nat.pos_of_mul_pos_left (Nat.zero_lt_of_lt hh)
  have hn : 0 < n := Nat.pos_of_mul_pos_right (Nat.zero_lt_of_lt hh)
  have hlocal : A.nQ / A.nKvHeads = gqa := by
    rw [hnQ, hheads, Nat.mul_div_cancel_left gqa hn]
  have hglobal : A'.nQ / A'.nKvHeads = gqa := by
    rw [hnQ', hheads', Nat.mul_div_mul_left _ _ (by decide), Nat.mul_div_cancel_left gqa hn]
  have hpick : pick (n * gqa) g h < 2 * n * gqa := by
    have hone : h < 1 * (n * gqa) := by rwa [Nat.one_mul]
    have hlt := pick_lt hg hone
    rwa [Nat.one_mul, ← Nat.mul_assoc] at hlt
  have hkvh : h / gqa < n := Nat.div_lt_of_lt_mul (by rwa [Nat.mul_comm])
  -- the query heads of a KV head stay together
  have hdiv : pick (n * gqa) g h / gqa = pick n g (h / gqa) := pick_mul_div hgqa n g h
  have hmod : pick (n * gqa) g h % gqa = h % gqa := pick_mul_mod hgqa n g h
  have hwarp : h % gqa < warps := (Nat.mod_lt h hgqa).trans_le hwarps
  have hcond : h < A.nKvHeads * gqa ∧ h % gqa < warps ∧ c < nChunks := by
    rw [hheads]
    exact ⟨hh, hwarp, hc⟩
  have hcond' : pick (n * gqa) g h < A'.nKvHeads * gqa ∧ pick (n * gqa) g h % gqa < warps ∧
      c < nChunks := by
    rw [hheads', hmod]
    exact ⟨hpick, hwarp, hc⟩
  simp only [decodeRecords, hlocal, hglobal]
  rw [if_pos hcond, if_pos hcond', hdiv, hmod]
  apply fattnDecode_agrees hnKv
  have hload {cache cache' : ℕ → ℕ → H} (hd : ∀ j, Dealt (n * attnHd) 1 g (cache j) (cache' j))
      (t0 t : ℕ) {d : ℕ} (hlt : d < attnHd) :
      loadKvSlice cache t0 (kv1 A.nKv nChunks c) (h / gqa * attnHd) t d =
        loadKvSlice cache' t0 (kv1 A'.nKv nChunks c) (pick n g (h / gqa) * attnHd) t d := by
    have hrow : cache (t0 + t) (h / gqa * attnHd + d) =
        cache' (t0 + t) (pick n g (h / gqa) * attnHd + d) :=
      dealt_parts.mp (hd _) _ (by rwa [Nat.one_mul]) d hlt
    rw [loadKvSlice, loadKvSlice, hrow, hnKv]
  constructor
  · intro d hlt
    have hquery := dealt_parts.mp hq h (by rwa [Nat.one_mul]) d hlt
    simp only [Slice.qS, FattnDecodeArgs.slice, hlocal, hglobal]
    rw [Nat.div_add_mod', hquery, ← hdiv, ← hmod, Nat.div_add_mod']
  · exact fun t0 t d hlt => congrArg toF32 (hload hk t0 t hlt)
  · exact fun t0 t d hlt => congrArg toF32 (hload hv t0 t hlt)
  · simp only [FattnDecodeArgs.slice, hnKv]
  · exact hmask

end Heads

/-! ## The block -/

section Block

/-- The weights of half of the heads, of the feed-forward part and of the vocabulary. -/
structure WeightsDealt (c : Counts) (n f u g : ℕ) (w w' : Weights) : Prop where
  q : ∀ i < 1 * (n * c.gqa * qStride), ∀ j < c.nEmbd,
    w.q i j = w'.q (pick (n * c.gqa * qStride) g i) j
  k : ∀ i < 1 * (n * attnHd), ∀ j < c.nEmbd, w.k i j = w'.k (pick (n * attnHd) g i) j
  v : ∀ i < 1 * (n * attnHd), ∀ j < c.nEmbd, w.v i j = w'.v (pick (n * attnHd) g i) j
  qNorm : ∀ e < attnHd, w.qNorm e = w'.qNorm e
  kNorm : ∀ e < attnHd, w.kNorm e = w'.kNorm e
  o : ∀ r < c.nEmbd, Dealt (n * c.gqa * attnHd) 1 g (w.o r) (w'.o r)
  gate : ∀ i < 1 * f, ∀ j < c.nEmbd, w.gate i j = w'.gate (pick f g i) j
  up : ∀ i < 1 * f, ∀ j < c.nEmbd, w.up i j = w'.up (pick f g i) j
  down : ∀ r < c.nEmbd, Dealt f 1 g (w.down r) (w'.down r)
  output : ∀ i < 1 * u, ∀ j < c.nEmbd, w.output i j = w'.output (pick u g i) j

variable {H : Type*}

/-- The caches of half of the heads, in rows of half the width. -/
structure CachesDealt (n g : ℕ) (b b' : Buffers H) : Prop where
  k : ∀ j, Dealt (n * attnHd) 1 g (rowsOf (n * attnHd) b.kCache j)
    (rowsOf (2 * n * attnHd) b'.kCache j)
  v : ∀ j, Dealt (n * attnHd) 1 g (rowsOf (n * attnHd) b.vCache j)
    (rowsOf (2 * n * attnHd) b'.vCache j)

/-- The rows of q, k and v as well. -/
structure RowsDealt (n gqa g : ℕ) (b b' : Buffers H) : Prop extends CachesDealt n g b b' where
  mixer : Dealt (n * gqa * qStride) 1 g b.mixerOut b'.mixerOut
  kStage : Dealt (n * attnHd) 1 g b.kStage b'.kStage
  vStage : Dealt (n * attnHd) 1 g b.vStage b'.vStage

/-- Counts of which half can be taken. -/
structure Counts.Halves (c : Counts) (n f u : ℕ) : Prop where
  kvHeads : c.kvHeads = 2 * n
  nFf : c.nFf = 2 * f
  nVocab : c.nVocab = 2 * u

theorem sp_two (k : ℕ) : sp true (2 * k) = k := Nat.mul_div_cancel_left k (by decide)

section Counts

variable {c : Counts} {n f u : ℕ} (h : c.Halves n f u)

include h

/-- The query heads of half of the KV heads are half of the query heads. -/
theorem Counts.Halves.qHeads : c.qHeads = 2 * (n * c.gqa) := by
  rw [Counts.qHeads, h.kvHeads, Nat.mul_assoc]

theorem Counts.Halves.kvOne : c.kvHeads = 1 * (2 * n) := by
  rw [h.kvHeads, Nat.one_mul]

theorem Counts.Halves.qOne : c.qHeads = 1 * (2 * (n * c.gqa)) := by
  rw [h.qHeads, Nat.one_mul]

theorem Counts.Halves.qElems (k : ℕ) : c.qHeads * k = 1 * (2 * (n * c.gqa * k)) := by
  rw [h.qHeads]
  ring

theorem Counts.Halves.kvElems (k : ℕ) : c.kvHeads * k = 1 * (2 * (n * k)) := by
  rw [h.kvHeads]
  ring

theorem Counts.Halves.ffOne : c.nFf = 1 * (2 * f) := by
  rw [h.nFf, Nat.one_mul]

end Counts

variable {c : Counts} {n f u g : ℕ} {e : Env} {w w' : Weights} {b b' : Buffers H}

/-- The GEMVs of q with its gate, of k and of v make the rows of the half, and do not touch the
caches. -/
theorem gemvs_dealt (h : c.Halves n f u) (hg : g < 2) (hw : WeightsDealt c n f u g w w')
    (hb : CachesDealt n g b b') (x : ℕ → ℝ) :
    RowsDealt n c.gqa g (gemvs true c e w x b) (gemvs false c e w' x b') where
  k := hb.k
  v := hb.v
  mixer := dealt_written (h.qElems qStride) (dealt_gemvRow hw.q _) hg _ _
  kStage := dealt_written (h.kvElems attnHd) (dealt_gemvRow hw.k _) hg _ _
  vStage := dealt_written (h.kvElems attnHd) (dealt_gemvRow hw.v _) hg _ _

/-- Norm and rotation of q and k. The query ends up in its own buffer, without the gates between the
heads. -/
theorem rotate_dealt (h : c.Halves n f u) (hg : g < 2) (hw : WeightsDealt c n f u g w w')
    (hb : RowsDealt n c.gqa g b b') :
    RowsDealt n c.gqa g (rotate true c e w b) (rotate false c e w' b') ∧
      Dealt (n * c.gqa * attnHd) 1 g (rotate true c e w b).fattnQ
        (rotate false c e w' b').fattnQ := by
  have hq := dealt_qkNormRope e.pos (by decide) hb.mixer hw.qNorm
  have hk := dealt_qkNormRope e.pos le_rfl hb.kStage hw.kNorm
  constructor
  · exact { hb with kStage := dealt_written_parts h.kvOne hk hg _ _ }
  · exact dealt_written_parts h.qOne hq hg _ _

/-! ## The feed-forward part and the head -/

variable [F16 H ℝ]

/-- The token's rows of k and v go to the same position of caches with rows of different widths. -/
theorem append_dealt (h : c.Halves n f u) (hg : g < 2) (hb : RowsDealt n c.gqa g b b') :
    RowsDealt n c.gqa g (append true c e b) (append false c e b') := by
  have hlocal : sp true c.kvHeads = n := by rw [h.kvHeads, sp_two]
  have hglobal : sp false c.kvHeads = 2 * n := by rw [sp_false, h.kvHeads]
  refine { hb with k := ?_, v := ?_ }
  · simp only [append, hlocal, hglobal]
    exact dealt_kvAppend e.threads_pos hg hb.kStage hb.k
  · simp only [append, hlocal, hglobal]
    exact dealt_kvAppend e.threads_pos hg hb.vStage hb.v

/-- The chunked decode and the merge of its records. It is here that every head needs a warp, since
what a head without one is merged from is whatever was in the buffer. -/
theorem attend_dealt (h : c.Halves n f u) (hg : g < 2) (hwarps : c.gqa ≤ blockWarps)
    (hb : RowsDealt n c.gqa g b b')
    (hq : Dealt (n * c.gqa * attnHd) 1 g b.fattnQ b'.fattnQ) :
    Dealt (n * c.gqa * attnHd) 1 g (attend true c e b).attnOut (attend false c e b').attnOut := by
  have hlocal : sp true c.kvHeads = n := by rw [h.kvHeads, sp_two]
  have hglobal : sp false c.kvHeads = 2 * n := by rw [sp_false, h.kvHeads]
  have hnQ : sp true c.qHeads = n * c.gqa := by rw [h.qHeads, sp_two]
  have hnQ' : sp false c.qHeads = 2 * (n * c.gqa) := by rw [sp_false, h.qHeads]
  have hrecords : PartialsDealt (n * c.gqa) g c.nChunks
      (decodeRecords blockWarps c.nChunks (decodeArgs true c e b) b.partials)
      (decodeRecords blockWarps c.nChunks (decodeArgs false c e b') b'.partials) := by
    apply partialsDealt_decode hg hwarps
    case hk =>
      simp only [decodeArgs, hlocal, hglobal]
      exact hb.k
    case hv =>
      simp only [decodeArgs, hlocal, hglobal]
      exact hb.v
    exacts [hq, rfl, rfl, hnQ, hnQ', hlocal, hglobal]
  apply dealt_written_parts h.qOne _ hg
  apply dealt_parts.mpr
  intro i hi d hd
  have hdiv (k : ℕ) : (k * attnHd + d) / attnHd = k := by
    rw [Nat.mul_comm, Nat.mul_add_div (by decide), Nat.div_eq_of_lt hd, Nat.add_zero]
  have hmod (k : ℕ) : (k * attnHd + d) % attnHd = d := by
    rw [Nat.mul_comm, Nat.mul_add_mod, Nat.mod_eq_of_lt hd]
  rw [hdiv, hdiv, hmod, hmod]
  exact fattnReduce_agrees (hrecords i (by rwa [Nat.one_mul] at hi)) hd

/-- **The heads of a half** up to the merge: rows, caches and attention are those of their heads on
a single GPU, as long as every head has a warp. -/
theorem attended_dealt (h : c.Halves n f u) (hg : g < 2) (hwarps : c.gqa ≤ blockWarps)
    (hw : WeightsDealt c n f u g w w') (hb : CachesDealt n g b b') (x : ℕ → ℝ) :
    RowsDealt n c.gqa g (attended true c e w x b) (attended false c e w' x b') ∧
      Dealt (n * c.gqa * attnHd) 1 g (attended true c e w x b).fattnQ
        (attended false c e w' x b').fattnQ ∧
      Dealt (n * c.gqa * attnHd) 1 g (attended true c e w x b).attnOut
        (attended false c e w' x b').attnOut := by
  obtain ⟨hrows, hq⟩ := rotate_dealt (e := e) h hg hw (gemvs_dealt (e := e) h hg hw hb x)
  have hcached := append_dealt (e := e) h hg hrows
  have hattn := attend_dealt (e := e) h hg hwarps hcached hq
  exact ⟨⟨⟨hcached.k, hcached.v⟩, hcached.mixer, hcached.kStage, hcached.vStage⟩, hq, hattn⟩

/-- Their gated output. -/
theorem mixer_dealt (h : c.Halves n f u) (hg : g < 2) (hwarps : c.gqa ≤ blockWarps)
    (hw : WeightsDealt c n f u g w w') (hb : CachesDealt n g b b') (x : ℕ → ℝ) :
    Dealt (n * c.gqa * attnHd) 1 g (mixer true c e w x b).attnOut
      (mixer false c e w' x b').attnOut := by
  obtain ⟨hrows, -, hattn⟩ := attended_dealt (e := e) h hg hwarps hw hb x
  exact dealt_written_parts h.qOne (dealt_attnGate hattn hrows.mixer) hg _ _

/-- **The partials of `attn_output` add up.** -/
theorem projOut_mixer (h : c.Halves n f u) (hwarps : c.gqa ≤ blockWarps) {w₀ w₁ : Weights}
    (hw₀ : WeightsDealt c n f u 0 w₀ w') (hw₁ : WeightsDealt c n f u 1 w₁ w') {b₀ b₁ : Buffers H}
    (hb₀ : CachesDealt n 0 b₀ b')
    (hb₁ : CachesDealt n 1 b₁ b') (hQ : e.quant.size ∣ n * c.gqa * attnHd) (x : ℕ → ℝ) {r : ℕ}
    (hr : r < c.nEmbd) :
    (mixer true c e w₀ x b₀).projOut r + (mixer true c e w₁ x b₁).projOut r =
      (mixer false c e w' x b').projOut r := by
  have hproj (split : Bool) (w : Weights) (b : Buffers H) : (mixer split c e w x b).projOut r =
      gemvRow w.o (sp split (c.qHeads * attnHd))
        (e.quant.apply (mixer split c e w x b).attnOut) r := overlay_of_lt _ _ hr
  rw [hproj, hproj, hproj, h.qElems, sp_true, sp_false]
  apply gemvRow_add (hw₀.o r hr) (hw₁.o r hr)
  · exact dealt_quantize e.quant hQ (mixer_dealt (e := e) h (by decide) hwarps hw₀ hb₀ x)
  · exact dealt_quantize e.quant hQ (mixer_dealt (e := e) h (by decide) hwarps hw₁ hb₁ x)

end Block

end Attention

end Megakernel
