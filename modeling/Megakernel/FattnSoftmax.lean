import Megakernel.FattnReduce
import Megakernel.Launch
import Megakernel.Softmax

/-!
# Split-KV decode and reduce are softmax attention

OP_FATTN_DECODE and OP_FATTN_REDUCE over the real numbers, with the exact exponential.

Both ops keep sums relative to a running maximum, and move them to another one by an
exponential factor; in terms of `Softmax.Stands` they stand for the same sums
throughout. A tile of the decode adds its positions (`Warp.StandsFor.tile`), so the
record of a chunk stands for the positions of the chunk (`fattnDecode_standsFor`). In
the reduce, a chunk without unmasked positions changes nothing
(`Merge.StandsFor.dead`), and another one adds its positions as long as the factors
are not flushed to zero (`Merge.StandsFor.live`). In the end the maximum drops out of
the quotient: `split_kv_softmax`. All of this is for windows and numbers of chunks whose
sums stay in 32 bits; `not_split_kv_softmax` is what becomes of others.

`decodeRecords` is the buffer that the warps of the decode leave behind. A block has a warp
for each query head of a KV head only up to a number of 12 (`gqa <= blockDim/32`), and a
head beyond it is decoded by nobody.
-/

namespace Megakernel

open Loops Warps F32 F16 Softmax

/-- Exact arithmetic. -/
noncomputable instance : F32 ℝ where
  expf := Real.exp
  lowest := ((-((2 - 1 / 2 ^ 23) * 2 ^ 127) / 2 : ℚ) : ℝ)
  ftz := -20
  scale := 1 / 16

/-- A loop over pairs of neighbours. -/
theorem foldl_pairs (q k : ℕ → ℝ) (n : ℕ) :
    (List.range n).foldl (fun dot i => dot + (q (0 + 2 * i) * k (0 + 2 * i) +
      q (0 + 2 * i + 1) * k (0 + 2 * i + 1))) 0 = ∑ c ∈ Finset.range (2 * n), q c * k c := by
  induction n with
  | zero => rfl
  | succ n ih =>
    rw [List.range_succ, List.foldl_append, ih, Nat.mul_succ, Finset.sum_range_succ,
      Finset.sum_range_succ]
    simp only [List.foldl_cons, List.foldl_nil, Nat.zero_add]
    ring

theorem dot_eq (q k : ℕ → ℝ) : dot q k = ∑ c ∈ Finset.range attnHd, q c * k c := by
  have hrange : forRange 0 attnHd 2 = (List.range 128).map fun i => 0 + 2 * i := rfl
  rw [dot, hrange, List.foldl_map]
  exact foldl_pairs q k 128

theorem warpSum_eq (v : ℕ → ℝ) {lane : ℕ} (hlane : lane < 32) :
    warpSum v lane = ∑ i ∈ Finset.range 32, v i := butterfly_add v hlane

theorem coe_fmaxf (m : ℝ) (x : WithBot ℝ) :
    ((fmaxf m x : ℝ) : WithBot ℝ) = max (m : WithBot ℝ) x := by
  cases x with
  | bot => exact (max_eq_left bot_le).symm
  | coe x => exact WithBot.coe_max m x

/-- An exponential relative to a maximum. -/
theorem stands_expSub (x : WithBot ℝ) (m : ℝ) : Stands m (expSub x m) (weight x) := by
  cases x with
  | bot => exact .zero m
  | coe x => exact .exp_sub x m

/-- The lanes of a tile that are in the chunk. -/
theorem sum_tile (g : ℕ → ℝ) (t0 kv1 : ℕ) :
    ∑ i ∈ Finset.range 32, (if t0 + i < kv1 then g (t0 + i) else 0) =
      ∑ j ∈ Finset.Ico t0 (min (t0 + 32) kv1), g j := by
  rw [← Finset.sum_filter, Finset.sum_Ico_eq_sum_range]
  refine Finset.sum_congr (Finset.ext fun i => ?_) fun _ _ => rfl
  rw [Finset.mem_filter, Finset.mem_range, Finset.mem_range]
  omega

/-- The sums over a chunk and the next tile. -/
theorem sum_append_tile {lo t0 kv1 : ℕ} (hlo : lo ≤ t0) (ht : t0 < kv1) (g : ℕ → ℝ) :
    ∑ j ∈ Finset.Ico lo t0, g j + ∑ j ∈ Finset.Ico t0 (min (t0 + 32) kv1), g j =
      ∑ j ∈ Finset.Ico lo (min (t0 + 32) kv1), g j :=
  Finset.sum_Ico_consecutive g hlo (le_min (Nat.le_add_right _ _) ht.le)

/-! ## Decode -/

section Decode

variable {H : Type*} [F16 H ℝ] (x : Slice ℝ H)

/-- The score of position `j`: the product of the scaled query with the row, plus the entry of the
mask, hence `⊥` where the mask hides the position. -/
noncomputable def Slice.posScore (j : ℕ) : WithBot ℝ :=
  (dot x.qS fun c => toF32 (x.a.kCache j (x.kvh * attnHd + c)) : ℝ) + x.a.mask j

/-- Element `d` of the value of position `j`. -/
def Slice.posValue (d j : ℕ) : ℝ := toF32 (x.a.vCache j (x.kvh * attnHd + d))

theorem Slice.score_eq (t0 lane : ℕ) :
    x.score t0 lane = if t0 + lane < x.kv1 then x.posScore (t0 + lane) else ⊥ := by
  rw [Slice.score]
  split
  · next hlt =>
    have hrow : x.kRow t0 lane =
        fun c => toF32 (x.a.kCache (t0 + lane) (x.kvh * attnHd + c)) := by
      funext c
      rw [Slice.kRow, loadKvSlice, if_pos hlt]
    rw [hrow, Slice.posScore]
  · rfl

/-- The warp stands for the positions from `lo` to `hi`, relative to `M`: its sums, and each element
of the accumulator, are those of the positions, shrunk by the exponential of `M`. -/
structure Warp.StandsFor (lo hi : ℕ) (w : Warp ℝ) (M : ℝ) : Prop where
  max : ∀ lane < 32, w.m lane = M
  sum : ∀ lane < 32, Stands M (w.s lane) (∑ j ∈ Finset.Ico lo hi, weight (x.posScore j))
  acc : ∀ lane < 32, ∀ i < 8, Stands M (w.vacc lane i)
    (∑ j ∈ Finset.Ico lo hi, weight (x.posScore j) * x.posValue (lane * 8 + i) j)
  le : ∀ j ∈ Finset.Ico lo hi, x.posScore j ≤ M
  reached : M = lowest ∨ ∃ j ∈ Finset.Ico lo hi, x.posScore j = M

variable {x} {w : Warp ℝ} {M : ℝ} {lo t0 : ℕ}

theorem Warp.standsFor_init (lo : ℕ) : Warp.StandsFor x lo lo Warp.init lowest where
  max _ _ := rfl
  sum _ _ := by
    rw [Finset.Ico_self]
    exact .zero _
  acc _ _ _ _ := by
    rw [Finset.Ico_self]
    exact .zero _
  le j hj := by simp at hj
  reached := .inl rfl

/-- The greatest score of a tile is known to all lanes. -/
theorem Slice.mNew_eq (h : Warp.StandsFor x lo t0 w M) {lane : ℕ} (hlane : lane < 32) :
    x.mNew w t0 lane = fmaxf M (warpMax (x.score t0) 0) := by
  have hmax : warpMax (x.score t0) lane = warpMax (x.score t0) 0 :=
    (butterfly_max _ hlane).unique (butterfly_max _ (by decide))
  rw [Slice.mNew, h.max lane hlane, hmax]

/-- The weights of the lanes stand for those of the positions. -/
theorem Slice.stands_weight (h : Warp.StandsFor x lo t0 w M) {lane : ℕ} (hlane : lane < 32) :
    Stands (fmaxf M (warpMax (x.score t0) 0)) (x.weight w t0 lane)
      (if t0 + lane < x.kv1 then Softmax.weight (x.posScore (t0 + lane)) else 0) := by
  rw [Slice.weight, Slice.mNew_eq h hlane, Slice.score_eq]
  split
  · exact stands_expSub _ _
  · exact .zero _

/-- The loop of phase V skips zeros only. -/
theorem foldl_weights (p v : ℕ → ℝ) (acc : ℝ) (n : ℕ) :
    (List.range n).foldl (fun acc t => if p t ≠ 0 then acc + p t * v t else acc) acc =
      acc + ∑ t ∈ Finset.range n, p t * v t := by
  induction n with
  | zero => simp
  | succ n ih =>
    rw [List.range_succ, List.foldl_append, ih, Finset.sum_range_succ, List.foldl_cons,
      List.foldl_nil]
    by_cases hp : p n = 0
    · rw [if_neg (not_not.mpr hp), hp, zero_mul, add_zero]
    · rw [if_pos hp, add_assoc]

/-- **A tile adds its positions.** -/
theorem Warp.StandsFor.tile (h : Warp.StandsFor x lo t0 w M) (hlo : lo ≤ t0) (ht : t0 < x.kv1) :
    Warp.StandsFor x lo (min (t0 + 32) x.kv1) (x.tile w t0) (fmaxf M (warpMax (x.score t0) 0)) where
  max lane hlane := Slice.mNew_eq h hlane
  sum lane hlane := by
    have hold := (h.sum lane hlane).rescale (fmaxf M (warpMax (x.score t0) 0))
    have hnew : Stands (fmaxf M (warpMax (x.score t0) 0)) (warpSum (x.weight w t0) lane)
        (∑ j ∈ Finset.Ico t0 (min (t0 + 32) x.kv1), Softmax.weight (x.posScore j)) := by
      rw [warpSum_eq _ hlane, ← sum_tile fun j => Softmax.weight (x.posScore j)]
      exact .sum fun i hi => Slice.stands_weight h (Finset.mem_range.mp hi)
    have hadd := hold.add hnew
    rw [← sum_append_tile hlo ht]
    rw [← Slice.mNew_eq h hlane] at hadd ⊢
    rw [← h.max lane hlane] at hadd
    exact hadd
  acc lane hlane i hi := by
    have hold := (h.acc lane hlane i hi).rescale (fmaxf M (warpMax (x.score t0) 0))
    have hnew : Stands (fmaxf M (warpMax (x.score t0) 0))
        (∑ t ∈ Finset.range 32, x.weight w t0 t * x.vRow t0 t (lane * 8 + i))
        (∑ j ∈ Finset.Ico t0 (min (t0 + 32) x.kv1),
          Softmax.weight (x.posScore j) * x.posValue (lane * 8 + i) j) := by
      rw [← sum_tile fun j => Softmax.weight (x.posScore j) * x.posValue (lane * 8 + i) j]
      refine .sum fun t ht => ?_
      have hweight := (Slice.stands_weight h (Finset.mem_range.mp ht)).mul_right
        (x.vRow t0 t (lane * 8 + i))
      have hrow : (if t0 + t < x.kv1 then
            Softmax.weight (x.posScore (t0 + t)) * x.vRow t0 t (lane * 8 + i) else 0) =
          if t0 + t < x.kv1 then
            Softmax.weight (x.posScore (t0 + t)) * x.posValue (lane * 8 + i) (t0 + t) else 0 := by
        refine ite_congr rfl (fun hlt => ?_) fun _ => rfl
        rw [Slice.vRow, loadKvSlice, if_pos hlt, Slice.posValue]
      rwa [ite_mul, zero_mul, hrow] at hweight
    have hadd := hold.add hnew
    have hfold := foldl_weights (x.weight w t0) (fun t => x.vRow t0 t (lane * 8 + i))
      (w.vacc lane i * Real.exp (w.m lane - x.mNew w t0 lane)) 32
    rw [← sum_append_tile hlo ht]
    rw [← Slice.mNew_eq h hlane] at hadd ⊢
    rw [← h.max lane hlane, ← hfold] at hadd
    exact hadd
  le j hj := by
    rw [Finset.mem_Ico] at hj
    rw [coe_fmaxf]
    obtain hold | hnew := Nat.lt_or_ge j t0
    · exact (h.le j (Finset.mem_Ico.mpr ⟨hj.1, hold⟩)).trans (le_max_left _ _)
    · obtain ⟨i, rfl⟩ := Nat.exists_eq_add_of_le hnew
      have hscore := (butterfly_max (x.score t0) (by decide : 0 < 32)).2
        ⟨i, Set.mem_Iio.mpr (by omega), rfl⟩
      rw [Slice.score_eq, if_pos (by omega)] at hscore
      exact hscore.trans (le_max_right _ _)
  reached := by
    obtain hmax | hmax := max_choice (M : WithBot ℝ) (warpMax (x.score t0) 0)
    · rw [← coe_fmaxf, WithBot.coe_inj] at hmax
      rw [hmax]
      refine h.reached.imp_right ?_
      rintro ⟨j, hj, hscore⟩
      rw [Finset.mem_Ico] at hj
      exact ⟨j, Finset.mem_Ico.mpr ⟨hj.1, by omega⟩, hscore⟩
    · obtain ⟨i, hi, hscore⟩ := (butterfly_max (x.score t0) (by decide : 0 < 32)).1
      rw [Set.mem_Iio] at hi
      rw [← coe_fmaxf] at hmax
      rw [Slice.score_eq] at hscore
      split at hscore
      · next hlt =>
        exact .inr ⟨t0 + i, Finset.mem_Ico.mpr ⟨by omega, by omega⟩, hscore.trans hmax.symm⟩
      · exact absurd (hscore.trans hmax.symm).symm WithBot.coe_ne_bot

/-- A run over the tiles of a chunk. -/
theorem standsFor_tiles (x : Slice ℝ H) (lo n : ℕ) (hn : n = 0 ∨ lo + 32 * (n - 1) < x.kv1) :
    ∃ M, Warp.StandsFor x lo (if n = 0 then lo else min (lo + 32 * n) x.kv1)
      (((List.range n).map fun k => lo + 32 * k).foldl x.tile Warp.init) M := by
  induction n with
  | zero => exact ⟨lowest, Warp.standsFor_init lo⟩
  | succ n ih =>
    have hlt : lo + 32 * n < x.kv1 := by omega
    obtain ⟨M, hM⟩ := ih (by omega)
    have hhi : (if n = 0 then lo else min (lo + 32 * n) x.kv1) = lo + 32 * n := by
      split <;> omega
    rw [hhi] at hM
    rw [List.range_succ, List.map_append, List.foldl_append, if_neg (Nat.succ_ne_zero n)]
    exact ⟨_, hM.tile (Nat.le_add_right _ _) hlt⟩

/-- **The warp stands for all positions of its chunk.** The positions of the last tile that lie
beyond the chunk have weight zero. -/
theorem standsFor_chunk (x : Slice ℝ H) {lo : ℕ} (hlo : lo ≤ x.kv1) :
    ∃ M, Warp.StandsFor x lo x.kv1 ((forRange lo x.kv1 fattnTile).foldl x.tile Warp.init) M := by
  obtain ⟨M, hM⟩ := standsFor_tiles x lo ((x.kv1 - lo + 32 - 1) / 32) (by omega)
  have hhi : (if (x.kv1 - lo + 32 - 1) / 32 = 0 then lo
      else min (lo + 32 * ((x.kv1 - lo + 32 - 1) / 32)) x.kv1) = x.kv1 := by
    split <;> omega
  rw [hhi] at hM
  exact ⟨M, hM⟩

end Decode

/-! ## The records -/

section Records

variable {H : Type*} [F16 H ℝ] (a : FattnDecodeArgs ℝ H)

/-- The number of query heads of a kv head. -/
def FattnDecodeArgs.gqa : ℕ := a.nQ / a.nKvHeads

/-- The score of position `j` for head `h`, `⊥` where the mask hides it. -/
noncomputable def FattnDecodeArgs.scoreOf (h j : ℕ) : WithBot ℝ :=
  (a.mask j).map fun _ => scale * ∑ c ∈ Finset.range attnHd,
    a.q (h * attnHd + c) * toF32 (a.kCache j (h / a.gqa * attnHd + c))

/-- Element `d` of the value of position `j` for head `h`. -/
noncomputable def FattnDecodeArgs.valueOf (h d j : ℕ) : ℝ :=
  toF32 (a.vCache j (h / a.gqa * attnHd + d))

/-- The positions of a chunk. -/
def chunkPos (nKv nchunks c : ℕ) : Finset ℕ :=
  Finset.Ico (chunkLo fattnTile nKv nchunks c) (chunkHi fattnTile nKv nchunks c)

/-- `M` is the greatest score of the unmasked positions of chunk `c`. It is attained, so that a
chunk has such a maximum only if it has an unmasked position. -/
def FattnDecodeArgs.ChunkMax (nchunks h c : ℕ) (M : ℝ) : Prop :=
  (∀ j ∈ chunkPos a.nKv nchunks c, a.scoreOf h j ≤ M) ∧
    ∃ j ∈ chunkPos a.nKv nchunks c, a.scoreOf h j = M

/-- A chunk of which every position is masked. -/
def FattnDecodeArgs.Dead (nchunks c : ℕ) : Prop :=
  ∀ j ∈ chunkPos a.nKv nchunks c, a.mask j = ⊥

/-- What the decode of a chunk is worth: the weights of its positions, not relative to anything. -/
noncomputable def FattnDecodeArgs.mass (nchunks h c : ℕ) : ℝ :=
  ∑ j ∈ chunkPos a.nKv nchunks c, weight (a.scoreOf h j)

/-- The weighted values of the positions of a chunk. -/
noncomputable def FattnDecodeArgs.pull (nchunks h d c : ℕ) : ℝ :=
  ∑ j ∈ chunkPos a.nKv nchunks c, weight (a.scoreOf h j) * a.valueOf h d j

/-- The record stands for the positions of a chunk, relative to `M`: its sum for their mass, and
every element of its accumulator for what they pull. -/
structure Record.StandsFor (nchunks h c : ℕ) (rec : Record ℝ) (M : ℝ) : Prop where
  max : rec.max = M
  sum : Stands M rec.sum (a.mass nchunks h c)
  acc : ∀ d < attnHd, Stands M (rec.acc d) (a.pull nchunks h d c)
  le : ∀ j ∈ chunkPos a.nKv nchunks c, a.scoreOf h j ≤ M
  reached : M = lowest ∨ a.ChunkMax nchunks h c M

variable {a}

/-- The masks of the graph: 0 or `-inf`. -/
def FattnDecodeArgs.ZeroOrBot (a : FattnDecodeArgs ℝ H) : Prop :=
  ∀ j < a.nKv, a.mask j = 0 ∨ a.mask j = ⊥

theorem posScore_slice (hmask : a.ZeroOrBot) (nchunks c h : ℕ) {j : ℕ} (hj : j < a.nKv) :
    (a.slice nchunks c (h / a.gqa) (h % a.gqa)).posScore j = a.scoreOf h j := by
  have hqh : h / a.gqa * (a.nQ / a.nKvHeads) + h % a.gqa = h := Nat.div_add_mod' h a.gqa
  rw [Slice.posScore, FattnDecodeArgs.scoreOf, dot_eq, Finset.mul_sum]
  obtain hzero | hbot := hmask j hj
  · have hsum : ∑ c' ∈ Finset.range attnHd, (a.slice nchunks c (h / a.gqa) (h % a.gqa)).qS c' *
        toF32 (a.kCache j (h / a.gqa * attnHd + c')) = ∑ c' ∈ Finset.range attnHd,
          scale * (a.q (h * attnHd + c') * toF32 (a.kCache j (h / a.gqa * attnHd + c'))) := by
      refine Finset.sum_congr rfl fun c' _ => ?_
      rw [Slice.qS, FattnDecodeArgs.slice, hqh, mul_assoc]
    have hadd := (add_zero (_ : WithBot ℝ)).trans (congrArg WithBot.some hsum)
    rw [← hzero] at hadd
    exact hadd.trans (by rw [hzero]; rfl)
  · have hadd := WithBot.add_bot (((∑ c' ∈ Finset.range attnHd,
      (a.slice nchunks c (h / a.gqa) (h % a.gqa)).qS c' *
        toF32 (a.kCache j (h / a.gqa * attnHd + c')) : ℝ) : WithBot ℝ))
    rw [← hbot] at hadd
    exact hadd.trans (by rw [hbot]; rfl)

/-- **A record stands for the positions of its chunk.** -/
theorem fattnDecode_standsFor {nchunks c : ℕ} (hwrap : NoWrap a.nKv nchunks) (hc : c < nchunks)
    (hmask : a.ZeroOrBot) (h : ℕ) : ∃ M, Record.StandsFor a nchunks h c
      (fattnDecode a nchunks c (h / a.gqa) (h % a.gqa)) M := by
  have hlo := hwrap.kv0_eq hc
  have hhi := hwrap.kv1_eq hc
  have hle : chunkLo fattnTile a.nKv nchunks c ≤ chunkHi fattnTile a.nKv nchunks c :=
    le_min (Nat.le_add_right _ _) (Nat.min_le_right _ _)
  have hkv1 : (a.slice nchunks c (h / a.gqa) (h % a.gqa)).kv1 = chunkHi fattnTile a.nKv nchunks c :=
    hhi
  have hscore : ∀ j ∈ chunkPos a.nKv nchunks c,
      (a.slice nchunks c (h / a.gqa) (h % a.gqa)).posScore j = a.scoreOf h j := fun j hj =>
    posScore_slice hmask nchunks c h ((Finset.mem_Ico.mp hj).2.trans_le (chunkHi_le c))
  obtain ⟨M, hM⟩ := standsFor_chunk (a.slice nchunks c (h / a.gqa) (h % a.gqa)) (hkv1 ▸ hle)
  refine ⟨M, ?_⟩
  rw [fattnDecode, tiles, hlo, hhi]
  rw [hkv1] at hM
  have hlanes (d : ℕ) (hd : d < attnHd) : d / 8 < 32 ∧ d % 8 < 8 ∧ d / 8 * 8 + d % 8 = d := by
    have hhd : attnHd = 256 := rfl
    omega
  have hle' : ∀ j ∈ chunkPos a.nKv nchunks c, a.scoreOf h j ≤ M := by
    intro j hj
    rw [← hscore j hj]
    exact hM.le j hj
  refine ⟨?_, ?_, fun d hd => ?_, hle', ?_⟩
  · exact congrArg _ (hM.max 0 (by decide))
  · rw [FattnDecodeArgs.mass, ← Finset.sum_congr rfl fun j hj => congrArg weight (hscore j hj)]
    exact hM.sum 0 (by decide)
  · obtain ⟨hlane, hi, hidx⟩ := hlanes d hd
    have hacc := hM.acc (d / 8) hlane (d % 8) hi
    rw [hidx] at hacc
    rw [FattnDecodeArgs.pull, ← Finset.sum_congr rfl fun j hj =>
      congrArg (weight · * a.valueOf h d j) (hscore j hj)]
    exact hacc
  · apply hM.reached.imp_right
    rintro ⟨j, hj, heq⟩
    refine ⟨hle', j, hj, ?_⟩
    rw [← hscore j hj, heq]

/-! ## The merge -/

/-- Nothing but masked chunks so far, or sums relative to the maximum of some chunk. In the first
case the maximum is still below all scores. -/
def Merge.StandsFor (a : FattnDecodeArgs ℝ H) (nchunks h d : ℕ) (cs : List ℕ)
    (st : Merge ℝ) : Prop :=
  (∀ c ∈ cs, a.Dead nchunks c) ∧ st.acc = 0 ∧ st.rowsum = 0 ∧ st.maxVal ≤ (lowest : ℝ) ∨
  ∃ M : ℝ, st.maxVal = M ∧ lowest < M ∧ (∃ c ∈ cs, a.ChunkMax nchunks h c M) ∧
    Stands M st.rowsum (cs.map (a.mass nchunks h)).sum ∧
      Stands M st.acc (cs.map (a.pull nchunks h d)).sum

theorem scoreOf_of_masked {h j : ℕ} (hj : a.mask j = ⊥) : a.scoreOf h j = ⊥ := by
  rw [FattnDecodeArgs.scoreOf, hj]
  rfl

theorem mass_of_dead {nchunks h c : ℕ} (hdead : a.Dead nchunks c) : a.mass nchunks h c = 0 :=
  Finset.sum_eq_zero fun j hj => by rw [scoreOf_of_masked (hdead j hj), weight_bot]

theorem pull_of_dead {nchunks h d c : ℕ} (hdead : a.Dead nchunks c) : a.pull nchunks h d c = 0 :=
  Finset.sum_eq_zero fun j hj => by rw [scoreOf_of_masked (hdead j hj), weight_bot, zero_mul]

/-- **The record of a masked chunk is empty.** -/
theorem Record.StandsFor.of_dead {nchunks h c : ℕ} {rec : Record ℝ} {M : ℝ}
    (hrec : Record.StandsFor a nchunks h c rec M) (hdead : a.Dead nchunks c) :
    M = lowest ∧ rec.sum = 0 ∧ ∀ d < attnHd, rec.acc d = 0 := by
  refine ⟨hrec.reached.resolve_right ?_, ?_, fun d hd => ?_⟩
  · rintro ⟨-, j, hj, heq⟩
    rw [scoreOf_of_masked (hdead j hj)] at heq
    exact WithBot.coe_ne_bot heq.symm
  · have hsum := hrec.sum
    rw [mass_of_dead hdead] at hsum
    exact hsum.eq_zero
  · have hacc := hrec.acc d hd
    rw [pull_of_dead hdead] at hacc
    exact hacc.eq_zero

/-- The record of a chunk with an unmasked position bears the maximum of the chunk. -/
theorem Record.StandsFor.of_live {nchunks h c : ℕ} {rec : Record ℝ} {M : ℝ}
    (hrec : Record.StandsFor a nchunks h c rec M) (hlive : ¬ a.Dead nchunks c)
    (hlow : ∀ j < a.nKv, ∀ x : ℝ, a.scoreOf h j = x → lowest < x) :
    lowest < M ∧ a.ChunkMax nchunks h c M := by
  rw [FattnDecodeArgs.Dead] at hlive
  push Not at hlive
  obtain ⟨j, hj, hne⟩ := hlive
  obtain ⟨m, hm⟩ := WithBot.ne_bot_iff_exists.mp hne
  obtain ⟨x, hx⟩ : ∃ x : ℝ, a.scoreOf h j = x := by
    rw [FattnDecodeArgs.scoreOf, ← hm]
    exact ⟨_, rfl⟩
  have hjKv : j < a.nKv := (Finset.mem_Ico.mp hj).2.trans_le (chunkHi_le c)
  have hle := hrec.le j hj
  rw [hx, WithBot.coe_le_coe] at hle
  have hlt : lowest < M := (hlow j hjKv x hx).trans_le hle
  exact ⟨hlt, hrec.reached.resolve_left hlt.ne'⟩

theorem ftzScale_coe {x y : ℝ} (h : y ≤ x + 20) :
    ftzScale (x : WithBot ℝ) y = Real.exp (x - y) := by
  have hftz : (ftz : ℝ) ≤ x - y := by
    have : (ftz : ℝ) = -20 := rfl
    linarith
  exact if_pos hftz

theorem ftzScale_self (x : ℝ) : ftzScale (x : WithBot ℝ) x = 1 := by
  rw [ftzScale_coe (by linarith), sub_self, Real.exp_zero]

/-- What one record does to the state, for a finite maximum. -/
theorem Merge.record_eq (d : ℕ) (st : Merge ℝ) {rec : Record ℝ} {m : ℝ} (hmax : rec.max = m) :
    st.record d rec =
      { st with
        acc := ftzScale st.maxVal (fmaxf m st.maxVal) * st.acc +
          ftzScale (m : WithBot ℝ) (fmaxf m st.maxVal) * rec.acc d
        rowsum := ftzScale st.maxVal (fmaxf m st.maxVal) * st.rowsum +
          ftzScale (m : WithBot ℝ) (fmaxf m st.maxVal) * rec.sum
        maxVal := (fmaxf m st.maxVal : ℝ) } := by
  rw [Merge.record, hmax]

theorem sum_map_concat (f : ℕ → ℝ) (cs : List ℕ) (c : ℕ) :
    ((cs ++ [c]).map f).sum = (cs.map f).sum + f c := by simp

section Merging

variable {nchunks h d : ℕ} {cs : List ℕ} {c : ℕ} {st : Merge ℝ} {rec : Record ℝ} {m : ℝ}

theorem Merge.standsFor_init : Merge.StandsFor a nchunks h d [] Merge.init :=
  .inl ⟨by simp, rfl, rfl, bot_le⟩

/-- **A masked chunk contributes nothing.** -/
theorem Merge.StandsFor.dead (hst : Merge.StandsFor a nchunks h d cs st)
    (hrec : Record.StandsFor a nchunks h c rec m) (hdead : a.Dead nchunks c) (hd : d < attnHd) :
    Merge.StandsFor a nchunks h d (cs ++ [c]) (st.record d rec) := by
  obtain ⟨rfl, hsum, hacc⟩ := hrec.of_dead hdead
  rw [Merge.record_eq d st hrec.max, hsum, hacc d hd]
  obtain ⟨hall, hzero, hrow, hmax⟩ | ⟨M, hM, hlt, ⟨c', hc', hcM⟩, hrow, hstacc⟩ := hst
  · refine .inl ⟨?_, ?_, ?_, ?_⟩
    · exact List.forall_mem_append.mpr ⟨hall, by simpa using hdead⟩
    · simp only [hzero, mul_zero, add_zero]
    · simp only [hrow, mul_zero, add_zero]
    · simp only [coe_fmaxf, max_eq_left hmax, le_refl]
  · have hmax : fmaxf lowest (M : WithBot ℝ) = M := by
      rw [← WithBot.coe_inj, coe_fmaxf]
      exact max_eq_right (WithBot.coe_le_coe.mpr hlt.le)
    refine .inr ⟨M, ?_, hlt, ⟨c', List.mem_append_left _ hc', hcM⟩, ?_, ?_⟩
    · simp only [hM, hmax]
    · rw [sum_map_concat, mass_of_dead hdead, add_zero]
      simp only [hM, hmax, ftzScale_self, one_mul, mul_zero, add_zero]
      exact hrow
    · rw [sum_map_concat, pull_of_dead hdead, add_zero]
      simp only [hM, hmax, ftzScale_self, one_mul, mul_zero, add_zero]
      exact hstacc

/-- Sums relative to two maxima less than the threshold apart, taken to the greater one. -/
theorem stands_merge {M M' x y X Y : ℝ} (hx : Stands M x X) (hy : Stands m y Y)
    (hnear : M' ≤ m + 20) (hnear' : M' ≤ M + 20) :
    Stands M' (ftzScale (M : WithBot ℝ) M' * x + ftzScale (m : WithBot ℝ) M' * y) (X + Y) := by
  rw [ftzScale_coe hnear', ftzScale_coe hnear, mul_comm _ x, mul_comm _ y]
  exact (hx.rescale M').add (hy.rescale M')

/-- **A chunk with an unmasked position adds its positions.** -/
theorem Merge.StandsFor.live (hst : Merge.StandsFor a nchunks h d cs st)
    (hrec : Record.StandsFor a nchunks h c rec m) (hlt : lowest < m)
    (hcmax : a.ChunkMax nchunks h c m) (hd : d < attnHd)
    (hnear : ∀ c' ∈ cs, ∀ M, a.ChunkMax nchunks h c' M → M ≤ m + 20 ∧ m ≤ M + 20) :
    Merge.StandsFor a nchunks h d (cs ++ [c]) (st.record d rec) := by
  rw [Merge.record_eq d st hrec.max]
  obtain ⟨hall, hzero, hrow, hmax⟩ | ⟨M, hM, hltM, ⟨c', hc', hcM⟩, hrow, hstacc⟩ := hst
  · have hmaxNew : fmaxf m st.maxVal = m := by
      rw [← WithBot.coe_inj, coe_fmaxf]
      exact max_eq_left (hmax.trans (WithBot.coe_le_coe.mpr hlt.le))
    have hmass : (cs.map (a.mass nchunks h)).sum = 0 :=
      List.sum_eq_zero fun x hx => by
        obtain ⟨c', hc', rfl⟩ := List.mem_map.mp hx
        exact mass_of_dead (hall c' hc')
    have hpull : (cs.map (a.pull nchunks h d)).sum = 0 :=
      List.sum_eq_zero fun x hx => by
        obtain ⟨c', hc', rfl⟩ := List.mem_map.mp hx
        exact pull_of_dead (hall c' hc')
    refine .inr ⟨m, ?_, hlt, ⟨c, by simp, hcmax⟩, ?_, ?_⟩
    · simp only [hmaxNew]
    · rw [sum_map_concat, hmass, zero_add]
      simp only [hmaxNew, hrow, ftzScale_self, mul_zero, one_mul, zero_add]
      exact hrec.sum
    · rw [sum_map_concat, hpull, zero_add]
      simp only [hmaxNew, hzero, ftzScale_self, mul_zero, one_mul, zero_add]
      exact hrec.acc d hd
  · have hmaxNew : fmaxf m (M : WithBot ℝ) = max m M := by
      rw [← WithBot.coe_inj, coe_fmaxf]
      exact (WithBot.coe_max m M).symm
    obtain ⟨hMm, hmM⟩ := hnear c' hc' M hcM
    have hnearm : max m M ≤ m + 20 := max_le (by linarith) hMm
    have hnearM : max m M ≤ M + 20 := max_le hmM (by linarith)
    refine .inr ⟨max m M, ?_, lt_max_of_lt_left hlt, ?_, ?_, ?_⟩
    · simp only [hM, hmaxNew]
    · obtain hle | hle := max_choice m M
      · rw [hle]
        exact ⟨c, by simp, hcmax⟩
      · rw [hle]
        exact ⟨c', List.mem_append_left _ hc', hcM⟩
    · rw [sum_map_concat]
      simp only [hM, hmaxNew]
      exact stands_merge hrow hrec.sum hnearm hnearM
    · rw [sum_map_concat]
      simp only [hM, hmaxNew]
      exact stands_merge hstacc (hrec.acc d hd) hnearm hnearM

/-- The maxima of the chunks with an unmasked position are close to each other, by less than the
threshold of the flush. Otherwise a whole chunk may be flushed. -/
def FattnDecodeArgs.Near (a : FattnDecodeArgs ℝ H) (nchunks h : ℕ) : Prop :=
  ∀ c < nchunks, ∀ c' < nchunks, ∀ M M', a.ChunkMax nchunks h c M → a.ChunkMax nchunks h c' M' →
    M ≤ M' + 20

/-- The scores are above what the maxima start from. -/
def FattnDecodeArgs.Above (a : FattnDecodeArgs ℝ H) (h : ℕ) : Prop :=
  ∀ j < a.nKv, ∀ x : ℝ, a.scoreOf h j = x → lowest < x

/-- **A merge stands for its chunks.** The induction is over the chunks in the order of the merge,
and its two steps are those of a masked and of a live chunk. -/
theorem mergeChunks_standsFor {partials : ℕ → ℕ → Record ℝ}
    (hrec : ∀ c < nchunks, ∃ M, Record.StandsFor a nchunks h c (partials h c) M)
    (hlow : a.Above h) (hnear : a.Near nchunks h) (hd : d < attnHd) (cs : List ℕ)
    (hcs : ∀ c ∈ cs, c < nchunks) :
    Merge.StandsFor a nchunks h d cs (mergeChunks partials h d cs) := by
  induction cs using List.reverseRecOn with
  | nil => exact Merge.standsFor_init
  | append_singleton cs c ih =>
    have hst := ih fun c' hc' => hcs c' (List.mem_append_left _ hc')
    have hc : c < nchunks := hcs c (by simp)
    obtain ⟨M, hM⟩ := hrec c hc
    rw [mergeChunks, List.foldl_append]
    by_cases hdead : a.Dead nchunks c
    · exact hst.dead hM hdead hd
    · obtain ⟨hlt, hmax⟩ := hM.of_live hdead hlow
      refine hst.live hM hlt hmax hd fun c' hc' M' hM' => ?_
      have hc'lt := hcs c' (List.mem_append_left _ hc')
      exact ⟨hnear c' hc'lt c hc M' M hM' hmax, hnear c hc c' hc'lt M M' hmax hM'⟩

/-- With an unmasked position among the chunks, the quotient of the merge is that of the sums. -/
theorem Merge.StandsFor.div_eq (hst : Merge.StandsFor a nchunks h d cs st)
    (hlive : ∃ c ∈ cs, ¬ a.Dead nchunks c) :
    st.acc / st.rowsum = (cs.map (a.pull nchunks h d)).sum / (cs.map (a.mass nchunks h)).sum := by
  obtain ⟨hall, -⟩ | ⟨M, -, -, -, hrow, hacc⟩ := hst
  · obtain ⟨c, hc, hdead⟩ := hlive
    exact absurd (hall c hc) hdead
  · exact hacc.div hrow

end Merging

/-! ## All chunks -/

/-- The chunks make up the window. -/
theorem sum_chunkPos {nKv nchunks : ℕ} (hn : 0 < nchunks) (g : ℕ → ℝ) :
    ((List.range nchunks).map fun c => ∑ j ∈ chunkPos nKv nchunks c, g j).sum =
      ∑ j ∈ Finset.range nKv, g j := by
  have hupTo : ∀ k, ((List.range k).map fun c => ∑ j ∈ chunkPos nKv nchunks c, g j).sum =
      ∑ j ∈ Finset.range (chunkLo fattnTile nKv nchunks k), g j := by
    intro k
    induction k with
    | zero => simp [chunkLo]
    | succ k ih =>
      have hle : chunkLo fattnTile nKv nchunks k ≤ chunkLo fattnTile nKv nchunks (k + 1) := by
        rw [← chunkHi_eq]
        exact le_min (Nat.le_add_right _ _) (Nat.min_le_right _ _)
      rw [List.range_succ, sum_map_concat, ih, chunkPos, chunkHi_eq]
      exact Finset.sum_range_add_sum_Ico g hle
  rw [hupTo, chunkLo, min_eq_right (le_mul_chunkLen (by decide) hn)]

omit [F16 H ℝ] in
/-- A window with an unmasked position has a chunk with one. -/
theorem exists_live {nchunks : ℕ} (hn : 0 < nchunks) (hlive : ∃ j < a.nKv, a.mask j = 0) :
    ∃ c < nchunks, ¬ a.Dead nchunks c := by
  obtain ⟨j, hj, hmask⟩ := hlive
  obtain ⟨c, ⟨hc, hmem⟩, -⟩ := existsUnique_chunk (by decide : 0 < fattnTile) hn hj
  refine ⟨c, hc, fun hdead => ?_⟩
  have hbot := hdead j (Finset.mem_Ico.mpr hmem)
  rw [hmask] at hbot
  exact WithBot.coe_ne_bot hbot

end Records

/-- What is zero on masked chunks can be summed without them. -/
theorem sum_map_live {n : ℕ} {live : ℕ → Prop} {f : ℕ → ℝ} (hf : ∀ c < n, ¬ live c → f c = 0)
    {cs : List ℕ} (hnodup : cs.Nodup) (hcs : ∀ c, c ∈ cs ↔ c < n ∧ live c) :
    (cs.map f).sum = ((List.range n).map f).sum := by
  rw [← List.sum_toFinset f hnodup, ← List.sum_toFinset f List.nodup_range]
  refine Finset.sum_subset (fun c hc => ?_) fun c hc hnot => ?_
  · exact List.mem_toFinset.mpr (List.mem_range.mpr ((hcs c).mp (List.mem_toFinset.mp hc)).1)
  · have hlt := List.mem_range.mp (List.mem_toFinset.mp hc)
    exact hf c hlt fun hlive => hnot (List.mem_toFinset.mpr ((hcs c).mpr ⟨hlt, hlive⟩))

/-! ## The ops -/

section Ops

variable {F H : Type*} [F32 F]

/-- `op_fattn_decode`: the records that a warp stores, by head and chunk. -/
def opFattnDecode [F16 H F] (I : Launch) (a : FattnDecodeArgs F H) (block warp : ℕ) :
    List ((ℕ × ℕ) × Record F) :=
  let nchunks := I.blockHi - I.blockLo
  let chunk := block - I.blockLo
  let gqa := a.nQ / a.nKvHeads
  (List.range a.nKvHeads).flatMap fun kvh =>
    if warp < gqa then [((kvh * gqa + warp, chunk), fattnDecode a nchunks chunk kvh warp)] else []

/-- `op_fattn_reduce`: the elements of the output that a thread stores, by head and dimension. -/
def opFattnReduce (I : Launch) (nQ nChunks : ℕ) (partials : ℕ × ℕ → Record F) (block thread : ℕ) :
    List ((ℕ × ℕ) × F) :=
  if attnHd ≤ thread then []
  else (forRange (block - I.blockLo) nQ (I.blockHi - I.blockLo)).map fun h =>
    ((h, thread), fattnReduce nChunks (fun h c => partials (h, c)) h thread)

/-- `op_fattn_decode`: the partial buffer after all blocks, of `warps` warps each. A head beyond the
warps is not `active` anywhere, and keeps the records it had. -/
def decodeRecords [F16 H F] (warps nchunks : ℕ) (a : FattnDecodeArgs F H)
    (partials : ℕ → ℕ → Record F) (h c : ℕ) : Record F :=
  let gqa := a.nQ / a.nKvHeads
  if h < a.nKvHeads * gqa ∧ h % gqa < warps ∧ c < nchunks then
    fattnDecode a nchunks c (h / gqa) (h % gqa)
  else partials h c

theorem mem_opFattnDecode [F16 H F] {I : Launch} {a : FattnDecodeArgs F H} {block warp : ℕ}
    {w : (ℕ × ℕ) × Record F} : w ∈ opFattnDecode I a block warp ↔
      ∃ kvh < a.nKvHeads, warp < a.nQ / a.nKvHeads ∧
        w = ((kvh * (a.nQ / a.nKvHeads) + warp, block - I.blockLo),
          fattnDecode a (I.blockHi - I.blockLo) (block - I.blockLo) kvh warp) := by
  simp only [opFattnDecode, List.mem_flatMap, List.mem_range, List.mem_ite_nil_right,
    List.mem_singleton]

/-- **The blocks and warps of the decode fill the buffer**, in whatever order they store. -/
theorem store_opFattnDecode [F16 H F] {I : Launch} {a : FattnDecodeArgs F H}
    {ws : List ((ℕ × ℕ) × Record F)}
    (hws : ws.Perm (I.grid.flatMap fun w => opFattnDecode I a w.1 w.2))
    (partials : ℕ × ℕ → Record F) (h c : ℕ) :
    store ws partials (h, c) =
      decodeRecords I.workers (I.blockHi - I.blockLo) a (fun h c => partials (h, c)) h c := by
  -- a head is its KV head and its warp
  have hhead (kvh : ℕ) {warp : ℕ} (hlt : warp < a.nQ / a.nKvHeads) :
      (kvh * (a.nQ / a.nKvHeads) + warp) / (a.nQ / a.nKvHeads) = kvh ∧
        (kvh * (a.nQ / a.nKvHeads) + warp) % (a.nQ / a.nKvHeads) = warp := by
    constructor
    · rw [Nat.mul_comm, Nat.mul_add_div (Nat.zero_lt_of_lt hlt), Nat.div_eq_of_lt hlt, Nat.add_zero]
    · rw [Nat.mul_comm, Nat.mul_add_mod, Nat.mod_eq_of_lt hlt]
  obtain ⟨record, hrecord⟩ : ∃ record : ℕ × ℕ → Record F, ∀ k, record k =
      fattnDecode a (I.blockHi - I.blockLo) k.2 (k.1 / (a.nQ / a.nKvHeads))
        (k.1 % (a.nQ / a.nKvHeads)) := ⟨_, fun _ => rfl⟩
  have hvals : ∀ w ∈ ws, w.2 = record w.1 := by
    intro w hw
    obtain ⟨⟨block, warp⟩, -, hmem⟩ := List.mem_flatMap.mp (hws.mem_iff.mp hw)
    obtain ⟨kvh, -, hlt, rfl⟩ := mem_opFattnDecode.mp hmem
    obtain ⟨hdiv, hmod⟩ := hhead kvh hlt
    rw [hrecord, hdiv, hmod]
  rw [decodeRecords]
  split
  · next hcond =>
    obtain ⟨hh, hwarp, hc⟩ := hcond
    have hgqa : 0 < a.nQ / a.nKvHeads := Nat.pos_of_mul_pos_left (Nat.zero_lt_of_lt hh)
    have hstored : ((h, c), record (h, c)) ∈ ws := by
      refine hws.mem_iff.mpr (List.mem_flatMap.mpr ⟨(I.blockLo + c, h % (a.nQ / a.nKvHeads)),
        I.mem_grid.mpr ⟨by omega, hwarp⟩, mem_opFattnDecode.mpr ⟨h / (a.nQ / a.nKvHeads), ?_,
          Nat.mod_lt h hgqa, ?_⟩⟩)
      · exact Nat.div_lt_of_lt_mul (by rwa [Nat.mul_comm])
      · rw [hrecord, Nat.div_add_mod', Nat.add_sub_cancel_left]
    rw [store_of_mem record hvals hstored, hrecord]
  · next hcond =>
    refine store_of_notMem (fun hmem => hcond ?_) partials
    obtain ⟨⟨k, r⟩, hw, heq⟩ := List.mem_map.mp hmem
    obtain ⟨⟨block, warp⟩, hgrid, hmem⟩ := List.mem_flatMap.mp (hws.mem_iff.mp hw)
    obtain ⟨kvh, hkvh, hlt, hval⟩ := mem_opFattnDecode.mp hmem
    obtain ⟨hblock, hwarp⟩ := I.mem_grid.mp hgrid
    obtain ⟨rfl, rfl⟩ := Prod.mk.inj (heq.symm.trans (congrArg Prod.fst hval))
    refine ⟨?_, by rwa [(hhead kvh hlt).2], Nat.sub_lt_sub_right hblock.1 hblock.2⟩
    calc kvh * (a.nQ / a.nKvHeads) + warp
        < kvh * (a.nQ / a.nKvHeads) + a.nQ / a.nKvHeads := Nat.add_lt_add_left hlt _
      _ = (kvh + 1) * (a.nQ / a.nKvHeads) := (Nat.succ_mul _ _).symm
      _ ≤ a.nKvHeads * (a.nQ / a.nKvHeads) := Nat.mul_le_mul_right _ hkvh

/-- With a warp for each head of a KV head every record is written. -/
theorem store_fattnDecode [F16 H F] {I : Launch} {a : FattnDecodeArgs F H}
    (hdvd : a.nKvHeads ∣ a.nQ) (hgqa : a.nQ / a.nKvHeads ≤ I.workers)
    {ws : List ((ℕ × ℕ) × Record F)}
    (hws : ws.Perm (I.grid.flatMap fun w => opFattnDecode I a w.1 w.2))
    (partials : ℕ × ℕ → Record F) {h c : ℕ} (hh : h < a.nQ) (hc : c < I.blockHi - I.blockLo) :
    store ws partials (h, c) = fattnDecode a (I.blockHi - I.blockLo) c
      (h / (a.nQ / a.nKvHeads)) (h % (a.nQ / a.nKvHeads)) := by
  have hheads : a.nKvHeads * (a.nQ / a.nKvHeads) = a.nQ := Nat.mul_div_cancel' hdvd
  have hgqa0 : 0 < a.nQ / a.nKvHeads :=
    Nat.pos_of_mul_pos_left (Nat.zero_lt_of_lt (hheads.symm ▸ hh))
  rw [store_opFattnDecode hws, decodeRecords, if_pos]
  exact ⟨hheads.symm ▸ hh, (Nat.mod_lt h hgqa0).trans_le hgqa, hc⟩

/-- After the reduce every element of the output is there. -/
theorem store_fattnReduce {J : Launch} (hthreads : attnHd ≤ J.workers) {nQ nChunks : ℕ}
    {partials : ℕ × ℕ → Record F} {vs : List ((ℕ × ℕ) × F)}
    (hvs : vs.Perm (J.grid.flatMap fun w => opFattnReduce J nQ nChunks partials w.1 w.2))
    (dst : ℕ × ℕ → F) {h d : ℕ} (hh : h < nQ) (hd : d < attnHd) :
    store vs dst (h, d) = fattnReduce nChunks (fun h c => partials (h, c)) h d := by
  have hvals : ∀ w ∈ vs, w.2 = fattnReduce nChunks (fun h c => partials (h, c)) w.1.1 w.1.2 := by
    intro w hw
    obtain ⟨⟨block, thread⟩, -, hmem⟩ := List.mem_flatMap.mp (hvs.mem_iff.mp hw)
    simp only [opFattnReduce] at hmem
    split at hmem
    · cases hmem
    · obtain ⟨h', -, rfl⟩ := List.mem_map.mp hmem
      rfl
  have hstored : ((h, d), fattnReduce nChunks (fun h c => partials (h, c)) h d) ∈ vs := by
    have hlt := J.blockLo_lt
    obtain ⟨rel, ⟨hrel, hin⟩, -⟩ :=
      existsUnique_thread (by omega : 0 < J.blockHi - J.blockLo) hh
    refine hvs.mem_iff.mpr (List.mem_flatMap.mpr
      ⟨(J.blockLo + rel, d), J.mem_grid.mpr ⟨by omega, by omega⟩, ?_⟩)
    rw [opFattnReduce, if_neg (by omega), Nat.add_sub_cancel_left]
    exact List.mem_map.mpr ⟨h, hin, rfl⟩
  exact store_of_mem (fun k => fattnReduce nChunks
    (fun h c => partials (h, c)) k.1 k.2) hvals hstored
    dst

end Ops

/-- **Decode and reduce compute softmax attention.** In whatever order the warps of the decode and
the threads of the reduce store, every element of the output is the attention over the whole window,
however many chunks there are; and chunks without unmasked positions leave empty records and could
as well be left out of the merge. -/
theorem split_kv_softmax {H : Type*} [F16 H ℝ] {a : FattnDecodeArgs ℝ H} {I J : Launch}
    (hdvd : a.nKvHeads ∣ a.nQ) (hgqa : a.nQ / a.nKvHeads ≤ I.workers)
    (hthreads : attnHd ≤ J.workers)
    (hwrap : NoWrap a.nKv (I.blockHi - I.blockLo)) (hmask : a.ZeroOrBot)
    (hlive : ∃ j < a.nKv, a.mask j = 0) (hlow : ∀ h < a.nQ, a.Above h)
    (hnear : ∀ h < a.nQ, a.Near (I.blockHi - I.blockLo) h) {ws : List ((ℕ × ℕ) × Record ℝ)}
    (hws : ws.Perm (I.grid.flatMap fun w => opFattnDecode I a w.1 w.2))
    (partials : ℕ × ℕ → Record ℝ) {vs : List ((ℕ × ℕ) × ℝ)}
    (hvs : vs.Perm (J.grid.flatMap fun w =>
      opFattnReduce J a.nQ (I.blockHi - I.blockLo) (store ws partials) w.1 w.2))
    (dst : ℕ × ℕ → ℝ) {h d : ℕ} (hh : h < a.nQ) (hd : d < attnHd) :
    store vs dst (h, d) = attention (Finset.range a.nKv) (a.scoreOf h) (a.valueOf h d) ∧
    (∀ c < I.blockHi - I.blockLo, a.Dead (I.blockHi - I.blockLo) c →
      (store ws partials (h, c)).sum = 0 ∧ (store ws partials (h, c)).acc d = 0) ∧
    ∀ cs : List ℕ, cs.Nodup →
      (∀ c, c ∈ cs ↔ c < I.blockHi - I.blockLo ∧ ¬ a.Dead (I.blockHi - I.blockLo) c) →
      (mergeChunks (fun h c => store ws partials (h, c)) h d cs).acc /
        (mergeChunks (fun h c => store ws partials (h, c)) h d cs).rowsum =
          store vs dst (h, d) := by
  have hrec : ∀ c < I.blockHi - I.blockLo, ∃ M,
      Record.StandsFor a (I.blockHi - I.blockLo) h c (store ws partials (h, c)) M := by
    intro c hc
    rw [store_fattnDecode hdvd hgqa hws partials hh hc]
    exact fattnDecode_standsFor hwrap hc hmask h
  have hmerge (cs : List ℕ) (hcs : ∀ c ∈ cs, c < I.blockHi - I.blockLo) :
      Merge.StandsFor a (I.blockHi - I.blockLo) h d cs
        (mergeChunks (fun h c => store ws partials (h, c)) h d cs) :=
    mergeChunks_standsFor hrec (hlow h hh) (hnear h hh) hd cs hcs
  obtain ⟨c₀, hc₀, hlive₀⟩ := exists_live hwrap.pos hlive
  have hall := (hmerge (List.range (I.blockHi - I.blockLo)) fun c => List.mem_range.mp).div_eq
    ⟨c₀, List.mem_range.mpr hc₀, hlive₀⟩
  have hout : store vs dst (h, d) = _ := store_fattnReduce hthreads hvs dst hh hd
  refine ⟨?_, fun c hc hdead => ?_, fun cs hnodup hcs => ?_⟩
  · have hmass : ((List.range (I.blockHi - I.blockLo)).map (a.mass (I.blockHi - I.blockLo) h)).sum =
        ∑ j ∈ Finset.range a.nKv, weight (a.scoreOf h j) := sum_chunkPos hwrap.pos _
    have hpull : ((List.range (I.blockHi - I.blockLo)).map
        (a.pull (I.blockHi - I.blockLo) h d)).sum =
          ∑ j ∈ Finset.range a.nKv, weight (a.scoreOf h j) * a.valueOf h d j :=
      sum_chunkPos hwrap.pos _
    rw [hout, fattnReduce, hall, hmass, hpull]
    exact attention_of_stands (m := 0) (by simp [Stands]) (by simp [Stands])
  · obtain ⟨M, hM⟩ := hrec c hc
    obtain ⟨-, hsum, hacc⟩ := hM.of_dead hdead
    exact ⟨hsum, hacc d hd⟩
  · have hmass := sum_map_live (f := a.mass (I.blockHi - I.blockLo) h)
      (fun c _ hdead => mass_of_dead (not_not.mp hdead)) hnodup hcs
    have hpull := sum_map_live (f := a.pull (I.blockHi - I.blockLo) h d)
      (fun c _ hdead => pull_of_dead (not_not.mp hdead)) hnodup hcs
    rw [(hmerge cs fun c hc => ((hcs c).mp hc).1).div_eq ⟨c₀, (hcs c₀).mpr ⟨hc₀, hlive₀⟩, hlive₀⟩,
      hmass, hpull, ← hall, hout, fattnReduce]

/-! ### A run -/

/-- 0 and 1 are half-precision values, and nothing else is converted below. -/
instance : F16 ℝ ℝ where
  toF32 := id
  ofF32 := id

/-- Two heads attend over 96 positions. Their scores are 0, but for position 70, and the positions
from 32 to 63 are masked. -/
def twoHeads : FattnDecodeArgs ℝ ℝ where
  q _ := 1
  kCache j _ := if j = 70 then 1 else 0
  vCache j _ := j
  nKv := 96
  mask j := if 32 ≤ j ∧ j < 64 then ⊥ else 0
  nQ := 2
  nKvHeads := 1

/-- The same with a window and a mask of their own, for the counterexample. -/
def twoHeadsOver (nKv : ℕ) (mask : ℕ → WithBot ℝ) : FattnDecodeArgs ℝ ℝ :=
  { twoHeads with nKv, mask }

/-- A score that is not masked is 0 or 16. -/
theorem twoHeads_scoreOf (nKv : ℕ) (mask : ℕ → WithBot ℝ) (h j : ℕ) :
    (twoHeadsOver nKv mask).scoreOf h j = (mask j).map fun _ => if j = 70 then (16 : ℝ) else 0 := by
  have hsum : (∑ c ∈ Finset.range attnHd, (1 : ℝ) * if j = 70 then (1 : ℝ) else 0) =
      if j = 70 then (256 : ℝ) else 0 := by
    split <;> simp [attnHd]
  have hscale : (scale : ℝ) = 1 / 16 := rfl
  have hscore : (scale : ℝ) * (if j = 70 then (256 : ℝ) else 0) =
      if j = 70 then (16 : ℝ) else 0 := by
    rw [hscale]
    split <;> norm_num
  rw [← hscore, ← hsum]
  rfl

theorem twoHeads_score_bounds {nKv : ℕ} {mask : ℕ → WithBot ℝ} {h j : ℕ} {x : ℝ}
    (hx : (twoHeadsOver nKv mask).scoreOf h j = x) : 0 ≤ x ∧ x ≤ 16 := by
  rw [twoHeads_scoreOf] at hx
  rcases hm : mask j with _ | y
  · rw [hm] at hx
    exact absurd hx.symm WithBot.coe_ne_bot
  · rw [hm] at hx
    rw [← WithBot.coe_inj.mp hx]
    split <;> norm_num

theorem twoHeads_above (nKv : ℕ) (mask : ℕ → WithBot ℝ) (h : ℕ) :
    (twoHeadsOver nKv mask).Above h := by
  intro j _ x hx
  have hlow : (lowest : ℝ) < 0 := by norm_num [lowest]
  exact hlow.trans_le (twoHeads_score_bounds hx).1

theorem twoHeads_near (nKv : ℕ) (mask : ℕ → WithBot ℝ) (nchunks h : ℕ) :
    (twoHeadsOver nKv mask).Near nchunks h := by
  rintro c - c' - M M' ⟨-, j, -, hj⟩ ⟨-, j', -, hj'⟩
  have hM := (twoHeads_score_bounds hj).2
  have hM' := (twoHeads_score_bounds hj').1
  linarith

/-- Four chunks: one with scores of 0, one that is masked, one with a greater score, and an empty
one. -/
def fourBlocks : Launch := ⟨0, 4, 12, by decide, Nat.zero_lt_succ 11⟩

/-- One block merges. -/
def oneBlock : Launch := ⟨0, 1, 384, Nat.one_pos, by decide⟩

theorem split_kv_softmax_twoHeads :
    let partials := store (fourBlocks.grid.flatMap fun w =>
      opFattnDecode fourBlocks twoHeads w.1 w.2)
      fun _ => ⟨fun _ => 0, ⊥, 0⟩
    store (oneBlock.grid.flatMap fun w => opFattnReduce oneBlock 2 4 partials w.1 w.2)
      (fun _ => 0) (1, 3) =
        attention (Finset.range 96) (twoHeads.scoreOf 1) (twoHeads.valueOf 1 3) := by
  have hmask : twoHeads.ZeroOrBot := by
    intro j _
    by_cases hj : 32 ≤ j ∧ j < 64
    · exact .inr (if_pos hj)
    · exact .inl (if_neg hj)
  exact (split_kv_softmax (I := fourBlocks) (J := oneBlock) (by decide) (by decide) (by decide)
    ⟨by decide, by decide⟩ hmask ⟨0, by decide, rfl⟩ (fun h _ => twoHeads_above 96 _ h)
    (fun h _ => twoHeads_near 96 _ 4 h) (List.Perm.refl _) _ (List.Perm.refl _) _ (by decide)
    (by decide)).1

/-! ### A window whose sums wrap -/

/-- The greatest window there is, with one unmasked position. -/
def greatestWindow : FattnDecodeArgs ℝ ℝ :=
  twoHeadsOver 4294967040 fun j => if j = 1 then 0 else ⊥

/-- The blocks with which its sum wraps. -/
def manyBlocks : Launch := ⟨0, 257, 12, by decide, Nat.zero_lt_succ 11⟩

/-- No chunk has a position, so that every record is empty. -/
theorem fattnDecode_greatestWindow (c kvh warp d : ℕ) :
    (fattnDecode greatestWindow 257 c kvh warp).acc d = 0 := by
  have hclen : clen 4294967040 257 = 0 := by decide
  have hkv1 : kv1 4294967040 257 c ≤ kv0 4294967040 257 c := by
    rw [kv1, hclen, Nat.add_zero]
    exact (min_le_left _ _).trans (Nat.mod_le _ _)
  have htiles : tiles greatestWindow.nKv 257 c = [] :=
    List.eq_nil_iff_forall_not_mem.mpr fun t ht => by
      obtain ⟨hlt, k, rfl⟩ := (mem_forRange (by decide)).mp ht
      exact absurd hlt (not_lt.mpr (hkv1.trans (Nat.le_add_right _ _)))
  rw [fattnDecode, htiles]
  rfl

/-- Merging records of nothing gives nothing. -/
theorem mergeChunks_acc_eq_zero {partials : ℕ → ℕ → Record ℝ} {h d : ℕ} {cs : List ℕ}
    (hrec : ∀ c ∈ cs, (partials h c).acc d = 0) : (mergeChunks partials h d cs).acc = 0 := by
  refine List.foldlRecOn (motive := fun st : Merge ℝ => st.acc = 0) cs _ rfl fun st hst c hc => ?_
  rcases hm : (partials h c).max with _ | m
  · rw [Merge.record, hm]
    exact hst
  · rw [Merge.record, hm]
    simp only [hst, hrec c hc, mul_zero, add_zero]

/-- **Where a sum wraps nothing is attended to**: with the greatest window and 257 chunks the length
of the chunks is 0, and the output is 0 in place of the value of the unmasked position. -/
theorem not_split_kv_softmax :
    let a := greatestWindow
    let partials := store (manyBlocks.grid.flatMap fun w => opFattnDecode manyBlocks a w.1 w.2)
      fun _ => ⟨fun _ => 0, ⊥, 0⟩
    a.nKvHeads ∣ a.nQ ∧ a.nQ / a.nKvHeads ≤ manyBlocks.workers ∧ attnHd ≤ oneBlock.workers ∧
      a.ZeroOrBot ∧ (∃ j < a.nKv, a.mask j = 0) ∧ (∀ h < a.nQ, a.Above h) ∧
      (∀ h < a.nQ, a.Near 257 h) ∧
      store (oneBlock.grid.flatMap fun w => opFattnReduce oneBlock 2 257 partials w.1 w.2)
        (fun _ => 0) (1, 3) = 0 ∧
      attention (Finset.range a.nKv) (a.scoreOf 1) (a.valueOf 1 3) = 1 := by
  have hmask : greatestWindow.ZeroOrBot := fun j _ => by
    by_cases hj : j = 1
    · exact .inl (if_pos hj)
    · exact .inr (if_neg hj)
  refine ⟨by decide, by decide, by decide, hmask, ⟨1, by decide, rfl⟩,
    fun h _ => twoHeads_above _ _ h, fun h _ => twoHeads_near _ _ 257 h, ?_, ?_⟩
  · rw [store_fattnReduce (by decide) (List.Perm.refl _) _ (by decide) (by decide), fattnReduce,
      mergeChunks_acc_eq_zero, zero_div]
    intro c hc
    rw [store_fattnDecode (by decide) (by decide) (List.Perm.refl _) _ (by decide)
      (List.mem_range.mp hc)]
    exact fattnDecode_greatestWindow c _ _ 3
  · have hscore (j : ℕ) : weight (greatestWindow.scoreOf 1 j) = if j = 1 then 1 else 0 := by
      rw [greatestWindow, twoHeads_scoreOf]
      by_cases hj : j = 1
      · rw [if_pos hj, if_pos hj, hj]
        exact Real.exp_zero
      · rw [if_neg hj, if_neg hj]
        rfl
    have hmem : 1 ∈ Finset.range greatestWindow.nKv := Finset.mem_range.mpr (by decide)
    simp only [attention, hscore]
    rw [Finset.sum_ite_eq' _ _ fun _ => (1 : ℝ), if_pos hmem]
    have hvalue : greatestWindow.valueOf 1 3 1 = 1 := Nat.cast_one
    rw [Finset.sum_eq_single 1 (fun j _ hj => by rw [if_neg hj, zero_div, zero_mul])
      fun hnot => absurd hmem hnot, hvalue, if_pos rfl, div_one, mul_one]

end Megakernel
