import Megakernel.FattnDecode
import Mathlib.Algebra.Order.Ring.Rat

/-!
# The KV caches over a run

The passes of a run, one per token from position 0: `set_pass_inputs`, then every
attention layer in the order of the trunk appends the K and V rows of the token
and attends over the window (`parity_run` of `k0/harness.cpp`). What the rows hold
depends on the model and the tokens; here they are any family `kv`, by pass and
layer.

A row is written by the pass of its position and kept from then on
(`runPasses_rows`), so in pass `t` the attention of a layer is over the rows of
the passes 0 to `t` (`decode_causal`).

Of a pass only the inputs and the appends are modelled, as nothing else changes the caches. What is
appended may depend on anything, for the rows are an arbitrary family.
-/

namespace Megakernel

open Loops F32 F16

variable {F H : Type*}

/-- The rows a pass appends in a layer: `k_stage` and `v_stage`. -/
abbrev KvRows (F : Type*) : Type _ := (ℕ → F) × (ℕ → F)

/-- The cells and the caches of a GPU, by layer. Weights and activations are not part of it: what
the rows of a pass are is a parameter of the run. -/
structure KvState (F H : Type*) : Type _ where
  cells : PassCells F
  cacheK : ℕ → ℕ → ℕ → H
  cacheV : ℕ → ℕ → ℕ → H

/-! ## Appending -/

section Append

variable [F16 H F]

/-- The two OP_KV_APPEND of a layer. -/
def KvState.append (threads rowWidth : ℕ) (kv : ℕ → KvRows F) (st : KvState F H) (l : ℕ) :
    KvState F H :=
  { st with
    cacheK := Function.update st.cacheK l
      (kvAppend threads rowWidth st.cells.kvRow (kv l).1 (st.cacheK l))
    cacheV := Function.update st.cacheV l
      (kvAppend threads rowWidth st.cells.kvRow (kv l).2 (st.cacheV l)) }

/-- The appends of some layers, in order. -/
def KvState.appends (threads rowWidth : ℕ) (kv : ℕ → KvRows F) (ls : List ℕ) (st : KvState F H) :
    KvState F H :=
  ls.foldl (KvState.append threads rowWidth kv) st

/-- Row `j` of a layer holds the f16 rows that pass `j` appended, in the K cache and in the V cache.
-/
def KvState.Holds (st : KvState F H) (rowWidth : ℕ) (kv : ℕ → ℕ → KvRows F) (l j : ℕ) : Prop :=
  ∀ i < rowWidth, st.cacheK l j i = ofF32 ((kv j l).1 i) ∧ st.cacheV l j i = ofF32 ((kv j l).2 i)

/-- Row `j` of a layer is as allocated. -/
def KvState.Blank (st : KvState F H) (l j : ℕ) : Prop :=
  ∀ i, st.cacheK l j i = 0 ∧ st.cacheV l j i = 0

variable {threads rowWidth : ℕ} {kv : ℕ → ℕ → KvRows F} {st : KvState F H} {t : ℕ}

@[simp] theorem KvState.append_cells (kv : ℕ → KvRows F) (l : ℕ) :
    (st.append threads rowWidth kv l).cells = st.cells := rfl

@[simp] theorem KvState.appends_nil (kv : ℕ → KvRows F) :
    st.appends threads rowWidth kv [] = st := rfl

@[simp] theorem KvState.appends_cons (kv : ℕ → KvRows F) (l : ℕ) (ls : List ℕ) :
    st.appends threads rowWidth kv (l :: ls) =
      (st.append threads rowWidth kv l).appends threads rowWidth kv ls := rfl

@[simp] theorem KvState.appends_cells (kv : ℕ → KvRows F) :
    ∀ (ls : List ℕ) (st : KvState F H), (st.appends threads rowWidth kv ls).cells = st.cells
  | [], _ => rfl
  | l :: ls, st => KvState.appends_cells kv ls (st.append threads rowWidth kv l)

/-- Rows other than that of the pass are kept. -/
theorem KvState.append_row_ne (threads rowWidth : ℕ) (kv : ℕ → KvRows F) (l l' : ℕ) {j : ℕ}
    (hj : j ≠ st.cells.kvRow) :
    (st.append threads rowWidth kv l').cacheK l j = st.cacheK l j ∧
      (st.append threads rowWidth kv l').cacheV l j = st.cacheV l j := by
  obtain rfl | hne := eq_or_ne l l'
  · simp [KvState.append, kvAppend, Function.update_of_ne hj]
  · simp [KvState.append, Function.update_of_ne hne]

/-- The layer that appends holds the row of the pass. -/
theorem KvState.holds_append (ht : 0 < threads) (hw : 4 ∣ rowWidth) (hrow : st.cells.kvRow = t)
    (l : ℕ) : (st.append threads rowWidth (kv t) l).Holds rowWidth kv l t := by
  intro i hi
  simp [KvState.append, kvAppend, hrow, appendRow_apply ht hw _ _ hi]

/-- What a layer holds it keeps, also when the same pass appends the row again. -/
theorem KvState.Holds.append (ht : 0 < threads) (hw : 4 ∣ rowWidth) (hrow : st.cells.kvRow = t)
    {l j : ℕ} (h : st.Holds rowWidth kv l j) (l' : ℕ) :
    (st.append threads rowWidth (kv t) l').Holds rowWidth kv l j := by
  obtain rfl | hj := eq_or_ne j t
  · obtain rfl | hl := eq_or_ne l l'
    · exact KvState.holds_append ht hw hrow l
    · intro i hi
      simp only [KvState.append, Function.update_of_ne hl]
      exact h i hi
  · obtain ⟨hk, hv⟩ := st.append_row_ne threads rowWidth (kv t) l l' (hrow ▸ hj)
    intro i hi
    rw [hk, hv]
    exact h i hi

/-- **The appends of a pass keep the rows there are and add its own.** -/
theorem KvState.appends_rows (kv : ℕ → ℕ → KvRows F) (ht : 0 < threads) (hw : 4 ∣ rowWidth) :
    ∀ (ls : List ℕ) (st : KvState F H), st.cells.kvRow = t →
      (∀ l j, st.Holds rowWidth kv l j →
        (st.appends threads rowWidth (kv t) ls).Holds rowWidth kv l j) ∧
      (∀ l ∈ ls, (st.appends threads rowWidth (kv t) ls).Holds rowWidth kv l t) ∧
      ∀ l j, j ≠ t → st.Blank l j → (st.appends threads rowWidth (kv t) ls).Blank l j
  | [], st, _ => ⟨fun _ _ h => h, nofun, fun _ _ _ h => h⟩
  | l' :: ls, st, hrow => by
    obtain ⟨hkeep, hnew, hblank⟩ :=
      KvState.appends_rows kv ht hw ls (st.append threads rowWidth (kv t) l') hrow
    refine ⟨?_, ?_, ?_⟩
    · intro l j h
      exact hkeep l j (h.append ht hw hrow l')
    · intro l hl
      obtain rfl | hl := List.mem_cons.mp hl
      · exact hkeep l t (KvState.holds_append ht hw hrow l)
      · exact hnew l hl
    · intro l j hj h
      refine hblank l j hj fun i => ?_
      obtain ⟨hk, hv⟩ := st.append_row_ne threads rowWidth (kv t) l l' (hrow ▸ hj)
      rw [hk, hv]
      exact h i

end Append

/-! ## Passes -/

section Run

variable [F32 F]

/-- `set_pass_inputs` -/
def KvState.setInputs (nCtx pos : ℕ) (st : KvState F H) : Except String (KvState F H) :=
  (setPassInputs (maskCap nCtx) pos st.cells).map fun r => { st with cells := r.2 }

/-- Inside the context the inputs of a pass are set, and the caches are not touched. -/
theorem KvState.exists_setInputs {nCtx t : ℕ} (ht : t < nCtx) (st : KvState F H) :
    ∃ (w : ℕ) (st' : KvState F H), st.setInputs nCtx t = .ok st' ∧
      setPassInputs (maskCap nCtx) t st.cells = .ok (w, st'.cells) ∧
      st'.cacheK = st.cacheK ∧ st'.cacheV = st.cacheV := by
  obtain ⟨w, c, hset⟩ := exists_setPassInputs ht st.cells
  refine ⟨w, { st with cells := c }, ?_, hset, rfl, rfl⟩
  rw [KvState.setInputs, hset]
  rfl

variable [F16 H F]

/-- As allocated. -/
def KvState.zero : KvState F H := ⟨.zero, fun _ _ _ => 0, fun _ _ _ => 0⟩

/-- The passes at the positions below `t`: of each the inputs, and the appends of all attention
layers in the order of the trunk. -/
def runPasses (path : Path) (threads nCtx : ℕ) (kv : ℕ → ℕ → KvRows F) :
    ℕ → Except String (KvState F H)
  | 0 => .ok .zero
  | t + 1 => do
    let st ← runPasses path threads nCtx kv t
    let st ← st.setInputs nCtx t
    return st.appends threads path.kvRow (kv t) attnLayers

/-- Pass `t` when the layers `ls` have appended their rows. The attention of a layer runs in such a
state, when the layers behind it have not appended yet. -/
def insidePass (path : Path) (threads nCtx : ℕ) (kv : ℕ → ℕ → KvRows F) (t : ℕ) (ls : List ℕ) :
    Except String (KvState F H) := do
  let st ← runPasses path threads nCtx kv t
  let st ← st.setInputs nCtx t
  return st.appends threads path.kvRow (kv t) ls

/-- The arguments of OP_FATTN_DECODE in a layer. -/
def KvState.decodeArgs (st : KvState F H) (path : Path) (nQ : ℕ) (q : ℕ → F) (l : ℕ) :
    FattnDecodeArgs F H :=
  ⟨q, st.cacheK l, st.cacheV l, st.cells.nKv, st.cells.mask, nQ, path.kvHeads⟩

theorem kvRow_dvd (path : Path) : 4 ∣ path.kvRow := by
  cases path <;> decide

/-- **The rows inside a pass**: with the rows of the passes before in place, the rows of the layers
that have appended join them, and all others are as allocated. -/
theorem insidePass_rows {path : Path} {threads nCtx t : ℕ} (kv : ℕ → ℕ → KvRows F)
    (hthr : 0 < threads) (ht : t < nCtx) (ls : List ℕ) {st : KvState F H}
    (hrun : runPasses path threads nCtx kv t = .ok st)
    (hholds : ∀ l ∈ attnLayers, ∀ j < t, st.Holds path.kvRow kv l j)
    (hblank : ∀ l, ∀ j ≥ t, st.Blank l j) :
    ∃ (w : ℕ) (st' : KvState F H), insidePass path threads nCtx kv t ls = .ok st' ∧
      setPassInputs (maskCap nCtx) t st.cells = .ok (w, st'.cells) ∧
      (∀ l ∈ attnLayers, ∀ j < t, st'.Holds path.kvRow kv l j) ∧
      (∀ l ∈ ls, st'.Holds path.kvRow kv l t) ∧ ∀ l, ∀ j > t, st'.Blank l j := by
  obtain ⟨w, st₁, hin, hset, hcK, hcV⟩ := st.exists_setInputs ht
  obtain ⟨-, -, hrow, -⟩ := setPassInputs_ok hset
  obtain ⟨hkeep, hnew, hblank'⟩ := KvState.appends_rows kv hthr (kvRow_dvd path) ls st₁ hrow
  refine ⟨w, st₁.appends threads path.kvRow (kv t) ls, ?_, ?_, ?_, hnew, ?_⟩
  · simp only [insidePass, hrun, hin, bind, Except.bind, pure, Except.pure]
  · rw [KvState.appends_cells]
    exact hset
  · intro l hl j hj
    refine hkeep l j fun i hi => ?_
    rw [hcK, hcV]
    exact hholds l hl j hj i hi
  · intro l j hj
    refine hblank' l j hj.ne' fun i => ?_
    rw [hcK, hcV]
    exact hblank l j hj.le i

/-- **The caches after `t` passes**: the rows below `t` hold what their passes appended, the others
are as allocated. -/
theorem runPasses_rows (path : Path) {threads nCtx : ℕ} (kv : ℕ → ℕ → KvRows F)
    (hthr : 0 < threads) :
    ∀ {t : ℕ}, t ≤ nCtx → ∃ st : KvState F H, runPasses path threads nCtx kv t = .ok st ∧
      (∀ l ∈ attnLayers, ∀ j < t, st.Holds path.kvRow kv l j) ∧ ∀ l, ∀ j ≥ t, st.Blank l j
  | 0, _ => ⟨.zero, rfl, nofun, fun _ _ _ _ => ⟨rfl, rfl⟩⟩
  | t + 1, ht => by
    obtain ⟨st, hrun, hholds, hblank⟩ := runPasses_rows path kv hthr (Nat.le_of_succ_le ht)
    obtain ⟨-, st', hin, -, hkeep, hnew, hblank'⟩ :=
      insidePass_rows kv hthr ht attnLayers hrun hholds hblank
    refine ⟨st', hin, ?_, fun l j hj => hblank' l j hj⟩
    intro l hl j hj
    obtain hlt | rfl := Nat.lt_succ_iff_lt_or_eq.mp hj
    · exact hkeep l hl j hlt
    · exact hnew l hl

end Run

/-! ## Causal attention -/

/-- What attention over the padded window is to be in pass `t` in layer `l`: the rows up to `t` are
those of their passes and each of them is in one chunk, and whatever stands in the rows behind
weighs nothing. -/
structure Causal [F32 F] [F16 H F] (path : Path) (nCtx nchunks : ℕ)
    (kv : ℕ → ℕ → KvRows F) (t l : ℕ)
    (st : KvState F H) : Prop where
  /-- each row up to the position holds what its pass appended -/
  rows : ∀ j ≤ t, st.Holds path.kvRow kv l j
  /-- the padding is allocated and holds zeros -/
  padding : InBounds path nCtx nchunks st.cells ∧ ∀ j, t < j → j < st.cells.nKv → st.Blank l j
  /-- each row up to the position belongs to exactly one chunk -/
  chunk : ∀ j ≤ t, ∃! c, c < nchunks ∧ j ∈ rowsLoaded st.cells.nKv nchunks c
  /-- the rows beyond weigh exactly zero, in every tile of every chunk, for every head -/
  weight : ∀ (q : ℕ → F) (nQ chunk kvh warp t0 lane : ℕ), t < t0 + lane →
    ((st.decodeArgs path nQ q l).slice nchunks chunk kvh warp).score t0 lane = ⊥ ∧
      ∀ w, ((st.decodeArgs path nQ q l).slice nchunks chunk kvh warp).weight w t0 lane = 0
  /-- and the records are what they were with anything else in these rows -/
  ignore : ∀ (q : ℕ → F) (nQ chunk kvh warp : ℕ) (kCache vCache : ℕ → ℕ → H),
    (∀ j ≤ t, kCache j = st.cacheK l j) → (∀ j ≤ t, vCache j = st.cacheV l j) →
      fattnDecode ((st.decodeArgs path nQ q l).withCaches kCache vCache) nchunks chunk kvh warp =
        fattnDecode (st.decodeArgs path nQ q l) nchunks chunk kvh warp

variable [F32 F] [F16 H F]

/-- **Attention is causal over a whole run.** In every pass of a run inside a context of whole
windows, every attention layer attends to the rows of the passes so far and to nothing else. -/
theorem decode_causal {dev : Device} {path : Path} {nCtx threads nchunks T t : ℕ}
    (hacc : Accepts dev path nCtx) (hwhole : 256 ∣ nCtx) (hthr : 0 < threads) (hn : 0 < nchunks)
    (hn' : nchunks < 2 ^ 16) (hT : T ≤ nCtx) (ht : t < T) (kv : ℕ → ℕ → KvRows F)
    {before after : List ℕ} {l : ℕ} (hl : attnLayers = before ++ l :: after) :
    ∃ st : KvState F H, insidePass path threads nCtx kv t (before ++ [l]) = .ok st ∧
      Causal path nCtx nchunks kv t l st := by
  have hpos : t < nCtx := ht.trans_le hT
  obtain ⟨st₀, hrun, hholds, hblank⟩ := runPasses_rows (H := H) path kv hthr hpos.le
  obtain ⟨w, st, hin, hset, hkeep, hnew, hblank'⟩ :=
    insidePass_rows kv hthr hpos (before ++ [l]) hrun hholds hblank
  obtain ⟨-, hw, -, hnKv, -, hmask⟩ := setPassInputs_ok hset
  obtain ⟨hu, hfits⟩ := fits_window hacc hpos hn hn'
  rw [hw, hu] at hnKv
  have hwin : t < padUp (t + 1) 256 := le_padUp (t + 1) (by decide)
  have hmem : l ∈ attnLayers := by
    rw [hl]
    exact List.mem_append_right _ List.mem_cons_self
  have hmasked : ∀ (q : ℕ → F) (nQ : ℕ), (st.decodeArgs path nQ q l).Masked t := by
    intro q nQ j hj hlt
    have hj' : j < w := by
      rw [hw, ← hnKv]
      exact hj
    exact (hmask j hj').trans (if_neg (Nat.not_le.mpr hlt))
  refine ⟨st, hin, ?_, ⟨?_, ?_⟩, ?_, ?_, ?_⟩
  · intro j hj
    obtain hlt | rfl := Nat.lt_or_eq_of_le hj
    · exact hkeep l hmem j hlt
    · exact hnew l (List.mem_append_right _ List.mem_cons_self)
  · exact inBounds_of_le hacc hpos hn hn' hset (padUp_le (by decide) hwhole hpos)
  · exact fun j hj _ => hblank' l j hj
  · intro j hj
    obtain ⟨chunk, ⟨hchunk, hin⟩, hunique⟩ :=
      existsUnique_chunk (show 0 < fattnTile by decide) hn (hj.trans_lt hwin)
    rw [hnKv]
    refine ⟨chunk, ⟨hchunk, ?_⟩, ?_⟩
    · rw [hfits.mem_rowsLoaded hchunk, hfits.kv0_eq hchunk, hfits.kv1_eq hchunk]
      exact hin
    · rintro chunk' ⟨hchunk', hin'⟩
      rw [hfits.mem_rowsLoaded hchunk', hfits.kv0_eq hchunk', hfits.kv1_eq hchunk'] at hin'
      exact hunique chunk' ⟨hchunk', hin'⟩
  · intro q nQ chunk kvh warp t0 lane hj
    refine ⟨?_, fun w => ?_⟩
    · exact Slice.score_eq_bot (hmasked q nQ) (Nat.min_le_right _ _) hj
    · exact Slice.weight_eq_zero (hmasked q nQ) (Nat.min_le_right _ _) hj w
  · intro q nQ chunk kvh warp kCache vCache hk hv
    exact fattnDecode_withCaches (hmasked q nQ) hk hv nchunks chunk kvh warp

/-- Rational values, with an exponential that flushes everything below 1. -/
instance : F32 ℚ where
  expf x := if x < 0 then 0 else 1
  lowest := -2 ^ 127
  ftz := -20
  scale := 1 / 16

instance : F16 ℚ ℚ where
  toF32 := id
  ofF32 := id

/-- Rows that tell the pass, the layer and the place. -/
def toldRows : ℕ → ℕ → KvRows ℚ := fun j l => (fun i => j + 2 * l + i / 4, fun i => i - 3 * j - l)

theorem decode_causal_second :
    ∃ st : KvState ℚ ℚ, insidePass .single 27648 256 toldRows 1 ([] ++ [3]) = .ok st ∧
      Causal .single 256 72 toldRows 1 3 st := by
  have hacc : Accepts bigDevice .single 256 := ⟨by decide, by decide⟩
  have hl : attnLayers = [] ++ 3 :: attnLayers.tail := by decide
  exact decode_causal hacc (by decide) (by decide) (by decide) (by decide)
    (show 2 ≤ 256 by decide) (by decide) toldRows hl

end Megakernel
