import Megakernel.Halves
import Megakernel.Schedule

/-!
# Ops of which each GPU does half

What the blocks of the network have in common: an op writes as much of a buffer as its counts
say and leaves the rest, activations are quantized in blocks, and `sp` halves a count. For
vectors that are dealt out to the two GPUs (`Halves.Dealt`), each of these does on the half what
it does on the whole, and the partials of a GEMV whose columns are split add up.

What an op does to a half is stated for the whole buffer, because ops write a part of a buffer and
leave the rest, and the rest may stem from another op with other counts.
-/

namespace Megakernel

open Halves List

/-! ## Buffers and activations -/

/-- What quantization makes of the activations, in blocks of a size. How it rounds is left open, but
a block is quantized by itself. -/
structure Quantizer (K : Type*) : Type _ where
  size : ℕ
  size_pos : 0 < size
  block : (Fin size → K) → Fin size → K

/-- The values that the quantized activations stand for. -/
def Quantizer.apply {K : Type*} (Q : Quantizer K) (x : ℕ → K) (i : ℕ) : K :=
  Q.block (fun k => x (i / Q.size * Q.size + k)) ⟨i % Q.size, Nat.mod_lt i Q.size_pos⟩

/-- No rounding at all. -/
def Quantizer.exact (K : Type*) : Quantizer K := ⟨1, Nat.one_pos, id⟩

@[simp] theorem Quantizer.exact_apply {K : Type*} (x : ℕ → K) : (exact K).apply x = x := by
  funext i
  exact congrArg x (Nat.div_add_mod' i 1)

/-- The first `n` elements of `new`, and `old` from there on: what a buffer holds after an op that
writes as much as its counts say. -/
def overlay {K : Type*} (n : ℕ) (new old : ℕ → K) (i : ℕ) : K := if i < n then new i else old i

theorem overlay_of_lt {K : Type*} {n i : ℕ} (new old : ℕ → K) (hi : i < n) :
    overlay n new old i = new i := if_pos hi

/-- Row `r` of a GEMV over `ncols` columns, in exact arithmetic. -/
def gemvRow {K : Type*} [CommSemiring K] (w : ℕ → ℕ → K) (ncols : ℕ) (x : ℕ → K) (r : ℕ) : K :=
  ((range ncols).map fun c => w r c * x c).sum

/-- `sp` of the emitter. -/
abbrev sp (split : Bool) (n : ℕ) : ℕ := Schedule.sp split n

/-! ## Dealt vectors -/

section Ops

variable {K : Type*} {h m g : ℕ} {a b : ℕ → K}

/-- A half that is written as a whole. -/
theorem dealt_overlay {new new' : ℕ → K} (hd : Dealt h m g new new') (hg : g < 2)
    (old old' : ℕ → K) :
    Dealt h m g (overlay (m * h) new old) (overlay (m * (2 * h)) new' old') := by
  intro i hi
  rw [overlay_of_lt _ _ hi, overlay_of_lt _ _ (pick_lt hg hi)]
  exact hd i hi

/-- A half of which the first `k` blocks are written. -/
theorem dealt_overlay_blocks {k : ℕ} {new new' : ℕ → K} (hd : Dealt h m g a b)
    (hnew : Dealt h k g new new') (hg : g < 2) :
    Dealt h m g (overlay (k * h) new a) (overlay (k * (2 * h)) new' b) := by
  intro i hi
  have hh : 0 < h := Nat.pos_of_lt_mul_left hi
  by_cases hk : i < k * h
  · rw [overlay_of_lt _ _ hk, overlay_of_lt _ _ (pick_lt hg hk)]
    exact hnew i hk
  · have hk' : ¬ pick h g i < k * (2 * h) := by rwa [pick_lt_iff hh hg]
    rw [overlay, overlay, if_neg hk, if_neg hk']
    exact hd i hi

/-- Quantization does not look over the border of a block. -/
theorem dealt_quantize (Q : Quantizer K) (hQ : Q.size ∣ h) (hd : Dealt h m g a b) :
    Dealt h m g (Q.apply a) (Q.apply b) := by
  obtain ⟨k, rfl⟩ := hQ
  rw [Nat.mul_comm] at hd ⊢
  have hparts := dealt_parts.mp hd
  intro i hi
  have hblock : i / Q.size < m * k := by
    apply Nat.div_lt_of_lt_mul
    rwa [Nat.mul_comm, Nat.mul_assoc]
  simp only [Quantizer.apply, pick_mul_div Q.size_pos, pick_mul_mod Q.size_pos]
  congr 1
  funext j
  exact hparts _ hblock j j.isLt

/-- The rows of a GEMV. -/
theorem dealt_gemvRow [CommSemiring K] {w w' : ℕ → ℕ → K} {ncols : ℕ}
    (hw : ∀ i < m * h, ∀ c < ncols, w i c = w' (pick h g i) c) (x : ℕ → K) :
    Dealt h m g (gemvRow w ncols x) (gemvRow w' ncols x) := by
  intro i hi
  rw [gemvRow, gemvRow]
  congr 1
  apply map_congr_left
  intro c hc
  rw [hw i hi c (mem_range.mp hc)]

/-- The partials of a GEMV whose columns are split add up to the whole row, because each column is
one that one of the GPUs has. -/
theorem gemvRow_add [CommSemiring K] {w₀ w₁ w : ℕ → ℕ → K} {x₀ x₁ x : ℕ → K} {r : ℕ}
    (hw₀ : Dealt h m 0 (w₀ r) (w r)) (hw₁ : Dealt h m 1 (w₁ r) (w r)) (hx₀ : Dealt h m 0 x₀ x)
    (hx₁ : Dealt h m 1 x₁ x) :
    gemvRow w₀ (m * h) x₀ r + gemvRow w₁ (m * h) x₁ r = gemvRow w (m * (2 * h)) x r := by
  have hside {g : ℕ} {w' : ℕ → ℕ → K} {x' : ℕ → K} (hw : Dealt h m g (w' r) (w r))
      (hx : Dealt h m g x' x) : gemvRow w' (m * h) x' r =
        ((range (m * h)).map fun i => w r (pick h g i) * x (pick h g i)).sum := by
    rw [gemvRow]
    congr 1
    apply map_congr_left
    intro i hi
    rw [hw i (mem_range.mp hi), hx i (mem_range.mp hi)]
  rw [hside hw₀ hx₀, hside hw₁ hx₁, gemvRow]
  exact sum_pick (fun c => w r c * x c) m h

@[simp] theorem sp_false (k : ℕ) : sp false k = k := Nat.div_one k

@[simp] theorem sp_true (m k : ℕ) : sp true (m * (2 * k)) = m * k := half_periods m k

/-- A buffer of which each GPU writes its half. -/
theorem dealt_written {h m g k : ℕ} {new new' : ℕ → K} (hk : k = m * (2 * h))
    (hd : Dealt h m g new new') (hg : g < 2) (old old' : ℕ → K) :
    Dealt h m g (overlay (sp true k) new old) (overlay (sp false k) new' old') := by
  rw [hk, sp_true, sp_false]
  exact dealt_overlay hd hg old old'

theorem dealt_written_parts {h m g k u : ℕ} {new new' : ℕ → K} (hk : k = m * (2 * h))
    (hd : Dealt (h * u) m g new new') (hg : g < 2) (old old' : ℕ → K) :
    Dealt (h * u) m g (overlay (sp true k * u) new old) (overlay (sp false k * u) new' old') := by
  have hwhole : m * (2 * h) * u = m * (2 * (h * u)) := by ring
  rw [hk, sp_true, sp_false, Nat.mul_assoc, hwhole]
  exact dealt_overlay hd hg old old'

end Ops

end Megakernel
