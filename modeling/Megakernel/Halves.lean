import Mathlib.Data.List.Perm.Basic
import Mathlib.Algebra.BigOperators.Group.List.Basic
import Mathlib.Tactic.Ring

/-!
# Splitting an index range in alternating blocks

A range is cut into blocks of `h` indices which are dealt out in turn to two
sides. `pick h g i` is the index that the `i`-th index of side `g` has in the
whole range. Each index of the whole range is picked once (`range_perm`), picking
commutes with replacing every index by `u` of them (`pick_mul_add`), so it does not
matter whether elements or their bytes are dealt out, and with one block for each side
it is the split into two halves.

Vectors are functions and only indices below a bound matter, so that halves of halves, and halves of
vectors whose elements have parts, are again instances of `Dealt`. The lemmas about it are those
that the splits of weights, caches and activations use, one for each way in which a vector is used.
-/

namespace Halves

open List

/-- The index in the whole range of the `i`-th index of side `g`. A whole number of blocks is dealt
out, two by two, so that both sides get as many. -/
def pick (h g i : ℕ) : ℕ := i / h * (2 * h) + g * h + i % h

/-- The indices of a run. -/
def copy (off len : ℕ) : List ℕ := (range len).map (off + ·)

section Pick

variable {h g i : ℕ}

/-- Half of a whole number of periods. -/
theorem half_periods (m h : ℕ) : m * (2 * h) / 2 = m * h := by
  rw [Nat.mul_left_comm, Nat.mul_div_cancel_left _ (by decide)]

theorem pick_eq (h g i : ℕ) : pick h g i = (2 * (i / h) + g) * h + i % h := by
  rw [pick]
  ring

theorem pick_lt {m : ℕ} (hg : g < 2) (hi : i < m * h) : pick h g i < m * (2 * h) := by
  have hh : 0 < h := Nat.pos_of_lt_mul_left hi
  have hdiv : i / h < m := Nat.div_lt_of_lt_mul (by rwa [Nat.mul_comm])
  have hmod := Nat.mod_lt i hh
  have hle : (2 * (i / h) + g + 1) * h ≤ 2 * m * h := Nat.mul_le_mul_right h (by omega)
  rw [Nat.add_mul, Nat.one_mul] at hle
  rw [pick_eq, show m * (2 * h) = 2 * m * h by ring]
  omega

/-- Dealing out the `u` parts of every index is dealing out the indices. -/
theorem pick_mul_add {u k : ℕ} (hk : k < u) (h g i : ℕ) :
    pick (h * u) g (i * u + k) = pick h g i * u + k := by
  have hu : 0 < u := Nat.zero_lt_of_lt hk
  have hdiv : (i * u + k) / (h * u) = i / h := by
    rw [Nat.mul_comm h u, ← Nat.div_div_eq_div_mul, Nat.mul_comm i u, Nat.mul_add_div hu,
      Nat.div_eq_of_lt hk, Nat.add_zero]
  have hmod : (i * u + k) % (h * u) = i % h * u + k := by
    rw [Nat.mul_comm h u, Nat.mod_mul, Nat.mul_comm i u, Nat.mul_add_mod, Nat.mod_eq_of_lt hk,
      Nat.mul_add_div hu, Nat.div_eq_of_lt hk, Nat.add_zero]
    ring
  rw [pick, pick, hdiv, hmod]
  ring

theorem pick_mul_div {u : ℕ} (hu : 0 < u) (h g i : ℕ) :
    pick (h * u) g i / u = pick h g (i / u) := by
  have hpick := pick_mul_add (Nat.mod_lt i hu) h g (i / u)
  rw [Nat.div_add_mod'] at hpick
  rw [hpick, Nat.mul_comm, Nat.mul_add_div hu, Nat.div_eq_of_lt (Nat.mod_lt i hu), Nat.add_zero]

theorem pick_mul_mod {u : ℕ} (hu : 0 < u) (h g i : ℕ) : pick (h * u) g i % u = i % u := by
  have hpick := pick_mul_add (Nat.mod_lt i hu) h g (i / u)
  rw [Nat.div_add_mod'] at hpick
  rw [hpick, Nat.mul_comm, Nat.mul_add_mod, Nat.mod_mod]

/-- The blocks before the one of an index are twice as many in the whole range. -/
theorem pick_block_add (hh : 0 < h) (g m i : ℕ) :
    pick h g (m * h + i) = m * (2 * h) + pick h g i := by
  have hdiv : (m * h + i) / h = m + i / h := by
    rw [Nat.mul_comm, Nat.mul_add_div hh]
  have hmod : (m * h + i) % h = i % h := by
    rw [Nat.mul_comm, Nat.mul_add_mod]
  rw [pick, pick, hdiv, hmod]
  ring

/-- An index of the first block. -/
theorem pick_of_lt (g : ℕ) (hi : i < h) : pick h g i = g * h + i := by
  rw [pick, Nat.div_eq_of_lt hi, Nat.mod_eq_of_lt hi, Nat.zero_mul, Nat.zero_add]

/-- Halving commutes with the remainder by the period. -/
theorem pick_mod_period (hh : 0 < h) (hg : g < 2) (i : ℕ) :
    pick h g i % (2 * h) = pick h g (i % h) := by
  have hlt : pick h g (i % h) < 1 * (2 * h) := by
    apply pick_lt hg
    rw [Nat.one_mul]
    exact Nat.mod_lt i hh
  rw [Nat.one_mul] at hlt
  have hblocks := pick_block_add hh g (i / h) (i % h)
  rw [Nat.div_add_mod'] at hblocks
  rw [hblocks, Nat.mul_comm, Nat.mul_add_mod, Nat.mod_eq_of_lt hlt]

theorem pick_lt_iff {m : ℕ} (hh : 0 < h) (hg : g < 2) : pick h g i < m * (2 * h) ↔ i < m * h := by
  refine ⟨fun hlt => ?_, pick_lt hg⟩
  by_contra hge
  obtain ⟨j, rfl⟩ := Nat.exists_eq_add_of_le (not_lt.mp hge)
  rw [pick_block_add hh] at hlt
  omega

end Pick

/-! ## Dealt vectors -/

section Dealt

variable {α : Type*} {h m g : ℕ} {a b : ℕ → α}

/-- `a` is what side `g` gets of the `m` pairs of blocks of `b`. Vectors are functions here, and
only the indices in the range matter. -/
def Dealt (h m g : ℕ) (a b : ℕ → α) : Prop := ∀ i < m * h, a i = b (pick h g i)

/-- A vector whose elements have `u` parts each. -/
theorem dealt_parts {u : ℕ} :
    Dealt (h * u) m g a b ↔ ∀ i < m * h, ∀ k < u, a (i * u + k) = b (pick h g i * u + k) := by
  constructor
  · intro hd i hi k hk
    have hle : (i + 1) * u ≤ m * h * u := Nat.mul_le_mul_right u hi
    rw [Nat.add_mul, Nat.one_mul] at hle
    rw [← pick_mul_add hk]
    apply hd
    rw [← Nat.mul_assoc]
    omega
  · intro hp i hi
    rw [← Nat.mul_assoc] at hi
    have hu : 0 < u := Nat.pos_of_lt_mul_left hi
    have hk := Nat.mod_lt i hu
    have hpart := hp (i / u) (Nat.div_lt_of_lt_mul (by rwa [Nat.mul_comm])) (i % u) hk
    rwa [← pick_mul_add hk, Nat.div_add_mod'] at hpart

/-- One block for each side: the two halves. The contiguous splits of rows and columns are this
case. -/
theorem dealt_half {u : ℕ} :
    Dealt (h * u) 1 g a b ↔ ∀ i < h, ∀ k < u, a (i * u + k) = b ((g * h + i) * u + k) := by
  rw [dealt_parts, Nat.one_mul]
  apply forall₂_congr
  intro i hi
  rw [pick_of_lt g hi]

/-- A vector whose elements have `u` parts with `v` parts each. -/
theorem dealt_parts₂ {u v : ℕ} : Dealt (h * u * v) m g a b ↔ ∀ i < m * h, ∀ k < u, ∀ j < v,
    a ((i * u + k) * v + j) = b ((pick h g i * u + k) * v + j) := by
  rw [dealt_parts]
  constructor
  · intro hp i hi k hk j hj
    have hle : (i + 1) * u ≤ m * h * u := Nat.mul_le_mul_right u hi
    rw [Nat.add_mul, Nat.one_mul] at hle
    rw [← pick_mul_add hk]
    apply hp _ _ j hj
    rw [← Nat.mul_assoc]
    omega
  · intro hp i hi j hj
    rw [← Nat.mul_assoc] at hi
    have hu : 0 < u := Nat.pos_of_lt_mul_left hi
    have hk := Nat.mod_lt i hu
    have hpart := hp (i / u) (Nat.div_lt_of_lt_mul (by rwa [Nat.mul_comm])) (i % u) hk j hj
    rwa [← pick_mul_add hk, Nat.div_add_mod'] at hpart

theorem Dealt.mono {m' : ℕ} (hd : Dealt h m g a b) (hle : m' ≤ m) : Dealt h m' g a b :=
  fun i hi => hd i (hi.trans_le (Nat.mul_le_mul_right h hle))

/-- From block `k` on. -/
theorem Dealt.drop {k m' : ℕ} (hd : Dealt h m g a b) (hle : k + m' ≤ m) :
    Dealt h m' g (fun i => a (k * h + i)) fun i => b (k * (2 * h) + i) := by
  intro i hi
  have hh : 0 < h := Nat.pos_of_lt_mul_left hi
  have hlt : k * h + i < (k + m') * h := by
    rw [Nat.add_mul]
    exact Nat.add_lt_add_left hi _
  dsimp only
  rw [← pick_block_add hh]
  exact hd _ (hlt.trans_le (Nat.mul_le_mul_right h hle))

end Dealt

/-! ## Runs -/

/-- Windows of a fixed width, one after the other. -/
theorem flatMap_range_map {α : Type*} (f : ℕ → ℕ → α) (m w : ℕ) :
    ((range m).flatMap fun b => (range w).map (f b)) =
      (range (m * w)).map fun z => f (z / w) (z % w) := by
  induction m with
  | zero => simp
  | succ m ih =>
    rw [range_succ, flatMap_append, ih, Nat.succ_mul, range_add, map_append, map_map,
      flatMap_singleton]
    refine congrArg _ (map_congr_left fun x hx => ?_)
    have hxw := mem_range.mp hx
    have hw : 0 < w := Nat.zero_lt_of_lt hxw
    have hdiv : (m * w + x) / w = m := by
      rw [Nat.mul_comm, Nat.mul_add_div hw, Nat.div_eq_of_lt hxw, Nat.add_zero]
    have hmod : (m * w + x) % w = x := by
      rw [Nat.mul_comm, Nat.mul_add_mod, Nat.mod_eq_of_lt hxw]
    rw [Function.comp_apply, hdiv, hmod]

/-- What is at place `z` of window `r`. -/
theorem getElem?_flatMap_range_map {α : Type*} (f : ℕ → ℕ → α) {m w r z : ℕ} (hr : r < m)
    (hz : z < w) : ((range m).flatMap fun b => (range w).map (f b))[r * w + z]? = some (f r z) := by
  have hle : (r + 1) * w ≤ m * w := Nat.mul_le_mul_right w hr
  rw [Nat.add_mul, Nat.one_mul] at hle
  have hw : 0 < w := Nat.zero_lt_of_lt hz
  have hdiv : (r * w + z) / w = r := by
    rw [Nat.mul_comm, Nat.mul_add_div hw, Nat.div_eq_of_lt hz, Nat.add_zero]
  have hmod : (r * w + z) % w = z := by
    rw [Nat.mul_comm, Nat.mul_add_mod, Nat.mod_eq_of_lt hz]
  rw [flatMap_range_map, getElem?_map, getElem?_range (by omega), Option.map_some, hdiv, hmod]

/-- Runs that follow each other make up one run. -/
theorem flatMap_copy (m w : ℕ) : ((range m).flatMap fun b => copy (b * w) w) = range (m * w) := by
  have h := flatMap_range_map (fun b x => b * w + x) m w
  simp only [Nat.div_add_mod'] at h
  rw [map_id''] at h
  · exact h
  · exact fun _ => rfl

/-- Every other run makes up what a side picks, also from an offset on. -/
theorem flatMap_copy_add_pick (off m h g : ℕ) :
    ((range m).flatMap fun b => copy (off + (b * (2 * h) + g * h)) h) =
      (range (m * h)).map fun y => off + pick h g y := by
  have hrun := flatMap_range_map (fun b x => off + (b * (2 * h) + g * h) + x) m h
  refine hrun.trans (map_congr_left fun y _ => ?_)
  rw [pick]
  ring

theorem flatMap_copy_pick (m h g : ℕ) :
    ((range m).flatMap fun b => copy (b * (2 * h) + g * h) h) = (range (m * h)).map (pick h g) :=
  flatMap_range_map (fun b x => b * (2 * h) + g * h + x) m h

/-- Part `k` of the `i`-th index of a side is part `k` of the picked index. -/
theorem getElem?_map_pick {m h u i k : ℕ} (g : ℕ) (hi : i < m * h) (hk : k < u) :
    ((range (m * (h * u))).map (pick (h * u) g))[i * u + k]? = some (pick h g i * u + k) := by
  have hle : (i + 1) * u ≤ m * h * u := Nat.mul_le_mul_right u hi
  rw [Nat.add_mul, Nat.one_mul] at hle
  have hlt : i * u + k < m * (h * u) := by
    rw [← Nat.mul_assoc]
    omega
  rw [getElem?_map, getElem?_range hlt, Option.map_some, pick_mul_add hk]

/-- **What the two sides pick is the whole range.** -/
theorem range_perm (m h : ℕ) :
    (range (m * h)).map (pick h 0) ++ (range (m * h)).map (pick h 1) ~ range (m * (2 * h)) := by
  rw [← flatMap_copy_pick, ← flatMap_copy_pick, ← flatMap_copy]
  refine (flatMap_append_perm (range m) _ _).trans (Perm.of_eq ?_)
  congr 1
  funext b
  rw [copy, copy, copy, Nat.two_mul, range_add, map_append, map_map]
  congr 1
  · simp
  · refine map_congr_left fun x _ => ?_
    rw [Function.comp_apply]
    ring

/-- A sum over the whole range is the sum of the sums over what the sides pick. This is where the
two partial products of a column split come from. -/
theorem sum_pick {M : Type*} [AddCommMonoid M] (f : ℕ → M) (m h : ℕ) :
    ((range (m * h)).map fun i => f (pick h 0 i)).sum +
      ((range (m * h)).map fun i => f (pick h 1 i)).sum = ((range (m * (2 * h))).map f).sum := by
  have hperm := ((range_perm m h).map f).sum_eq
  rw [map_append, sum_append, map_map, map_map] at hperm
  exact hperm

end Halves
