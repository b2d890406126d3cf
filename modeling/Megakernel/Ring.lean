import Mathlib.Data.List.Basic
import Mathlib.Data.Nat.ModEq
import Mathlib.Order.Bounds.Basic

/-!
# Rings

A ring of `cap` slots keeps the last entries of a sequence: entry `i` goes to slot
`i % cap`. As long as no more than `cap` entries have followed, it is read back from there
(`fill_getElem?`).
-/

namespace Ring

open List

section Ring

variable {V : Type} {cap : ℕ} {r : List V} {f : ℕ → V} {n i : ℕ}

/-- Entry `i` goes to its slot. -/
def put (cap i : ℕ) (x : V) (r : List V) : List V := r.set (i % cap) x

/-- The slots after the first `n` entries of a sequence. -/
def fill (cap : ℕ) (r : List V) (f : ℕ → V) : ℕ → List V
  | 0 => r
  | n + 1 => put cap n (f n) (fill cap r f n)

@[simp] theorem length_fill : (fill cap r f n).length = r.length := by
  induction n with
  | zero => rfl
  | succ n ih => rw [fill, put, length_set, ih]

/-- **What is read back.** -/
theorem fill_getElem? (hr : r.length = cap) (hcap : 0 < cap) (hi : i < n) (hn : n ≤ i + cap) :
    (fill cap r f n)[i % cap]? = some (f i) := by
  induction n with
  | zero => exact absurd hi (Nat.not_lt_zero i)
  | succ n ih =>
    rw [fill, put]
    obtain hlt | rfl := Nat.lt_succ_iff_lt_or_eq.mp hi
    · -- two entries of the same slot are at least `cap` apart
      have hne : n % cap ≠ i % cap := by
        intro heq
        have hdvd : cap ∣ n - i := (Nat.modEq_iff_dvd' hlt.le).mp heq.symm
        have := Nat.le_of_dvd (Nat.sub_pos_of_lt hlt) hdvd
        omega
      rw [getElem?_set_ne hne]
      exact ih hlt (Nat.le_of_succ_le hn)
    · rw [getElem?_set_self]
      rw [length_fill, hr]
      exact Nat.mod_lt i hcap

/-- The last entry that slot 0 has received. -/
def lastInFirst (cap n : ℕ) : ℕ := n - 1 - (n - 1) % cap

theorem fill_getElem?_zero (hr : r.length = cap) (hcap : 0 < cap) (hn : 0 < n) :
    (fill cap r f n)[0]? = some (f (lastInFirst cap n)) := by
  have hmod : (n - 1) % cap < cap := Nat.mod_lt _ hcap
  have hle : (n - 1) % cap ≤ n - 1 := Nat.mod_le _ _
  have hslot : lastInFirst cap n % cap = 0 :=
    Nat.mod_eq_zero_of_dvd (Nat.dvd_sub_mod (n - 1))
  rw [← hslot]
  apply fill_getElem? hr hcap
  · rw [lastInFirst]; omega
  · rw [lastInFirst]; omega

end Ring

/-! ## Running extremes -/

section Extremes

variable {A : Type} [LinearOrder A]

theorem isLeast_foldl_min (a : A) (l : List A) :
    IsLeast {v | v ∈ a :: l} (l.foldl (fun m v => if v < m then v else m) a) := by
  induction l generalizing a with
  | nil => exact ⟨mem_singleton_self a, fun v hv => (mem_singleton.mp hv).ge⟩
  | cons b l ih =>
    obtain ⟨hmem, hle⟩ := ih (if b < a then b else a)
    have hmin : (if b < a then b else a) = min a b := by
      rw [← min_def_lt, min_comm]
    rw [hmin] at hmem hle
    rw [foldl_cons, hmin]
    constructor
    · obtain heq | hin := mem_cons.mp hmem
      · obtain h | h := min_choice a b <;> rw [heq, h] <;> simp
      · exact mem_cons_of_mem a (mem_cons_of_mem b hin)
    · have hle_min := hle mem_cons_self
      rintro v hv
      obtain rfl | hv := mem_cons.mp hv
      · exact hle_min.trans (min_le_left _ _)
      · obtain rfl | hv := mem_cons.mp hv
        · exact hle_min.trans (min_le_right _ _)
        · exact hle (mem_cons_of_mem _ hv)

theorem isGreatest_foldl_max (a : A) (l : List A) :
    IsGreatest {v | v ∈ a :: l} (l.foldl (fun m v => if m < v then v else m) a) :=
  isLeast_foldl_min (A := Aᵒᵈ) a l

/-- A seed does not show in the minimum of a list if and only if it is not below it. -/
theorem isLeast_cons_iff {a m : A} {l : List A} (hm : IsLeast {v | v ∈ a :: l} m) :
    IsLeast {v | v ∈ l} m ↔ ∃ b ∈ l, b ≤ a := by
  constructor
  · intro h
    exact ⟨m, h.1, hm.2 mem_cons_self⟩
  · rintro ⟨b, hb, hba⟩
    refine ⟨?_, fun v hv => hm.2 (mem_cons_of_mem a hv)⟩
    obtain rfl | hmem := mem_cons.mp hm.1
    · have hle := hm.2 (mem_cons_of_mem _ hb)
      rwa [le_antisymm hle hba]
    · exact hmem

theorem isGreatest_cons_iff {a m : A} {l : List A} (hm : IsGreatest {v | v ∈ a :: l} m) :
    IsGreatest {v | v ∈ l} m ↔ ∃ b ∈ l, a ≤ b :=
  isLeast_cons_iff (A := Aᵒᵈ) hm

end Extremes

end Ring
