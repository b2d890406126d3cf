import Mathlib.Algebra.BigOperators.Group.Finset.Basic
import Mathlib.Data.Nat.Bitwise
import Mathlib.Order.Bounds.Basic

/-!
# Reductions over a warp

The 32 lanes of a warp combine their values in five rounds: in a round with offset
`off` every lane combines its value with that of the lane whose number differs in
the bit `off`. Whatever the operation is, every lane ends up with a combination of
all lanes in which each lane occurs once (`butterfly_rel`). So an addition yields
the sum over the warp in every lane (`butterfly_add`), and a maximum the greatest
value (`butterfly_max`).

The rounds are those of a fold over the five offsets, and the invariant is that the sets of lanes
two partners have combined are disjoint (`Apart`). It is decided for the five offsets, and no lane
is followed by itself.
-/

namespace Warps

/-- A `__shfl_xor_sync` reduction over a warp: what every lane ends up with. -/
def butterfly {A : Type*} (op : A → A → A) (v : ℕ → A) : ℕ → A :=
  [16, 8, 4, 2, 1].foldl (fun v off lane => op (v lane) (v (lane ^^^ off))) v

variable {A : Type*}

/-- The lanes that two partners have combined so far are different ones, in every round. -/
def Apart : List ℕ → (ℕ → Finset ℕ) → Prop
  | [], _ => True
  | off :: offs, seen =>
    (∀ lane < 32, Disjoint (seen lane) (seen (lane ^^^ off))) ∧
      Apart offs fun lane => seen lane ∪ seen (lane ^^^ off)

instance decidableApart : ∀ (offs : List ℕ) (seen : ℕ → Finset ℕ), Decidable (Apart offs seen)
  | [], _ => .isTrue trivial
  | _ :: offs, _ => @instDecidableAnd _ _ _ (decidableApart offs _)

/-- What holds of the combination of the lanes seen so far holds after the remaining rounds. -/
theorem foldl_rel {op : A → A → A} {P : Finset ℕ → A → Prop}
    (join : ∀ {s t a b}, Disjoint s t → P s a → P t b → P (s ∪ t) (op a b)) {offs : List ℕ}
    (hoffs : ∀ off ∈ offs, off < 32) {seen : ℕ → Finset ℕ} {v : ℕ → A} (hapart : Apart offs seen)
    (h : ∀ lane < 32, P (seen lane) (v lane)) {lane : ℕ} (hlane : lane < 32) :
    P (offs.foldl (fun s off lane => s lane ∪ s (lane ^^^ off)) seen lane)
      (offs.foldl (fun v off lane => op (v lane) (v (lane ^^^ off))) v lane) := by
  induction offs generalizing seen v with
  | nil => exact h lane hlane
  | cons off offs ih =>
    obtain ⟨hoff, hoffs⟩ := List.forall_mem_cons.mp hoffs
    obtain ⟨hdisj, hapart⟩ := hapart
    refine ih hoffs hapart fun l hl => ?_
    have hpartner : l ^^^ off < 32 := Nat.xor_lt_two_pow (n := 5) hl hoff
    exact join (hdisj l hl) (h l hl) (h _ hpartner)

/-- After the last round every lane has seen all lanes. -/
theorem butterfly_union : ∀ lane < 32,
    butterfly (· ∪ ·) (fun lane => ({lane} : Finset ℕ)) lane = Finset.range 32 := by
  decide +kernel

theorem apart_offsets : Apart [16, 8, 4, 2, 1] fun lane => {lane} := by decide +kernel

/-- **Every lane ends up with a combination of all lanes, each of which occurs once.** The predicate
`P s a` stands for "`a` combines the lanes `s`", so that sums and maxima are two instances of one
proof. -/
theorem butterfly_rel {op : A → A → A} {v : ℕ → A} {P : Finset ℕ → A → Prop}
    (one : ∀ lane < 32, P {lane} (v lane))
    (join : ∀ {s t a b}, Disjoint s t → P s a → P t b → P (s ∪ t) (op a b)) {lane : ℕ}
    (hlane : lane < 32) : P (Finset.range 32) (butterfly op v lane) := by
  rw [← butterfly_union lane hlane]
  exact foldl_rel join (by decide) apart_offsets one hlane

/-- **The sum over the warp.** -/
theorem butterfly_add [AddCommMonoid A] (v : ℕ → A) {lane : ℕ} (hlane : lane < 32) :
    butterfly (· + ·) v lane = ∑ i ∈ Finset.range 32, v i := by
  refine butterfly_rel (P := fun s a => a = ∑ i ∈ s, v i) ?_ ?_ hlane
  · intro l _
    rw [Finset.sum_singleton]
  · rintro s t a b hst rfl rfl
    rw [Finset.sum_union hst]

/-- **The greatest value of the warp.** -/
theorem butterfly_max [LinearOrder A] (v : ℕ → A) {lane : ℕ} (hlane : lane < 32) :
    IsGreatest (Set.image v (Set.Iio 32)) (butterfly max v lane) := by
  rw [← Finset.coe_range]
  refine butterfly_rel (P := fun s a => IsGreatest (Set.image v (SetLike.coe s)) a) ?_ ?_ hlane
  · intro l _
    rw [Finset.coe_singleton, Set.image_singleton]
    exact isGreatest_singleton
  · intro s t a b _ ha hb
    rw [Finset.coe_union, Set.image_union]
    exact ha.union hb

end Warps
