import Megakernel.WeightSlice
import Mathlib.Tactic.IntervalCases

/-!
# The state dump of the split run

`parity_run_tensor` of `k0/harness.cpp` puts the DeltaNet states of the two GPUs
together for the dump: the state of GPU 0, then the state of GPU 1. But the heads
and channels are dealt out to the GPUs in alternating groups, since the weights
that make them are (`dn_stride`). So the groups of the full state come out in the
order 0, 2, 4, 1, 3, 5, and the dump is the state of the whole model only if the
groups that change places agree (`dump_right_iff`).

The states of the two GPUs are arbitrary functions here, since the gather does not look at them. So
the condition that comes out is one on the states alone, an equality between groups of elements.
-/

namespace Megakernel

open Halves

variable {α : Type*}

/-! ## Gathering -/

/-- The two `memcpy` of a gather to `n` elements: the first half from GPU 0, the second from GPU 1.
-/
def gather (n : ℕ) (s : ℕ → ℕ → α) (j : ℕ) : α := if j < n / 2 then s 0 j else s 1 (j - n / 2)

/-- Group `r` of the full state, in groups of `q` elements that are dealt out in turn. -/
def group (q : ℕ) (s : ℕ → ℕ → α) (r x : ℕ) : α := s (r % 2) (r / 2 * q + x)

/-- The group that a gather of `2 * m` groups puts in place `r`. -/
def gathered (m r : ℕ) : ℕ := if r < m then 2 * r else 2 * (r - m) + 1

/-- The full state is gathered right: the part of each unit is the part that the GPU has to which
the unit is dealt, in units of `u` elements with `h` units in a group. A unit is a head or a
channel. -/
def Gathered (m h u : ℕ) (s : ℕ → ℕ → α) (dump : ℕ → α) : Prop :=
  ∀ g < 2, ∀ i < m * h, ∀ k < u, dump (pick h g i * u + k) = s g (i * u + k)

theorem gather_group {m q r x : ℕ} (s : ℕ → ℕ → α) (hx : x < q) :
    gather (m * (2 * q)) s (r * q + x) = group q s (gathered m r) x := by
  have hhalf : m * (2 * q) / 2 = m * q := by
    have hassoc : m * (2 * q) = 2 * (m * q) := by ring
    rw [hassoc, Nat.mul_div_cancel_left _ (by decide)]
  rw [gather, hhalf, gathered, group]
  by_cases hlt : r < m
  · have hle := Nat.mul_le_mul_right q (Nat.succ_le_of_lt hlt)
    rw [Nat.succ_mul] at hle
    have hpos : r * q + x < m * q := by omega
    have hdiv : 2 * r / 2 = r := Nat.mul_div_cancel_left r (by decide)
    rw [if_pos hpos, if_pos hlt, Nat.mul_mod_right, hdiv]
  · have hle := Nat.mul_le_mul_right q (Nat.le_of_not_lt hlt)
    have hneg : ¬ r * q + x < m * q := by omega
    have hmod : (2 * (r - m) + 1) % 2 = 1 := by omega
    have hdiv : (2 * (r - m) + 1) / 2 = r - m := by omega
    have hsub : r * q + x - m * q = (r - m) * q + x := by
      rw [Nat.sub_mul]
      omega
    rw [if_neg hneg, if_neg hlt, hmod, hdiv, hsub]

/-- **A gather is right just if every group agrees with the one that comes in its place.** -/
theorem gathered_iff {m h u : ℕ} (hh : 0 < h) (hu : 0 < u) (s : ℕ → ℕ → α) :
    Gathered m h u s (gather (m * (2 * (h * u))) s) ↔
      ∀ r < 2 * m, ∀ x < h * u, group (h * u) s (gathered m r) x = group (h * u) s r x := by
  constructor
  · intro hright r hr x hx
    have hdiv : x / u < h := Nat.div_lt_of_lt_mul (by rwa [Nat.mul_comm])
    have hi : r / 2 * h + x / u < m * h := by
      have hle : (r / 2 + 1) * h ≤ m * h := Nat.mul_le_mul_right h (by omega)
      rw [Nat.add_mul, Nat.one_mul] at hle
      omega
    have hplace : (r / 2 * h + x / u) * u + x % u = r / 2 * (h * u) + x := by
      rw [Nat.add_mul, Nat.add_assoc, Nat.div_add_mod', Nat.mul_assoc]
    have hpick : pick h (r % 2) (r / 2 * h + x / u) * u + x % u = r * (h * u) + x := by
      have hblock : (r / 2 * h + x / u) / h = r / 2 := by
        rw [Nat.mul_comm, Nat.mul_add_div hh, Nat.div_eq_of_lt hdiv, Nat.add_zero]
      have hmod : (r / 2 * h + x / u) % h = x / u := by
        rw [Nat.mul_comm, Nat.mul_add_mod, Nat.mod_eq_of_lt hdiv]
      rw [pick_eq, hblock, hmod, Nat.div_add_mod, Nat.add_mul, Nat.add_assoc, Nat.div_add_mod',
        Nat.mul_assoc]
    have heq := hright (r % 2) (Nat.mod_lt r (by decide)) _ hi (x % u) (Nat.mod_lt x hu)
    rw [hpick, hplace, gather_group s hx] at heq
    exact heq
  · intro hgroups g hg i hi k hk
    have hdiv : i / h < m := Nat.div_lt_of_lt_mul (by rwa [Nat.mul_comm])
    have hmod := Nat.mod_lt i hh
    have hx : i % h * u + k < h * u := by
      have hle : (i % h + 1) * u ≤ h * u := Nat.mul_le_mul_right u hmod
      rw [Nat.add_mul, Nat.one_mul] at hle
      omega
    have hpick : pick h g i * u + k = (2 * (i / h) + g) * (h * u) + (i % h * u + k) := by
      rw [pick_eq]
      ring
    have hplace : i * u + k = i / h * (h * u) + (i % h * u + k) := by
      rw [← Nat.mul_assoc, ← Nat.add_assoc, ← Nat.add_mul, Nat.div_add_mod']
    have hside : (2 * (i / h) + g) % 2 = g := by omega
    have hblock : (2 * (i / h) + g) / 2 = i / h := by omega
    rw [hpick, gather_group s hx, hgroups _ (by omega) _ hx, group, hside, hblock, hplace]

/-- Of six groups, four change places in a cycle. -/
theorem gathered_three (f : ℕ → α) :
    (∀ r < 2 * 3, f (gathered 3 r) = f r) ↔ ∀ r ∈ [2, 3, 4], f r = f 1 := by
  simp only [List.forall_mem_cons, List.not_mem_nil, false_imp_iff, implies_true, and_true]
  constructor
  · intro h
    have h21 : f 2 = f 1 := h 1 (by decide)
    have h42 : f 4 = f 2 := h 2 (by decide)
    have h13 : f 1 = f 3 := h 3 (by decide)
    exact ⟨h21, h13.symm, h42.trans h21⟩
  · rintro ⟨h2, h3, h4⟩ r hr
    interval_cases r <;> simp [gathered, h2, h3, h4]

/-- Of ten groups, six change places in a cycle, and two with each other. -/
theorem gathered_five (f : ℕ → α) :
    (∀ r < 2 * 5, f (gathered 5 r) = f r) ↔ (∀ r ∈ [2, 4, 5, 7, 8], f r = f 1) ∧ f 6 = f 3 := by
  simp only [List.forall_mem_cons, List.not_mem_nil, false_imp_iff, implies_true, and_true]
  constructor
  · intro h
    have h21 : f 2 = f 1 := h 1 (by decide)
    have h42 : f 4 = f 2 := h 2 (by decide)
    have h84 : f 8 = f 4 := h 4 (by decide)
    have h15 : f 1 = f 5 := h 5 (by decide)
    have h57 : f 5 = f 7 := h 7 (by decide)
    have h41 := h42.trans h21
    exact ⟨⟨h21, h41, h15.symm, (h15.trans h57).symm, h84.trans h41⟩, h 3 (by decide)⟩
  · rintro ⟨⟨h2, h4, h5, h7, h8⟩, h6⟩ r hr
    interval_cases r <;> simp [gathered, h2, h4, h5, h6, h7, h8]

/-! ## The dump -/

/-- CONV_STATE_N -/
def convStateN : ℕ := 30720

/-- SSM_STATE_N -/
def ssmStateN : ℕ := 786432

/-- The recurrent and the convolution state of a DeltaNet layer: of a head 128 x 128 elements, of a
channel 3. -/
structure DnState (α : Type*) : Type _ where
  ssm : ℕ → α
  conv : ℕ → α

/-- What `parity_run_tensor` writes to the dump of a layer: both states, each as a concatenation of
the two halves. -/
def dumpState (s : ℕ → DnState α) : DnState α where
  ssm := gather ssmStateN fun g => (s g).ssm
  conv := gather convStateN fun g => (s g).conv

/-- The period in which `dn_stride` deals out heads. -/
def headPeriod : ℕ := (dnStride (nameOf ".ssm_alpha.weight")).period

/-- The period in which `dn_stride` deals out channels. -/
def channelPeriod : ℕ := (dnStride (nameOf ".ssm_conv1d.weight")).period

/-- The dump of a layer is the state of the whole model: head or channel `j` is what the GPU holds
to which `j` is dealt. -/
structure DumpRight (s : ℕ → DnState α) : Prop where
  ssm : ∀ g < 2, ∀ i < 24, ∀ k < 128 * 128,
    (dumpState s).ssm (pick (headPeriod / 2) g i * (128 * 128) + k) =
      (s g).ssm (i * (128 * 128) + k)
  conv : ∀ g < 2, ∀ i < 5120, ∀ k < 3,
    (dumpState s).conv (pick (channelPeriod / 2) g i * 3 + k) = (s g).conv (i * 3 + k)

/-- **The dump of a layer is right if and only if the groups that change places agree**: the groups
1 to 4 of eight heads, and of the groups of 1024 channels 1, 2, 4, 5, 7 and 8 among themselves, and
3 and 6. -/
theorem dump_right_iff (s : ℕ → DnState α) :
    DumpRight s ↔
      (∀ x < 8 * (128 * 128), ∀ r ∈ [2, 3, 4],
        group (8 * (128 * 128)) (fun g => (s g).ssm) r x =
          group (8 * (128 * 128)) (fun g => (s g).ssm) 1 x) ∧
      ∀ x < 1024 * 3,
        (∀ r ∈ [2, 4, 5, 7, 8], group (1024 * 3) (fun g => (s g).conv) r x =
          group (1024 * 3) (fun g => (s g).conv) 1 x) ∧
        group (1024 * 3) (fun g => (s g).conv) 6 x =
          group (1024 * 3) (fun g => (s g).conv) 3 x := by
  have hssm := gathered_iff (m := 3) (h := 8) (u := 128 * 128) (by decide) (by decide)
    fun g => (s g).ssm
  have hconv := gathered_iff (m := 5) (h := 1024) (u := 3) (by decide) (by decide)
    fun g => (s g).conv
  have hright : DumpRight s ↔
      Gathered 3 8 (128 * 128) (fun g => (s g).ssm) (dumpState s).ssm ∧
        Gathered 5 1024 3 (fun g => (s g).conv) (dumpState s).conv :=
    ⟨fun h => ⟨h.ssm, h.conv⟩, fun h => ⟨h.1, h.2⟩⟩
  rw [hright]
  refine and_congr (hssm.trans ?_) (hconv.trans ?_)
  · refine ⟨fun h x hx => ?_, fun h r hr x hx => ?_⟩
    · exact (gathered_three fun r => group (8 * (128 * 128)) (fun g => (s g).ssm) r x).mp
        fun r hr => h r hr x hx
    · exact (gathered_three fun r => group (8 * (128 * 128)) (fun g => (s g).ssm) r x).mpr
        (h x hx) r hr
  · refine ⟨fun h x hx => ?_, fun h r hr x hx => ?_⟩
    · exact (gathered_five fun r => group (1024 * 3) (fun g => (s g).conv) r x).mp
        fun r hr => h r hr x hx
    · exact (gathered_five fun r => group (1024 * 3) (fun g => (s g).conv) r x).mpr
        (h x hx) r hr

/-- States in which every element tells its GPU and its place. -/
def labelled (g : ℕ) : DnState (ℕ × ℕ) := ⟨fun j => (g, j), fun j => (g, j)⟩

/-- Head 16 of the dump is the head at place 16 of GPU 0 and not the one at place 8. -/
theorem not_dump_right : ¬ DumpRight labelled := by
  intro h
  have hhead : headPeriod / 2 = 8 := by decide
  have heq := h.ssm 0 (by decide) 8 (by decide) 0 (by decide)
  rw [hhead] at heq
  simp [dumpState, gather, labelled, ssmStateN, pick] at heq

end Megakernel
