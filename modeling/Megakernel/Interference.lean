import Mathlib.Data.Set.Function
import Mathlib.Data.List.Pairwise
import Mathlib.Data.List.Perm.Basic
import Mathlib.Order.Disjoint
import Mathlib.Data.Set.Lattice
import Mathlib.Order.CompletePartialOrder

/-!
# Footprints and interference

A memory is a function from addresses to values; a *footprint* says which
addresses a piece of code may read and which it may write. Two footprints are
independent if neither writes what the other touches.

Two consequences are used:

* transformers with independent footprints commute, so a list of pairwise
  independent transformers can be run in any order (`Confines.foldl_perm`);
* when agents with independent footprints share a memory, each of them sees and
  writes the memory it would see and write alone (`Merged`). The shared memory
  is determined by the private ones (`Merged.unique`), whatever the interleaving
  was.

Neither part mentions instructions, blocks or GPUs. Coalescing uses the first for instructions of a
window, the in-place ops for the stores of their tasks, and the interpreter the second for the
blocks of a window.
-/

/-- What a piece of code may read and may write. A set of addresses that is written need not be
read, and one that is both is in both sets. -/
structure Footprint (α : Type*) where
  reads : Set α
  writes : Set α

namespace Footprint

variable {α β γ ι : Type*}

/-- Everything the code may look at. -/
def touches (f : Footprint α) : Set α := f.reads ∪ f.writes

theorem writes_subset (f : Footprint α) : f.writes ⊆ f.touches := Set.subset_union_right

/-- Neither writes what the other touches. -/
def Indep (f g : Footprint α) : Prop := Disjoint f.writes g.touches ∧ Disjoint g.writes f.touches

theorem Indep.symm {f g : Footprint α} (h : f.Indep g) : g.Indep f := ⟨h.2, h.1⟩

/-- What one touches the other does not write. -/
theorem Indep.notMem {f g : Footprint α} (h : f.Indep g) {a : α} (ha : a ∈ g.touches) :
    a ∉ f.writes := fun hw => Set.disjoint_left.mp h.1 hw ha

/-! ## Transformers -/

/-- The transformer `t` changes only what `f` writes, and the new values depend only on what `f`
touches. The second part is what lets the transformer be moved past another one. -/
structure Confines (f : Footprint α) (t : (α → β) → α → β) : Prop where
  frame : ∀ m a, a ∉ f.writes → t m a = m a
  depends : ∀ m m', Set.EqOn m m' f.touches → Set.EqOn (t m) (t m') f.writes

/-- **Independent transformers commute.** -/
theorem Confines.commute {f g : Footprint α} {t u : (α → β) → α → β} (ht : f.Confines t)
    (hu : g.Confines u) (h : f.Indep g) (m : α → β) : t (u m) = u (t m) := by
  have hum : Set.EqOn (u m) m f.touches := fun a ha => hu.frame m a (h.symm.notMem ha)
  have htm : Set.EqOn (t m) m g.touches := fun a ha => ht.frame m a (h.notMem ha)
  funext a
  by_cases ha : a ∈ f.writes
  · have hag : a ∉ g.writes := h.symm.notMem (f.writes_subset ha)
    rw [hu.frame _ _ hag]
    exact ht.depends _ _ hum ha
  · rw [ht.frame _ _ ha]
    by_cases hag : a ∈ g.writes
    · exact (hu.depends _ _ htm hag).symm
    · rw [hu.frame _ _ hag, hu.frame _ _ hag, ht.frame _ _ ha]

/-- **Pairwise independent transformers run in any order.** The induction is over the permutation,
each exchange of two neighbours being an instance of `Confines.commute`. -/
theorem foldl_perm {σ : Type*} {fp : σ → Footprint α} {t : σ → (α → β) → α → β}
    (ht : ∀ i, (fp i).Confines (t i)) {l l' : List σ}
    (hl : l.Pairwise fun i j => (fp i).Indep (fp j)) (hp : l.Perm l') (m : α → β) :
    l.foldl (fun m i => t i m) m = l'.foldl (fun m i => t i m) m := by
  have hcomm : l.Pairwise fun i j => ∀ m, t j (t i m) = t i (t j m) :=
    hl.imp fun {i j} h m => ((ht i).commute (ht j) h m).symm
  refine hp.foldl_eq' (fun i hi j hj m => ?_) m
  have hflip := hcomm.imp fun {i j} h m => (h m).symm
  exact List.Pairwise.forall_of_forall_of_flip (fun i _ m => rfl) hcomm hflip hi hj m

/-! ## Steps of an agent -/

/-- An agent's step (it may be stuck) stays inside a footprint: it changes only what `f` writes, and
whether it is stuck, its result and the new values depend only on what `f` touches. So the step can
be replayed in any memory that agrees there. -/
structure Local (f : Footprint α) (t : (α → β) → Option (γ × (α → β))) : Prop where
  frame : ∀ m c m', t m = some (c, m') → ∀ a, a ∉ f.writes → m' a = m a
  stuck : ∀ m₁ m₂, Set.EqOn m₁ m₂ f.touches → t m₁ = none → t m₂ = none
  depends : ∀ m₁ m₂, Set.EqOn m₁ m₂ f.touches → ∀ c m₁', t m₁ = some (c, m₁') →
    ∃ m₂', t m₂ = some (c, m₂') ∧ Set.EqOn m₁' m₂' f.touches

/-- A larger footprint contains the step as well. -/
theorem Local.mono {f g : Footprint α} {t : (α → β) → Option (γ × (α → β))} (h : f.Local t)
    (hr : f.touches ⊆ g.touches) (hw : f.writes ⊆ g.writes) : g.Local t where
  frame m c m' ht a ha := h.frame m c m' ht a fun hf => ha (hw hf)
  stuck m₁ m₂ he ht := h.stuck m₁ m₂ (he.mono hr) ht
  depends m₁ m₂ he c m₁' ht := by
    obtain ⟨m₂', ht₂, hin⟩ := h.depends m₁ m₂ (he.mono hr) c m₁' ht
    refine ⟨m₂', ht₂, fun a ha => ?_⟩
    by_cases haf : a ∈ f.writes
    · exact hin (f.writes_subset haf)
    · rw [h.frame _ _ _ ht a haf, h.frame _ _ _ ht₂ a haf]
      exact he ha

/-! ## Agents that share a memory -/

/-- The memory `m` is what agents with private memories `μ` have made of `m₀`: on what
an agent touches it is the agent's own memory, and what nobody writes is unchanged. -/
structure Merged (fp : ι → Footprint α) (μ : ι → α → β) (m₀ m : α → β) : Prop where
  agree : ∀ i, Set.EqOn m (μ i) (fp i).touches
  rest : ∀ a, (∀ i, a ∉ (fp i).writes) → m a = m₀ a

variable {fp : ι → Footprint α} {μ : ι → α → β} {m₀ m : α → β}

theorem Merged.start : Merged fp (fun _ => m₀) m₀ m₀ := ⟨fun _ _ _ => rfl, fun _ _ => rfl⟩

/-- **One agent moves**: it changes what it writes, in the same way in both memories. By this rule
the invariant follows every step of every agent, in whatever order they move. -/
theorem Merged.update [DecidableEq ι] (hfp : Pairwise fun i j => (fp i).Indep (fp j))
    (h : Merged fp μ m₀ m) {i : ι} {μ' m' : α → β} (hin : Set.EqOn m' μ' (fp i).touches)
    (hout : ∀ a, a ∉ (fp i).writes → m' a = m a) :
    Merged fp (Function.update μ i μ') m₀ m' where
  agree j a ha := by
    rcases eq_or_ne j i with rfl | hne
    · rw [Function.update_self]
      exact hin ha
    · rw [Function.update_of_ne hne, hout a ((hfp hne.symm).notMem ha)]
      exact h.agree j ha
  rest a ha := by
    rw [hout a (ha i)]
    exact h.rest a ha

/-- **The private memories determine the shared one.** -/
theorem Merged.unique {m' : α → β} (h : Merged fp μ m₀ m) (h' : Merged fp μ m₀ m') : m = m' := by
  funext a
  by_cases ha : ∃ i, a ∈ (fp i).writes
  · obtain ⟨i, hi⟩ := ha
    rw [h.agree i ((fp i).writes_subset hi), h'.agree i ((fp i).writes_subset hi)]
  · push Not at ha
    rw [h.rest a ha, h'.rest a ha]

end Footprint
