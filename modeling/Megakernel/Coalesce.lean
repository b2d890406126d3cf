import Mathlib.Data.Finset.Lattice.Fold
import Megakernel.Interference
import Megakernel.Isa

/-!
# Window coalescing (`compile_schedule.py`)

The schedule compiler first emits one boundary window after another and then
merges adjacent windows that are provably independent. An instruction carries
the names of the buffers it reads and writes, an estimate of its cost, and, for
the meaning, a transformer of the store that stays inside that footprint.

The merge is greedy: each window is tested against the union of everything
merged so far. `coalesce_grouped` says what comes out: a grouping of the window
list into runs, where a run of more than one window has no exchange instruction,
at most one heavy instruction, and no hazard. That no order inside the merged
windows matters is then `Footprint.foldl_perm`.

The compiler looks at declared sets and at estimates, never at what an instruction does. That the
declared sets are right is therefore a field of `Op`, and every statement about meaning uses it.
-/

namespace Megakernel

variable {ν V : Type*} [DecidableEq ν]

/-- `HEAVY_EST` -/
def heavyEst : ℕ := 512 * 1024

/-- An emitted instruction: its entry in `PROG` and what it does to a store of named buffers. The
meaning is a transformer that keeps to the declared footprint, so that a wrong declaration cannot be
built. -/
structure Op (ν V : Type*) : Type _ where
  kind : MacroKind
  /-- `_r` -/
  reads : Finset ν
  /-- `_w` -/
  writes : Finset ν
  /-- `_est` -/
  est : ℕ
  /-- the effect on the store -/
  exec : (ν → V) → ν → V
  /-- the declared sets are right -/
  confined : (Footprint.mk (reads : Set ν) writes).Confines exec

/-- A boundary window. -/
abbrev Window (ν V : Type*) : Type _ := List (Op ν V)

namespace Op

/-- The declared footprint. -/
def footprint (o : Op ν V) : Footprint ν := ⟨o.reads, o.writes⟩

/-- `kind in XCHG_KINDS` -/
def isXchg (o : Op ν V) : Bool := o.kind == .xchgPush || o.kind == .xchgReduce

/-- `ia["_w"] & (ib["_r"] | ib["_w"])` is not empty. -/
def clash (a b : Op ν V) : Bool := decide (a.writes ∩ (b.reads ∪ b.writes) ≠ ∅)

end Op

/-- The read set of `_win_rw`: all that any of the instructions reads. -/
def winReads (w : Window ν V) : Finset ν := w.foldl (fun r i => r ∪ i.reads) ∅

/-- The write set of `_win_rw`. -/
def winWrites (w : Window ν V) : Finset ν := w.foldl (fun r i => r ∪ i.writes) ∅

/-- `_independent`: neither window writes what the other reads or writes. Reading the same buffer is
no hazard. -/
def independent (a b : Window ν V) : Bool :=
  decide (winWrites a ∩ (winReads b ∪ winWrites b) = ∅) && decide (winWrites b ∩ winReads a = ∅)

/-- `_n_heavy` -/
def nHeavy (w : Window ν V) : ℕ := w.countP fun i => decide (heavyEst ≤ i.est)

/-- `_has_xchg` -/
def hasXchg (w : Window ν V) : Bool := w.any Op.isXchg

/-- The test of the coalescing loop: no exchange in either window, independence, and at most one
heavy instruction in both together. -/
def mayMerge (a b : Window ν V) : Bool :=
  !hasXchg a && !hasXchg b && independent a b && decide (nHeavy a + nHeavy b ≤ 1)

/-- One iteration of the coalescing loop. -/
def coalesceStep (merged : List (Window ν V)) (w : Window ν V) : List (Window ν V) :=
  match merged.getLast? with
  | some l => if mayMerge l w then merged.dropLast ++ [l ++ w] else merged ++ [w]
  | none => merged ++ [w]

/-- The coalescing loop. It never looks back beyond the last window it has put out, so that what it
makes depends on the order in which windows come. -/
def coalesce (ws : List (Window ν V)) : List (Window ν V) := ws.foldl coalesceStep []

/-- The pairs of positions the lifetime check reports for a window. -/
def hazards (w : Window ν V) : List (ℕ × ℕ) :=
  ((List.range w.length).product (List.range w.length)).filter fun p =>
    p.1 != p.2 &&
      match w[p.1]?, w[p.2]? with
      | some a, some b => a.clash b
      | _, _ => false

/-- No instruction writes what another one of the window reads or writes. The blocks of the grid
execute a window without any order, and this is what makes that harmless. -/
def HazardFree (w : Window ν V) : Prop :=
  w.Pairwise fun a b => a.clash b = false ∧ b.clash a = false

/-- Execute instructions one after another. -/
def runOps (w : Window ν V) (m : ν → V) : ν → V := w.foldl (fun m o => o.exec m) m

/-! ## The tests -/

theorem mem_foldl_union {σ : Type*} {f : σ → Finset ν} {l : List σ} {s : Finset ν} {a : ν} :
    a ∈ l.foldl (fun r i => r ∪ f i) s ↔ a ∈ s ∨ ∃ i ∈ l, a ∈ f i := by
  induction l generalizing s with
  | nil => simp
  | cons i l ih =>
    rw [List.foldl_cons, ih, Finset.mem_union]
    simp [or_assoc]

theorem mem_winReads {w : Window ν V} {a : ν} : a ∈ winReads w ↔ ∃ i ∈ w, a ∈ i.reads := by
  simp [winReads, mem_foldl_union]

theorem mem_winWrites {w : Window ν V} {a : ν} : a ∈ winWrites w ↔ ∃ i ∈ w, a ∈ i.writes := by
  simp [winWrites, mem_foldl_union]

theorem Op.clash_eq_false {a b : Op ν V} :
    a.clash b = false ↔ Disjoint a.writes (b.reads ∪ b.writes) := by
  simp [Op.clash, Finset.disjoint_iff_inter_eq_empty]

/-- No clash either way is independence of the footprints. -/
theorem Op.indep_of_clash {a b : Op ν V} (h : a.clash b = false ∧ b.clash a = false) :
    a.footprint.Indep b.footprint := by
  obtain ⟨h₁, h₂⟩ := h
  rw [Op.clash_eq_false] at h₁ h₂
  refine ⟨?_, ?_⟩
  · have := Finset.disjoint_coe.mpr h₁
    rwa [Finset.coe_union] at this
  · have := Finset.disjoint_coe.mpr h₂
    rwa [Finset.coe_union] at this

/-- The union test is right: it covers every pair across the two windows. -/
theorem clash_of_independent {a b : Window ν V} (h : independent a b = true) {i j : Op ν V}
    (hi : i ∈ a) (hj : j ∈ b) : i.clash j = false ∧ j.clash i = false := by
  simp only [independent, Bool.and_eq_true, decide_eq_true_eq,
    ← Finset.disjoint_iff_inter_eq_empty] at h
  obtain ⟨h₁, h₂⟩ := h
  have hjr : j.reads ∪ j.writes ⊆ winReads b ∪ winWrites b :=
    Finset.union_subset_union (fun x hx => mem_winReads.mpr ⟨j, hj, hx⟩)
      fun x hx => mem_winWrites.mpr ⟨j, hj, hx⟩
  have hiw : i.writes ⊆ winWrites a := fun x hx => mem_winWrites.mpr ⟨i, hi, hx⟩
  have hjw : j.writes ⊆ winWrites b := fun x hx => mem_winWrites.mpr ⟨j, hj, hx⟩
  have hir : i.reads ⊆ winReads a := fun x hx => mem_winReads.mpr ⟨i, hi, hx⟩
  refine ⟨Op.clash_eq_false.mpr (h₁.mono hiw hjr), Op.clash_eq_false.mpr ?_⟩
  -- the second test covers `j` against the reads of `i`, the first one the writes of both
  rw [Finset.disjoint_union_right]
  exact ⟨h₂.mono hjw hir, (h₁.mono hiw (hjw.trans Finset.subset_union_right)).symm⟩

/-- Merging two hazard-free windows that pass the test gives a hazard-free window. -/
theorem HazardFree.append {a b : Window ν V} (ha : HazardFree a) (hb : HazardFree b)
    (h : independent a b = true) : HazardFree (a ++ b) :=
  List.pairwise_append.mpr ⟨ha, hb, fun _ hi _ hj => clash_of_independent h hi hj⟩

/-- The lifetime check reports nothing exactly for the hazard-free windows. -/
theorem hazards_eq_nil_iff {w : Window ν V} : hazards w = [] ↔ HazardFree w := by
  rw [hazards, List.filter_eq_nil_iff, HazardFree, List.pairwise_iff_getElem]
  refine ⟨fun h i j hi hj hij => ?_, fun h p hp => ?_⟩
  · have h₁ := h (i, j) (List.mem_product.mpr ⟨List.mem_range.mpr hi, List.mem_range.mpr hj⟩)
    have h₂ := h (j, i) (List.mem_product.mpr ⟨List.mem_range.mpr hj, List.mem_range.mpr hi⟩)
    simp only [List.getElem?_eq_getElem hi, List.getElem?_eq_getElem hj, Bool.and_eq_true,
      bne_iff_ne, not_and, Bool.not_eq_true] at h₁ h₂
    exact ⟨h₁ hij.ne, h₂ hij.ne'⟩
  · obtain ⟨i, j⟩ := p
    obtain ⟨hi, hj⟩ := List.mem_product.mp hp
    rw [List.mem_range] at hi hj
    simp only [List.getElem?_eq_getElem hi, List.getElem?_eq_getElem hj, Bool.and_eq_true,
      bne_iff_ne, not_and, Bool.not_eq_true]
    intro hne
    rcases Nat.lt_or_gt_of_ne hne with hlt | hgt
    · exact (h i j hi hj hlt).1
    · exact (h j i hj hi hgt).2

/-- A hazard-free window can be executed in any order. -/
theorem HazardFree.runOps_perm {w w' : Window ν V} (h : HazardFree w) (hp : w.Perm w')
    (m : ν → V) : runOps w m = runOps w' m :=
  Footprint.foldl_perm (fun o : Op ν V => o.confined) (h.imp Op.indep_of_clash) hp m

omit [DecidableEq ν] in
theorem runOps_append (a b : Window ν V) (m : ν → V) : runOps (a ++ b) m = runOps b (runOps a m) :=
  List.foldl_append

/-! ## What the loop produces -/

/-- A run of windows that the loop may put together: one window as it was emitted, or several
without an exchange and without a hazard across, with at most one heavy instruction. -/
structure Mergeable (g : List (Window ν V)) : Prop where
  nonempty : g ≠ []
  /-- the result is hazard-free -/
  hazardFree : HazardFree g.flatten
  /-- a real merge involves no exchange -/
  xchg : 2 ≤ g.length → hasXchg g.flatten = false
  /-- and at most one heavy instruction -/
  heavy : 2 ≤ g.length → nHeavy g.flatten ≤ 1

theorem Mergeable.single {w : Window ν V} (h : HazardFree w) : Mergeable [w] where
  nonempty := List.cons_ne_nil _ _
  hazardFree := by simpa using h
  xchg h := absurd h (by simp)
  heavy h := absurd h (by simp)

/-- The test of the loop lets a run grow by a window. -/
theorem Mergeable.snoc {g : List (Window ν V)} {w : Window ν V} (hg : Mergeable g)
    (hw : HazardFree w) (h : mayMerge g.flatten w = true) : Mergeable (g ++ [w]) := by
  simp only [mayMerge, Bool.and_eq_true, Bool.not_eq_true', decide_eq_true_eq] at h
  obtain ⟨⟨⟨hxg, hxw⟩, hind⟩, hheavy⟩ := h
  have hflat : (g ++ [w]).flatten = g.flatten ++ w := by simp
  refine ⟨by simp, ?_, fun _ => ?_, fun _ => ?_⟩
  · rw [hflat]
    exact hg.hazardFree.append hw hind
  · rw [hflat, hasXchg, List.any_append]
    simp only [Bool.or_eq_false_iff]
    exact ⟨hxg, hxw⟩
  · rw [hflat, nHeavy, List.countP_append]
    exact hheavy

/-- One iteration on a grouping: the last run grows, or a new run is begun. -/
theorem coalesceStep_grouped {gs : List (List (Window ν V))} (hgs : ∀ g ∈ gs, Mergeable g)
    {w : Window ν V} (hw : HazardFree w) :
    ∃ gs' : List (List (Window ν V)), gs'.flatten = gs.flatten ++ [w] ∧
      coalesceStep (gs.map List.flatten) w = gs'.map List.flatten ∧ ∀ g ∈ gs', Mergeable g := by
  have hnew : (gs ++ [[w]]).flatten = gs.flatten ++ [w] ∧
      gs.map List.flatten ++ [w] = (gs ++ [[w]]).map List.flatten ∧
      ∀ g ∈ gs ++ [[w]], Mergeable g := by
    refine ⟨by simp, by simp, fun g hg => ?_⟩
    rcases List.mem_append.mp hg with hg | hg
    · exact hgs g hg
    · rw [List.mem_singleton.mp hg]
      exact .single hw
  rcases List.eq_nil_or_concat gs with rfl | ⟨gs, g, rfl⟩
  · exact ⟨_, hnew⟩
  · rw [List.concat_eq_append] at hgs hnew ⊢
    have hlast : ((gs ++ [g]).map List.flatten).getLast? = some g.flatten := by simp
    by_cases hm : mayMerge g.flatten w = true
    · refine ⟨gs ++ [g ++ [w]], by simp, ?_, fun g' hg' => ?_⟩
      · rw [coalesceStep, hlast]
        simp [hm]
      · rcases List.mem_append.mp hg' with hg' | hg'
        · exact hgs g' (List.mem_append_left _ hg')
        · rw [List.mem_singleton.mp hg']
          exact (hgs g (by simp)).snoc hw hm
    · refine ⟨_, hnew.1, ?_, hnew.2.2⟩
      rw [← hnew.2.1, coalesceStep, hlast]
      simp [hm]

/-- **The loop groups the window list into mergeable runs.** -/
theorem coalesce_grouped {ws : List (Window ν V)} (h : ∀ w ∈ ws, HazardFree w) :
    ∃ gs : List (List (Window ν V)), gs.flatten = ws ∧ coalesce ws = gs.map List.flatten ∧
      ∀ g ∈ gs, Mergeable g := by
  induction ws using List.reverseRecOn with
  | nil => exact ⟨[], rfl, rfl, nofun⟩
  | append_singleton ws w ih =>
    obtain ⟨gs, hws, hco, hgs⟩ := ih fun w' hw' => h w' (List.mem_append_left _ hw')
    obtain ⟨gs', hws', hco', hgs'⟩ := coalesceStep_grouped hgs (h w (by simp))
    refine ⟨gs', by rw [hws', hws], ?_, hgs'⟩
    rw [coalesce, List.foldl_append, ← coalesce, hco]
    exact hco'

/-- Reordering inside hazard-free windows does not change the store. -/
theorem runOps_flatten_perm {ws ws' : List (Window ν V)} (h : ∀ w ∈ ws, HazardFree w)
    (hp : List.Forall₂ List.Perm ws ws') (m : ν → V) :
    runOps ws.flatten m = runOps ws'.flatten m := by
  induction hp generalizing m with
  | nil => rfl
  | @cons w w' ws ws' hw _ ih =>
    rw [List.flatten_cons, List.flatten_cons, runOps_append, runOps_append,
      (h w List.mem_cons_self).runOps_perm hw]
    exact ih (fun v hv => h v (List.mem_cons_of_mem _ hv)) _

/-- **Coalescing preserves meaning.** If every input window is hazard-free, then the
merged windows concatenate to the same instructions; each of them is hazard-free again
and passes the lifetime check; in whatever order the instructions of each merged window
(and of each original window) are executed, the final store is the same; a window with
an exchange instruction is in a run of its own; and a merged window holds two heavy
instructions only if an original one does. -/
theorem coalesce_correct (ws : List (Window ν V)) (h : ∀ w ∈ ws, HazardFree w) :
    (coalesce ws).flatten = ws.flatten ∧
    (∀ w ∈ coalesce ws, HazardFree w ∧ hazards w = []) ∧
    (∀ cs os, List.Forall₂ List.Perm (coalesce ws) cs → List.Forall₂ List.Perm ws os →
      ∀ m, runOps cs.flatten m = runOps os.flatten m) ∧
    (∃ gs : List (List (Window ν V)), gs.flatten = ws ∧ coalesce ws = gs.map List.flatten ∧
      ∀ g ∈ gs, (∃ w ∈ g, hasXchg w = true) → g.length = 1) ∧
    (∀ w ∈ coalesce ws, 2 ≤ nHeavy w → w ∈ ws) := by
  obtain ⟨gs, hws, hco, hgs⟩ := coalesce_grouped h
  have hflat : (coalesce ws).flatten = ws.flatten := by
    rw [hco, ← List.flatten_flatten, hws]
  have hfree : ∀ w ∈ coalesce ws, HazardFree w := by
    intro w hw
    rw [hco] at hw
    obtain ⟨g, hg, rfl⟩ := List.mem_map.mp hw
    exact (hgs g hg).hazardFree
  refine ⟨hflat, fun w hw => ⟨hfree w hw, hazards_eq_nil_iff.mpr (hfree w hw)⟩,
    fun cs os hcs hos m => ?_, ⟨gs, hws, hco, ?_⟩, ?_⟩
  · rw [← runOps_flatten_perm hfree hcs, ← runOps_flatten_perm h hos, hflat]
  · rintro g hg ⟨w, hw, hx⟩
    have hpos := List.length_pos_of_mem hw
    by_contra hne
    have hno := (hgs g hg).xchg (by omega)
    have hyes : hasXchg g.flatten = true := by
      obtain ⟨o, ho, hox⟩ := List.any_eq_true.mp hx
      exact List.any_eq_true.mpr ⟨o, List.mem_flatten.mpr ⟨w, hw, ho⟩, hox⟩
    rw [hno] at hyes
    cases hyes
  · intro w hw hheavy
    rw [hco] at hw
    obtain ⟨g, hg, rfl⟩ := List.mem_map.mp hw
    rcases Nat.lt_or_ge g.length 2 with hlt | hge
    · obtain ⟨w, rfl⟩ : ∃ w, g = [w] := by
        have := List.length_pos_iff.mpr (hgs g hg).nonempty
        exact List.length_eq_one_iff.mp (by omega)
      rw [← hws]
      exact List.mem_flatten.mpr ⟨_, hg, by simp⟩
    · have := (hgs g hg).heavy hge
      omega

/-- An instruction that copies buffer `y` to buffer `x`. -/
def Op.move (kind : MacroKind) (est : ℕ) (y x : ν) : Op ν V where
  kind := kind
  reads := {y}
  writes := {x}
  est := est
  exec m := Function.update m x (m y)
  confined := by
    refine ⟨fun m a ha => ?_, fun m m' h a ha => ?_⟩
    · exact Function.update_of_ne (fun hax => ha (by simp [hax])) _ _
    · obtain rfl : a = x := by simpa using ha
      simp only [Function.update_self]
      exact h (by simp [Footprint.touches])

/-- A heavy and a light instruction that share their input, then an exchange. -/
def threeWindows : List (Window (Fin 4) ℕ) :=
  [[.move .mmvqQ4_0 heavyEst 0 1], [.move .attnGate 1 0 2], [.move .xchgPush 1 2 3]]

theorem coalesce_correct_threeWindows :
    (coalesce threeWindows).length = 2 ∧ (coalesce threeWindows).flatten = threeWindows.flatten ∧
      ∀ w ∈ coalesce threeWindows, hazards w = [] := by
  have hfree : ∀ w ∈ threeWindows, HazardFree w := by
    intro w hw
    simp only [threeWindows, List.mem_cons, List.not_mem_nil, or_false] at hw
    rcases hw with rfl | rfl | rfl <;> exact List.pairwise_singleton _ _
  obtain ⟨h₁, h₂, -⟩ := coalesce_correct threeWindows hfree
  exact ⟨by decide, h₁, fun w hw => (h₂ w hw).2⟩

end Megakernel
