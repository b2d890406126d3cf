import Mathlib.Data.List.Flatten
import Mathlib.Data.List.Induction
import Megakernel.Interference
import Megakernel.Loops

/-!
# Work in place

Tasks that read and write one memory at the same time. A task reads in several loads,
each of which leaves a result in a register, and writes in several stores, of which the
places and values are told by its registers. All loads of a task come before its
stores; apart from that the events of all tasks may come in any order (`Ordered`).

If no task reads what another one writes (`Work.Independent`), every load yields what it
would have yielded at the beginning (`Ordered.reads`), and the memory ends up as if
everything had been read before anything was written (`Ordered.mem_eq`).

The library is about tasks with loads and stores, and knows no column, channel or state. Its two
users are the step of the delta rule and the window of the convolution.
-/

namespace InPlace

open List Loops

variable {α β ρ : Type*}

/-- What tasks do: `read task i` is the result of load `i`, `write task i` what store `i` writes,
given the results of the loads. -/
structure Work (α β ρ : Type*) : Type _ where
  loads : ℕ
  stores : ℕ
  read : ℕ → ℕ → (α → β) → ρ
  write : ℕ → ℕ → (ℕ → ρ) → List (α × β)

/-- An event of a task. -/
inductive Ev : Type where
  | load (task i : ℕ)
  | store (task i : ℕ)

/-- The memory, and the registers of the tasks. -/
structure State (α β ρ : Type*) : Type _ where
  mem : α → β
  reg : ℕ → ℕ → ρ

namespace Work

variable (W : Work α β ρ)

/-- The events of a task. -/
def events (task : ℕ) : List Ev :=
  (range W.loads).map (Ev.load task) ++ (range W.stores).map (Ev.store task)

/-- An order of the events of the tasks `ts`. -/
structure Ordered (ts : List ℕ) (τ : List Ev) : Prop where
  perm : τ.Perm (ts.flatMap W.events)
  loads : ∀ task ∈ ts, ∀ i < W.loads, ∀ j < W.stores, [Ev.load task i, Ev.store task j] <+ τ

variable [DecidableEq α]

/-- The effect of an event. -/
def step (s : State α β ρ) : Ev → State α β ρ
  | .load task i => { s with
      reg := fun t j => if t = task ∧ j = i then W.read task i s.mem else s.reg t j }
  | .store task i => { s with mem := store (W.write task i (s.reg task)) s.mem }

/-- The effect of several events, the first one first. -/
def run (s : State α β ρ) (τ : List Ev) : State α β ρ := τ.foldl W.step s

/-- What the loads of a task yield in the memory `m`. -/
def results (m : α → β) (task i : ℕ) : ρ := W.read task i m

/-- What an event writes if everything is read in the memory `m`. -/
def writes (m : α → β) : Ev → List (α × β)
  | .load _ _ => []
  | .store task i => W.write task i (W.results m task)

/-- The tasks stay inside independent footprints, and the stores of a task look at nothing but the
results of its loads. -/
structure Independent (fp : ℕ → Footprint α) : Prop where
  indep : Pairwise fun task task' => (fp task).Indep (fp task')
  reads : ∀ task, ∀ i < W.loads, ∀ m m' : α → β, Set.EqOn m m' (fp task).reads →
    W.read task i m = W.read task i m'
  writes : ∀ task, ∀ i < W.stores, ∀ reg, ∀ w ∈ W.write task i reg, w.1 ∈ (fp task).writes
  regs : ∀ task, ∀ i < W.stores, ∀ reg reg' : ℕ → ρ, (∀ j < W.loads, reg j = reg' j) →
    W.write task i reg = W.write task i reg'

end Work

variable {W : Work α β ρ}

/-! ## Orders -/

/-- What comes first in a list without duplicates. -/
theorem mem_of_pair_sublist {x y : α} {pre post : List α} (hnodup : (pre ++ y :: post).Nodup)
    (hsub : [x, y] <+ pre ++ y :: post) : x ∈ pre := by
  have hpost : y ∉ post := (nodup_cons.mp (nodup_append.mp hnodup).2.1).1
  obtain ⟨l₁, l₂, heq, hpre, hrest⟩ := sublist_append_iff.mp hsub
  cases l₁ with
  | nil =>
    rw [nil_append] at heq
    subst heq
    cases hrest with
    | cons _ hrest => exact absurd (hrest.subset (by simp)) hpost
    | cons_cons _ hrest => exact absurd (hrest.subset (by simp)) hpost
  | cons e l₁ =>
    rw [cons_append, cons.injEq] at heq
    exact hpre.subset (heq.1 ▸ mem_cons_self)

theorem notMem_of_pair_sublist {x y : α} {pre post : List α} (hnodup : (pre ++ x :: post).Nodup)
    (hsub : [x, y] <+ pre ++ x :: post) : y ∉ pre := by
  intro hy
  obtain ⟨p, q, rfl⟩ := append_of_mem hy
  rw [append_assoc, cons_append] at hnodup hsub
  have hx : x ∈ p := mem_of_pair_sublist hnodup hsub
  exact disjoint_of_nodup_append hnodup hx (by simp)

namespace Work

theorem mem_events {ts : List ℕ} {e : Ev} : e ∈ ts.flatMap W.events ↔ ∃ task ∈ ts,
    (∃ i < W.loads, e = .load task i) ∨ ∃ i < W.stores, e = .store task i := by
  simp only [events, mem_flatMap, mem_append, mem_map, mem_range]
  refine exists_congr fun task => and_congr_right fun _ => or_congr ?_ ?_
  · exact exists_congr fun i => and_congr_right fun _ => eq_comm
  · exact exists_congr fun i => and_congr_right fun _ => eq_comm

theorem nodup_events {ts : List ℕ} (hts : ts.Nodup) : (ts.flatMap W.events).Nodup := by
  refine nodup_flatMap.mpr ⟨fun task _ => ?_, ?_⟩
  · refine Nodup.append ?_ ?_ ?_
    · exact nodup_range.map fun i j heq => (Ev.load.inj heq).2
    · exact nodup_range.map fun i j heq => (Ev.store.inj heq).2
    · simp [List.disjoint_left]
  · refine hts.imp fun {task task'} hne e he he' => hne ?_
    simp only [events, mem_append, mem_map] at he he'
    obtain ⟨i, -, rfl⟩ | ⟨i, -, rfl⟩ := he <;> simp_all

/-- Task after task is such an order. -/
theorem ordered_sequential (W : Work α β ρ) (ts : List ℕ) : W.Ordered ts (ts.flatMap W.events) where
  perm := .refl _
  loads task htask i hi j hj := by
    have hevents : [Ev.load task i, Ev.store task j] <+ W.events task :=
      (singleton_sublist.mpr (mem_map_of_mem (mem_range.mpr hi))).append
        (singleton_sublist.mpr (mem_map_of_mem (mem_range.mpr hj)))
    have hsub := (singleton_sublist.mpr htask).flatMap W.events
    rw [flatMap_singleton] at hsub
    exact hevents.trans hsub

/-- Every task reads before any task writes, and the last one writes first. -/
theorem ordered_loadsFirst (W : Work α β ρ) (ts : List ℕ) :
    W.Ordered ts (ts.flatMap (fun task => (range W.loads).map (Ev.load task)) ++
      ts.reverse.flatMap fun task => (range W.stores).map (Ev.store task)) where
  perm := ((reverse_perm ts).flatMap_right _).append_left _ |>.trans (flatMap_append_perm ts _ _)
  loads task htask i hi j hj := by
    refine (singleton_sublist.mpr ?_).append (singleton_sublist.mpr ?_)
    · exact mem_flatMap.mpr ⟨task, htask, mem_map_of_mem (mem_range.mpr hi)⟩
    · exact mem_flatMap.mpr ⟨task, mem_reverse.mpr htask, mem_map_of_mem (mem_range.mpr hj)⟩

/-- The event may come after `pre`. -/
def Ready (W : Work α β ρ) (pre : List Ev) : Ev → Prop
  | .load task i => i < W.loads ∧ ∀ j, .store task j ∉ pre
  | .store task i => i < W.stores ∧ ∀ j < W.loads, .load task j ∈ pre

variable {ts : List ℕ} {τ : List Ev}

theorem Ordered.store_mem (h : W.Ordered ts τ) {task i : ℕ} :
    .store task i ∈ τ ↔ task ∈ ts ∧ i < W.stores := by
  rw [h.perm.mem_iff, mem_events]
  constructor
  · rintro ⟨task', htask, ⟨j, hj, heq⟩ | ⟨j, hj, heq⟩⟩
    · cases heq
    · cases heq
      exact ⟨htask, hj⟩
  · rintro ⟨htask, hi⟩
    exact ⟨task, htask, .inr ⟨i, hi, rfl⟩⟩

/-- In an order of the events every event comes when it may. -/
theorem Ordered.ready (h : W.Ordered ts τ) (hts : ts.Nodup) {pre post : List Ev} {e : Ev}
    (hτ : τ = pre ++ e :: post) : W.Ready pre e := by
  have hmem : e ∈ τ := by simp [hτ]
  have hnodup : τ.Nodup := h.perm.nodup_iff.mpr (nodup_events hts)
  obtain ⟨task, htask, ⟨i, hi, rfl⟩ | ⟨i, hi, rfl⟩⟩ := mem_events.mp (h.perm.mem_iff.mp hmem)
  · refine ⟨hi, fun j hstore => ?_⟩
    have hj : j < W.stores := (h.store_mem.mp (by rw [hτ]; exact mem_append_left _ hstore)).2
    subst hτ
    exact notMem_of_pair_sublist hnodup (h.loads task htask i hi j hj) hstore
  · refine ⟨hi, fun j hj => ?_⟩
    subst hτ
    exact mem_of_pair_sublist hnodup (h.loads task htask j hj i hi)

/-! ## Runs -/

variable [DecidableEq α] {fp : ℕ → Footprint α} {s₀ s : State α β ρ} {pre : List Ev}

/-- What holds after the events `pre`: the registers hold what the loads would have yielded at the
beginning, and the memory is as if everything had been read there. -/
structure Inv (W : Work α β ρ) (s₀ : State α β ρ) (pre : List Ev) (s : State α β ρ) : Prop where
  lt : ∀ task i, .store task i ∈ pre → i < W.stores
  reg : ∀ task i, .load task i ∈ pre → s.reg task i = W.results s₀.mem task i
  mem : s.mem = store (pre.flatMap (W.writes s₀.mem)) s₀.mem

theorem Inv.start (W : Work α β ρ) (s₀ : State α β ρ) : W.Inv s₀ [] s₀ where
  lt _ _ hmem := absurd hmem not_mem_nil
  reg _ _ hmem := absurd hmem not_mem_nil
  mem := rfl

/-- What a task reads is still there as long as the task has not stored anything. -/
theorem Inv.read_eq (h : W.Inv s₀ pre s) (hW : W.Independent fp) {task : ℕ}
    (hpre : ∀ j, .store task j ∉ pre) {i : ℕ} (hi : i < W.loads) :
    W.read task i s.mem = W.results s₀.mem task i := by
  refine hW.reads task i hi _ _ fun a ha => ?_
  rw [h.mem]
  refine store_of_notMem (fun hkey => ?_) _
  obtain ⟨w, hw, rfl⟩ := mem_map.mp hkey
  obtain ⟨e, he, hwe⟩ := mem_flatMap.mp hw
  cases e with
  | load task' j => exact not_mem_nil hwe
  | store task' j =>
    have hne : task' ≠ task := by
      rintro rfl
      exact hpre j he
    exact (hW.indep hne).notMem (Set.mem_union_left _ ha)
      (hW.writes task' j (h.lt task' j he) _ w hwe)

theorem Inv.step (h : W.Inv s₀ pre s) (hW : W.Independent fp) {e : Ev} (he : W.Ready pre e) :
    W.Inv s₀ (pre ++ [e]) (W.step s e) := by
  cases e with
  | load task i =>
    refine ⟨fun t j hmem => h.lt t j (by simpa using hmem), fun t j hmem => ?_, ?_⟩
    · simp only [Work.step]
      split
      · next heq =>
        obtain ⟨rfl, rfl⟩ := heq
        exact h.read_eq hW he.2 he.1
      · next hne =>
        refine h.reg t j ((mem_append.mp hmem).resolve_right fun hlast => hne ?_)
        rw [mem_singleton, Ev.load.injEq] at hlast
        exact hlast
    · rw [flatMap_append, flatMap_singleton, writes, append_nil]
      exact h.mem
  | store task i =>
    have hlt : ∀ t j, .store t j ∈ pre ++ [.store task i] → j < W.stores := by
      intro t j hmem
      obtain hpre | hlast := mem_append.mp hmem
      · exact h.lt t j hpre
      · rw [mem_singleton, Ev.store.injEq] at hlast
        exact hlast.2 ▸ he.1
    refine ⟨hlt, fun t j hmem => h.reg t j (by simpa using hmem), ?_⟩
    have hreg := hW.regs task i he.1 (s.reg task) (W.results s₀.mem task)
      fun j hj => h.reg task j (he.2 j hj)
    rw [flatMap_append, flatMap_singleton, writes, Work.step, h.mem, hreg, store, store, store,
      foldl_append]

/-- **What holds after every beginning of an order.** -/
theorem Ordered.inv (h : W.Ordered ts τ) (hts : ts.Nodup) (hW : W.Independent fp)
    (s₀ : State α β ρ) (hpre : pre <+: τ) : W.Inv s₀ pre (W.run s₀ pre) := by
  obtain ⟨post, rfl⟩ := hpre
  induction pre using List.reverseRecOn generalizing post with
  | nil => exact .start W s₀
  | append_singleton pre e ih =>
    rw [append_assoc] at h
    have hstep := (ih ([e] ++ post) h).step hW (h.ready hts rfl)
    rwa [run, foldl_append]

/-- **Every load yields what it would have yielded at the beginning.** -/
theorem Ordered.reads (h : W.Ordered ts τ) (hts : ts.Nodup) (hW : W.Independent fp)
    (s₀ : State α β ρ) (hpre : pre <+: τ) {task i : ℕ} (hmem : .load task i ∈ pre) :
    (W.run s₀ pre).reg task i = W.read task i s₀.mem :=
  (h.inv hts hW s₀ hpre).reg task i hmem

/-- **Everything seems to have been read before anything is written**, if the values are told by
their places. -/
theorem Ordered.mem_eq (h : W.Ordered ts τ) (hts : ts.Nodup) (hW : W.Independent fp)
    (s₀ : State α β ρ) {g : α → β} (hg : ∀ task ∈ ts, ∀ i < W.stores,
      ∀ w ∈ W.write task i (W.results s₀.mem task), w.2 = g w.1) :
    (∀ task ∈ ts, ∀ i < W.stores, ∀ w ∈ W.write task i (W.results s₀.mem task),
      (W.run s₀ τ).mem w.1 = g w.1) ∧
    ∀ a, (∀ task ∈ ts, a ∉ (fp task).writes) → (W.run s₀ τ).mem a = s₀.mem a := by
  have hmem := (h.inv hts hW s₀ (prefix_refl τ)).mem
  have hwrites {w : α × β} (hw : w ∈ τ.flatMap (W.writes s₀.mem)) :
      ∃ task ∈ ts, ∃ i < W.stores, w ∈ W.write task i (W.results s₀.mem task) := by
    obtain ⟨e, he, hwe⟩ := mem_flatMap.mp hw
    cases e with
    | load task i => exact absurd hwe not_mem_nil
    | store task i =>
      obtain ⟨htask, hi⟩ := h.store_mem.mp he
      exact ⟨task, htask, i, hi, hwe⟩
  refine ⟨fun task htask i hi w hw => ?_, fun a ha => ?_⟩
  · have hvals : ∀ w ∈ τ.flatMap (W.writes s₀.mem), w.2 = g w.1 := fun w hw => by
      obtain ⟨task, htask, i, hi, hwrite⟩ := hwrites hw
      exact hg task htask i hi w hwrite
    have hstored : w ∈ τ.flatMap (W.writes s₀.mem) :=
      mem_flatMap.mpr ⟨_, h.store_mem.mpr ⟨htask, hi⟩, hw⟩
    rw [hmem, store_eq hvals]
    exact if_pos (mem_map_of_mem hstored)
  · rw [hmem]
    refine store_of_notMem (fun hkey => ?_) _
    obtain ⟨w, hw, rfl⟩ := mem_map.mp hkey
    obtain ⟨task, htask, i, hi, hwrite⟩ := hwrites hw
    exact ha task htask (hW.writes task i hi _ w hwrite)

end Work

end InPlace
