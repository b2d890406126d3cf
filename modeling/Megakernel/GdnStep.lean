import Mathlib.Algebra.BigOperators.Fin
import Megakernel.DeltaRule
import Megakernel.InPlace
import Megakernel.Launch

/-!
# The delta-rule step in place

OP_STATE_LOAD, OP_GDN_STEP and OP_STATE_STORE of `k0/ops/gdn.cuh` in exact arithmetic.

The warps of the step work for one column of one head at a time, and update the state
in place while other warps still read it. The lanes of a warp read their rows of the
column before any of them stores, since the reductions of the warp come in between;
nothing else is assumed about the order. Still every lane reads what the state was at
the beginning, and in the end every head has made a step of the delta rule
(`gdnWork_stepped`). Through a row of the cache the steps add up to the left fold over
the tokens: `gdn_step_in_place`.

The launch decides which warp does which task, and it does not matter: a task is its own, reads one
column and writes one column. The results are stated for every order of the single loads and stores
that keeps a task's loads in front of its stores.
-/

namespace Megakernel

open InPlace Loops Warps List

variable {R : Type*}

/-! ## Rows of the state cache -/

/-- `StateLoadArgs` and `StateStoreArgs`, with the addresses of both sides. The two ops differ only
in the direction of the copy. -/
structure StateRowArgs : Type where
  src : ℕ
  dst : ℕ
  rows : ℕ → ℕ
  rowStride : ℕ
  nElems : ℕ
  nRows : ℕ

/-- The elements of a row that a thread copies: four at a time if the length and both addresses
allow it. -/
def rowShare (I : Launch) (nElems src dst block thread : ℕ) : List ℕ :=
  if nElems &&& 3 = 0 ∧ (src ||| dst) &&& 15 = 0 then
    (I.share 0 (nElems >>> 2) block thread).flatMap fun i =>
      (range 4).map fun j => i * 4 + j
  else I.share 0 nElems block thread

/-- `op_state_load`: what a thread stores in the working buffer. -/
def opStateLoad (I : Launch) (a : StateRowArgs) (cache : ℕ → R) (block thread : ℕ) : List (ℕ × R) :=
  (range a.nRows).flatMap fun r =>
    (rowShare I a.nElems (a.src + 4 * (a.rows r * a.rowStride)) (a.dst + 4 * (r * a.nElems)) block
      thread).map fun i => (r * a.nElems + i, cache (a.rows r * a.rowStride + i))

/-- `op_state_store`: what a thread stores in the cache. -/
def opStateStore (I : Launch) (a : StateRowArgs) (buf : ℕ → R) (block thread : ℕ) : List (ℕ × R) :=
  (range a.nRows).flatMap fun r =>
    (rowShare I a.nElems (a.src + 4 * (r * a.nElems)) (a.dst + 4 * (a.rows r * a.rowStride)) block
      thread).map fun i => (a.rows r * a.rowStride + i, buf (r * a.nElems + i))

/-- `pack_STATE_LOAD` and `pack_STATE_STORE`: one row, and the rows follow one another. -/
def packStateRow (src dst : ℕ) (rsRow : ℕ → ℕ) (elems : ℕ) : StateRowArgs :=
  ⟨src, dst, rsRow, elems, elems, 1⟩

/-- The threads copy every element of a row once. -/
theorem rowShare_perm (I : Launch) (nElems src dst : ℕ) :
    (I.grid.flatMap fun w => rowShare I nElems src dst w.1 w.2).Perm (range nElems) := by
  simp only [rowShare]
  split
  · next h =>
    have hmod : nElems % 4 = 0 := by
      rw [← Nat.and_two_pow_sub_one_eq_mod nElems 2]
      exact h.1
    have hfour : nElems >>> 2 * 4 = nElems := by
      rw [Nat.shiftRight_eq_div_pow]
      omega
    have hblocks := flatMap_blocks (fun i => [i]) (nElems >>> 2) 4
    rw [hfour, flatMap_singleton' (range nElems)] at hblocks
    rw [← flatMap_assoc, ← hblocks]
    simp only [← map_eq_flatMap]
    have hperm := I.share_perm 0 (nElems >>> 2)
    rw [Nat.sub_zero, ← range_eq_range'] at hperm
    exact hperm.flatMap_right _
  · have hperm := I.share_perm 0 nElems
    rwa [Nat.sub_zero, ← range_eq_range'] at hperm

/-- Copies of the elements of a row, in any order. -/
theorem store_row {off elems : ℕ} {g : ℕ → R} {is : List ℕ} {ws : List (ℕ × R)}
    (his : is.Perm (range elems)) (hws : ws.Perm (is.map fun i => (off + i, g i))) (m : ℕ → R) :
    store ws m = fun k => if off ≤ k ∧ k < off + elems then g (k - off) else m k := by
  have hvals : ∀ w ∈ ws, w.2 = g (w.1 - off) := by
    intro w hw
    obtain ⟨i, -, rfl⟩ := mem_map.mp (hws.mem_iff.mp hw)
    rw [Nat.add_sub_cancel_left]
  rw [store_eq (g := fun k => g (k - off)) hvals]
  funext k
  refine ite_cond_congr (propext ?_)
  simp only [mem_map, hws.mem_iff, his.mem_iff, mem_range]
  constructor
  · rintro ⟨w, ⟨i, hi, rfl⟩, rfl⟩
    exact ⟨Nat.le_add_right _ _, Nat.add_lt_add_left hi _⟩
  · rintro ⟨hle, hlt⟩
    exact ⟨_, ⟨k - off, by omega, rfl⟩, by omega⟩

/-- **After a load the working buffer holds the row**, whatever the order of the stores. -/
theorem store_opStateLoad {I : Launch} {src dst elems : ℕ} {rsRow : ℕ → ℕ} {cache : ℕ → R}
    {ws : List (ℕ × R)} (hws : ws.Perm (I.grid.flatMap fun w =>
      opStateLoad I (packStateRow src dst rsRow elems) cache w.1 w.2)) (buf : ℕ → R) :
    store ws buf = fun i => if i < elems then cache (rsRow 0 * elems + i) else buf i := by
  simp only [opStateLoad, packStateRow, range_one, flatMap_singleton, Nat.zero_mul,
    ← map_flatMap] at hws
  rw [store_row (rowShare_perm I elems _ _) hws]
  simp only [Nat.zero_le, true_and, Nat.zero_add, Nat.sub_zero]

/-- **After a store the row of the cache holds the working buffer.** -/
theorem store_opStateStore {I : Launch} {src dst elems : ℕ} {rsRow : ℕ → ℕ} {buf : ℕ → R}
    {ws : List (ℕ × R)} (hws : ws.Perm (I.grid.flatMap fun w =>
      opStateStore I (packStateRow src dst rsRow elems) buf w.1 w.2)) (cache : ℕ → R) :
    store ws cache = fun k => if rsRow 0 * elems ≤ k ∧ k < rsRow 0 * elems + elems then
      buf (k - rsRow 0 * elems) else cache k := by
  simp only [opStateStore, packStateRow, range_one, flatMap_singleton, Nat.zero_mul, Nat.zero_add,
    ← map_flatMap] at hws
  exact store_row (rowShare_perm I elems _ _) hws cache

/-! ## OP_GDN_STEP -/

/-- `GdnStepArgs`, with what the pointers other than those to the state lead to. These are read
only, so that their contents are part of the arguments. -/
structure GdnStepArgs (R : Type*) : Type _ where
  q : ℕ → R
  k : ℕ → R
  v : ℕ → R
  g : ℕ → R
  beta : ℕ → R
  nHeads : ℕ
  nKHeads : ℕ
  scale : R

/-- `h` of a task. The first argument is GDN_SV. -/
def taskHead (sv task : ℕ) : ℕ := task / sv

/-- `col` of a task. -/
def taskCol (sv task : ℕ) : ℕ := task - taskHead sv task * sv

/-- `s_off` of a task. -/
def taskOff (sv task : ℕ) : ℕ := (taskHead sv task * sv + taskCol sv task) * sv

/-- What the op writes: the state, which `pack_GDN_STEP` lets it update in place, and the output.
Reads of the state are what the order of the tasks could disturb. -/
inductive GdnCell : Type where
  | state (i : ℕ)
  | attn (i : ℕ)
  deriving DecidableEq

section Ops

variable [CommRing R] (sv : ℕ) (a : GdnStepArgs R) (shard : ℕ → ℕ → R) (task : ℕ)

namespace GdnStepArgs

/-- `k_reg` of a lane. -/
def kReg (lane r : ℕ) : R := a.k (taskHead sv task % a.nKHeads * sv + (r * 32 + lane))

/-- `q_reg` of a lane. -/
def qReg (lane r : ℕ) : R := a.q (taskHead sv task % a.nKHeads * sv + (r * 32 + lane))

/-- `kv_shard` of a lane. -/
def kvShard (lane : ℕ) : R :=
  (range (sv / 32)).foldl (fun acc r => acc + shard lane r * a.kReg sv task lane r) 0

/-- `delta_col` -/
def deltaCol (lane : ℕ) : R :=
  let kvCol := laneSum (a.kvShard sv shard task) lane
  let vCol := a.v (taskHead sv task * sv + taskCol sv task)
  (vCol - a.g (taskHead sv task) * kvCol) * a.beta (taskHead sv task)

/-- `s_shard` of a lane after the update. -/
def newShard (lane r : ℕ) : R :=
  a.g (taskHead sv task) * shard lane r + a.kReg sv task lane r * a.deltaCol sv shard task lane

/-- `attn_partial` of a lane. -/
def attnPartial (lane : ℕ) : R :=
  (range (sv / 32)).foldl
    (fun acc r => acc + a.newShard sv shard task lane r * a.qReg sv task lane r) 0

end GdnStepArgs

/-- `op_gdn_step` as the work of its tasks: the lanes of the warp read their rows of the column,
then they store. Between the two stand the reductions of the warp, which no lane passes before all
have read. -/
def gdnWork : Work GdnCell R (ℕ → R) where
  loads := 32
  stores := 32
  read task lane m r := if r < sv / 32 then m (.state (taskOff sv task + (r * 32 + lane))) else 0
  write task lane shard :=
    ((range (sv / 32)).map fun r =>
      (.state (taskOff sv task + (r * 32 + lane)), a.newShard sv shard task lane r)) ++
    if lane = 0 then
      [(.attn (taskHead sv task * sv + taskCol sv task),
        laneSum (a.attnPartial sv shard task) lane * a.scale)]
    else []

/-- The tasks of the warps of `op_gdn_step`. -/
def gdnTasks (I : Launch) (block warp : ℕ) : List ℕ := I.share 0 (a.nHeads * sv) block warp

/-- The state of a head: the columns follow one another, so that a column is contiguous and a row is
not. -/
def headState (state : ℕ → R) (h : ℕ) : Matrix (Fin sv) (Fin sv) R :=
  fun i col => state ((h * sv + col) * sv + i)

/-- What a head is given. -/
def GdnStepArgs.token (h : ℕ) : DeltaRule.Token (Fin sv) (Fin sv) R where
  q i := a.q (h % a.nKHeads * sv + i)
  k i := a.k (h % a.nKHeads * sv + i)
  v col := a.v (h * sv + col)
  g := a.g h
  beta := a.beta h

end Ops

/-! ### Tasks -/

theorem head_add_col (sv task : ℕ) : taskHead sv task * sv + taskCol sv task = task :=
  Nat.add_sub_cancel' (Nat.div_mul_le_self task sv)

theorem taskOff_eq (sv task : ℕ) : taskOff sv task = task * sv := by
  rw [taskOff, head_add_col]

theorem taskHead_mul_add {sv col : ℕ} (h : ℕ) (hcol : col < sv) :
    taskHead sv (h * sv + col) = h := by
  rw [taskHead, Nat.mul_comm, Nat.mul_add_div (by omega), Nat.div_eq_of_lt hcol, Nat.add_zero]

theorem taskCol_mul_add {sv col : ℕ} (h : ℕ) (hcol : col < sv) :
    taskCol sv (h * sv + col) = col := by
  rw [taskCol, taskHead_mul_add h hcol, Nat.add_sub_cancel_left]

variable {sv : ℕ}

theorem task_lt {n h col : ℕ} (hh : h < n) (hcol : col < sv) : h * sv + col < n * sv := by
  calc h * sv + col < h * sv + sv := Nat.add_lt_add_left hcol _
    _ = (h + 1) * sv := (Nat.succ_mul h sv).symm
    _ ≤ n * sv := Nat.mul_le_mul_right sv hh

/-- The tasks that a launch runs. -/
def launchTasks (sv : ℕ) (a : GdnStepArgs R) (I : Launch) : List ℕ :=
  I.grid.flatMap fun w => gdnTasks sv a I w.1 w.2

/-- Every task is run once. -/
theorem launchTasks_perm (sv : ℕ) (a : GdnStepArgs R) (I : Launch) :
    (launchTasks sv a I).Perm (range (a.nHeads * sv)) := by
  have hperm := I.share_perm 0 (a.nHeads * sv)
  rwa [Nat.sub_zero, ← range_eq_range'] at hperm

theorem mem_launchTasks {a : GdnStepArgs R} {I : Launch} {task : ℕ} :
    task ∈ launchTasks sv a I ↔ task < a.nHeads * sv := by
  rw [(launchTasks_perm sv a I).mem_iff, mem_range]

/-- The heads and columns of the tasks. -/
theorem heads_perm (a : GdnStepArgs R) (I : Launch) : ((launchTasks sv a I).map fun task =>
    (taskHead sv task, taskCol sv task)).Perm (range a.nHeads ×ˢ range sv) := by
  refine ((launchTasks_perm sv a I).map _).trans (Perm.of_eq ?_)
  have hblocks := flatMap_blocks (fun task => [(taskHead sv task, taskCol sv task)]) a.nHeads sv
  simp only [← map_eq_flatMap] at hblocks
  rw [← hblocks]
  refine flatMap_congr fun h _ => map_congr_left fun col hcol => ?_
  rw [taskHead_mul_add h (mem_range.mp hcol), taskCol_mul_add h (mem_range.mp hcol)]

/-- The rows of a lane are rows. -/
theorem row_lt (hsv : 32 ∣ sv) {lane r : ℕ} (hlane : lane < 32) (hr : r < sv / 32) :
    r * 32 + lane < sv := by
  obtain ⟨rounds, rfl⟩ := hsv
  omega

/-! ### One task -/

section Task

variable [CommRing R] {a : GdnStepArgs R} {shard : ℕ → ℕ → R} {task : ℕ} {S : ℕ → R}

/-- The correction of a column `S`. -/
def GdnStepArgs.deltaAt (a : GdnStepArgs R) (sv task : ℕ) (S : ℕ → R) : R :=
  (a.v task - a.g (taskHead sv task) *
    ∑ i ∈ Finset.range sv, S i * a.k (taskHead sv task % a.nKHeads * sv + i)) *
      a.beta (taskHead sv task)

/-- Element `i` of a column `S` after the step. -/
def GdnStepArgs.stepAt (a : GdnStepArgs R) (sv task : ℕ) (S : ℕ → R) (i : ℕ) : R :=
  a.g (taskHead sv task) * S i +
    a.k (taskHead sv task % a.nKHeads * sv + i) * a.deltaAt sv task S

/-- The output of a column `S`. -/
def GdnStepArgs.outAt (a : GdnStepArgs R) (sv task : ℕ) (S : ℕ → R) : R :=
  (∑ i ∈ Finset.range sv,
    a.stepAt sv task S i * a.q (taskHead sv task % a.nKHeads * sv + i)) * a.scale

/-- The column of a task. -/
def column (sv : ℕ) (m : GdnCell → R) (task i : ℕ) : R := m (.state (task * sv + i))

/-- The lanes hold the rows of a column. -/
def Holds (sv : ℕ) (shard : ℕ → ℕ → R) (S : ℕ → R) : Prop :=
  ∀ lane < 32, ∀ r < sv / 32, shard lane r = S (r * 32 + lane)

/-- What the lanes add up over their rows is the sum over the column. -/
theorem laneSum_column (hsv : 32 ∣ sv) {x : ℕ → ℕ → R} {f : ℕ → R}
    (hx : ∀ lane < 32, ∀ r < sv / 32, x lane r = f (r * 32 + lane)) {lane : ℕ} (hlane : lane < 32) :
    laneSum (fun lane => (range (sv / 32)).foldl (fun acc r => acc + x lane r) 0) lane =
      ∑ i ∈ Finset.range sv, f i := by
  have hsum := laneSum_rounds (sv / 32) f hlane
  rw [Nat.div_mul_cancel hsv] at hsum
  rw [← hsum, laneSum, butterfly_add _ hlane, laneSum, butterfly_add _ hlane]
  refine Finset.sum_congr rfl fun l hl => List.foldl_ext _ _ _ fun acc r hr => ?_
  rw [hx l (Finset.mem_range.mp hl) r (mem_range.mp hr)]

theorem deltaCol_eq (hsv : 32 ∣ sv) (h : Holds sv shard S) {lane : ℕ} (hlane : lane < 32) :
    a.deltaCol sv shard task lane = a.deltaAt sv task S := by
  have hkv : laneSum (a.kvShard sv shard task) lane =
      ∑ i ∈ Finset.range sv, S i * a.k (taskHead sv task % a.nKHeads * sv + i) :=
    laneSum_column hsv (fun l hl r hr => by rw [h l hl r hr]; rfl) hlane
  rw [GdnStepArgs.deltaCol, hkv, head_add_col, GdnStepArgs.deltaAt]

theorem newShard_eq (hsv : 32 ∣ sv) (h : Holds sv shard S) {lane r : ℕ} (hlane : lane < 32)
    (hr : r < sv / 32) : a.newShard sv shard task lane r = a.stepAt sv task S (r * 32 + lane) := by
  rw [GdnStepArgs.newShard, deltaCol_eq hsv h hlane, h lane hlane r hr]
  rfl

theorem attnCol_eq (hsv : 32 ∣ sv) (h : Holds sv shard S) {lane : ℕ} (hlane : lane < 32) :
    laneSum (a.attnPartial sv shard task) lane * a.scale = a.outAt sv task S := by
  have hsum : laneSum (a.attnPartial sv shard task) lane = ∑ i ∈ Finset.range sv,
      a.stepAt sv task S i * a.q (taskHead sv task % a.nKHeads * sv + i) :=
    laneSum_column hsv (fun l hl r hr => by rw [newShard_eq hsv h hl hr]; rfl) hlane
  rw [hsum, GdnStepArgs.outAt]

/-- **A task makes a step of the delta rule in its column.** The two sums over the lanes are the
products of the column with the key and with the query. -/
theorem stepAt_eq (a : GdnStepArgs R) (m : GdnCell → R) (h : ℕ) (col i : Fin sv) :
    a.stepAt sv (h * sv + col) (column sv m (h * sv + col)) i =
      DeltaRule.step (headState sv (m ∘ .state) h) (a.token sv h) i col := by
  rw [DeltaRule.step_apply, DeltaRule.delta_apply, GdnStepArgs.stepAt, GdnStepArgs.deltaAt,
    Finset.sum_range, taskHead_mul_add h col.isLt]
  rfl

theorem outAt_eq (a : GdnStepArgs R) (m : GdnCell → R) (h : ℕ) (col : Fin sv) :
    a.outAt sv (h * sv + col) (column sv m (h * sv + col)) =
      DeltaRule.out (headState sv (m ∘ .state) h) (a.token sv h) a.scale col := by
  rw [DeltaRule.out_apply, GdnStepArgs.outAt, Finset.sum_range]
  refine congrArg (· * a.scale) (Finset.sum_congr rfl fun i _ => ?_)
  rw [stepAt_eq, taskHead_mul_add h col.isLt]
  rfl

end Task

/-! ### Any order -/

/-- What a task reads and writes: its column, and its element of the output. Different tasks have
different columns, which is why they do not meet. -/
def taskFootprint (sv task : ℕ) : Footprint GdnCell where
  reads := {c | ∃ i < sv, c = .state (task * sv + i)}
  writes := {c | (∃ i < sv, c = .state (task * sv + i)) ∨ c = .attn task}

theorem indep_taskFootprint : Pairwise fun task task' =>
    (taskFootprint sv task).Indep (taskFootprint sv task') := by
  have hstate {task task' i j : ℕ} (hne : task ≠ task') (hi : i < sv) (hj : j < sv) :
      GdnCell.state (task * sv + i) ≠ .state (task' * sv + j) := fun heq => by
    have hhead := congrArg (taskHead sv) (GdnCell.state.inj heq)
    rw [taskHead_mul_add task hi, taskHead_mul_add task' hj] at hhead
    exact hne hhead
  have hdisj {task task' : ℕ} (hne : task ≠ task') :
      Disjoint (taskFootprint sv task).writes (taskFootprint sv task').touches := by
    rw [Set.disjoint_left]
    rintro c (⟨i, hi, rfl⟩ | rfl) (⟨j, hj, heq⟩ | ⟨j, hj, heq⟩ | heq)
    · exact hstate hne hi hj heq
    · exact hstate hne hi hj heq
    · cases heq
    · cases heq
    · cases heq
    · exact hne (GdnCell.attn.inj heq)
  exact fun task task' hne => ⟨hdisj hne, hdisj hne.symm⟩

/-- The registers of the lanes hold some column. -/
theorem holds_registers (sv : ℕ) (reg : ℕ → ℕ → R) :
    Holds sv reg fun i => reg (i % 32) (i / 32) := by
  intro lane hlane r _
  have hmod : (r * 32 + lane) % 32 = lane := by omega
  have hdiv : (r * 32 + lane) / 32 = r := by omega
  dsimp only
  rw [hmod, hdiv]

section Work

variable [CommRing R] {a : GdnStepArgs R} {I : Launch} {τ : List Ev}

/-- The results of the loads of a task are the rows of its column. -/
theorem holds_results (sv : ℕ) (a : GdnStepArgs R) (m : GdnCell → R) (task : ℕ) :
    Holds sv ((gdnWork sv a).results m task) (column sv m task) := by
  intro lane _ r hr
  rw [Work.results, gdnWork, column, ← taskOff_eq]
  exact if_pos hr

theorem independent_gdnWork (hsv : 32 ∣ sv) (a : GdnStepArgs R) :
    (gdnWork sv a).Independent (taskFootprint sv) where
  indep := indep_taskFootprint
  reads task lane hlane m m' heq := by
    funext r
    simp only [gdnWork, taskOff_eq]
    exact ite_congr rfl (fun hr => heq ⟨_, row_lt hsv hlane hr, rfl⟩) fun _ => rfl
  writes task lane hlane reg w hw := by
    obtain hstate | hattn := mem_append.mp hw
    · obtain ⟨r, hr, rfl⟩ := mem_map.mp hstate
      rw [taskOff_eq]
      exact .inl ⟨_, row_lt hsv hlane (mem_range.mp hr), rfl⟩
    · split at hattn
      · rw [mem_singleton.mp hattn, head_add_col]
        exact .inr rfl
      · cases hattn
  regs task lane hlane reg reg' heq := by
    have hcolumn : (fun i => reg (i % 32) (i / 32)) = fun i => reg' (i % 32) (i / 32) :=
      funext fun i => congrFun (heq _ (Nat.mod_lt i (by decide : 0 < 32))) _
    have hreg' := holds_registers sv reg'
    rw [← hcolumn] at hreg'
    simp only [gdnWork]
    rw [attnCol_eq hsv (holds_registers sv reg) hlane, attnCol_eq hsv hreg' hlane]
    refine congrArg (· ++ _) (map_congr_left fun r hr => ?_)
    rw [newShard_eq hsv (holds_registers sv reg) hlane (mem_range.mp hr),
      newShard_eq hsv hreg' hlane (mem_range.mp hr)]

/-- What the tasks write, by its place. -/
def newCell (sv : ℕ) (a : GdnStepArgs R) (m : GdnCell → R) : GdnCell → R
  | .state i => a.stepAt sv (i / sv) (column sv m (i / sv)) (i % sv)
  | .attn task => a.outAt sv task (column sv m task)

theorem newCell_state {task i : ℕ} (hi : i < sv) (m : GdnCell → R) :
    newCell sv a m (.state (task * sv + i)) = a.stepAt sv task (column sv m task) i := by
  have hdiv : (task * sv + i) / sv = task := taskHead_mul_add task hi
  rw [newCell, hdiv, Nat.mul_comm, Nat.mul_add_mod, Nat.mod_eq_of_lt hi]

theorem gdnWork_write (hsv : 32 ∣ sv) (m : GdnCell → R) {task lane : ℕ} (hlane : lane < 32) :
    ∀ w ∈ (gdnWork sv a).write task lane ((gdnWork sv a).results m task), w.2 =
      newCell sv a m w.1 := by
  have hholds := holds_results sv a m task
  intro w hw
  obtain hstate | hattn := mem_append.mp hw
  · obtain ⟨r, hr, rfl⟩ := mem_map.mp hstate
    rw [mem_range] at hr
    rw [newShard_eq hsv hholds hlane hr, taskOff_eq, newCell_state (row_lt hsv hlane hr)]
  · split at hattn
    · rw [mem_singleton.mp hattn, attnCol_eq hsv hholds hlane, head_add_col]
      rfl
    · cases hattn

/-! ### A step -/

/-- What a step in place is to do: every read yields what was there at the beginning, every head
makes a step of the delta rule, and nothing else changes. -/
structure Stepped (sv : ℕ) (a : GdnStepArgs R) (τ : List Ev) (s : State GdnCell R (ℕ → R)) :
    Prop where
  reads : ∀ pre, pre <+: τ → ∀ task lane, .load task lane ∈ pre → ∀ r < sv / 32,
    ((gdnWork sv a).run s pre).reg task lane r = s.mem (.state (taskOff sv task + (r * 32 + lane)))
  state : ∀ h < a.nHeads, headState sv (((gdnWork sv a).run s τ).mem ∘ .state) h =
    DeltaRule.step (headState sv (s.mem ∘ .state) h) (a.token sv h)
  attn : ∀ h < a.nHeads, ∀ col : Fin sv, ((gdnWork sv a).run s τ).mem (.attn (h * sv + col)) =
    DeltaRule.out (headState sv (s.mem ∘ .state) h) (a.token sv h) a.scale col
  rest : ∀ i, a.nHeads * sv * sv ≤ i → ((gdnWork sv a).run s τ).mem (.state i) = s.mem (.state i)
  attnRest : ∀ t, a.nHeads * sv ≤ t → ((gdnWork sv a).run s τ).mem (.attn t) = s.mem (.attn t)

/-- **A step in place, in any order.** -/
theorem gdnWork_stepped (hsv : 32 ∣ sv) (h : (gdnWork sv a).Ordered (launchTasks sv a I) τ)
    (s : State GdnCell R (ℕ → R)) : Stepped sv a τ s := by
  have hts : (launchTasks sv a I).Nodup := (launchTasks_perm sv a I).nodup_iff.mpr nodup_range
  have hW := independent_gdnWork hsv a
  obtain ⟨hdone, hrest⟩ := h.mem_eq hts hW s (g := newCell sv a s.mem) fun task _ lane hlane =>
    gdnWork_write hsv s.mem hlane
  have hstate {task i : ℕ} (htask : task < a.nHeads * sv) (hi : i < sv) :
      ((gdnWork sv a).run s τ).mem (.state (task * sv + i)) =
        a.stepAt sv task (column sv s.mem task) i := by
    have hrow : i / 32 * 32 + i % 32 = i := Nat.div_add_mod' i 32
    have hmem := hdone task (mem_launchTasks.mpr htask) (i % 32) (Nat.mod_lt i (by decide))
      (.state (taskOff sv task + (i / 32 * 32 + i % 32)), _)
      (mem_append_left _ (mem_map_of_mem
        (mem_range.mpr (Nat.div_lt_div_of_lt_of_dvd hsv hi))))
    rwa [hrow, taskOff_eq, newCell_state hi] at hmem
  have hattn {task : ℕ} (htask : task < a.nHeads * sv) :
      ((gdnWork sv a).run s τ).mem (.attn task) = a.outAt sv task (column sv s.mem task) := by
    have hmem := hdone task (mem_launchTasks.mpr htask) 0 (by decide : 0 < 32)
      (.attn (taskHead sv task * sv + taskCol sv task), _)
      (mem_append_right _ (mem_singleton_self _))
    rwa [head_add_col] at hmem
  refine ⟨?_, fun head hhead => ?_, fun head hhead col => ?_, fun i hi => ?_, fun t ht => ?_⟩
  · intro pre hpre task lane hmem r hr
    rw [h.reads hts hW s hpre hmem]
    exact if_pos hr
  · funext i col
    rw [← stepAt_eq]
    exact hstate (task_lt hhead col.isLt) i.isLt
  · rw [← outAt_eq]
    exact hattn (task_lt hhead col.isLt)
  · refine hrest _ fun task htask => ?_
    rintro (⟨j, hj, heq⟩ | heq)
    · have hlt := task_lt (mem_launchTasks.mp htask) hj
      rw [← GdnCell.state.inj heq] at hlt
      omega
    · cases heq
  · refine hrest _ fun task htask => ?_
    rintro (⟨j, hj, heq⟩ | heq)
    · cases heq
    · have hlt := mem_launchTasks.mp htask
      rw [← GdnCell.attn.inj heq] at hlt
      omega

end Work

/-! ## Passes -/

/-- A DeltaNet layer as it is scheduled: its shape, the row and the addresses of its state, and the
block ranges of its instructions. -/
structure GdnLayer : Type where
  sv : ℕ
  nHeads : ℕ
  rsRow : ℕ → ℕ
  cacheAddr : ℕ
  bufAddr : ℕ
  loadOn : Launch
  stepOn : Launch
  storeOn : Launch

namespace GdnLayer

variable [CommRing R] (L : GdnLayer)

/-- The number of elements of the state. -/
def elems : ℕ := L.nHeads * L.sv * L.sv

/-- OP_STATE_LOAD of the layer. -/
def loads (cache : ℕ → R) (block thread : ℕ) : List (ℕ × R) :=
  opStateLoad L.loadOn (packStateRow L.cacheAddr L.bufAddr L.rsRow L.elems) cache block thread

/-- OP_STATE_STORE of the layer. -/
def stores (buf : ℕ → R) (block thread : ℕ) : List (ℕ × R) :=
  opStateStore L.storeOn (packStateRow L.bufAddr L.cacheAddr L.rsRow L.elems) buf block thread

/-- The cached state of a head. -/
def cached (cache : ℕ → R) (h : ℕ) : Matrix (Fin L.sv) (Fin L.sv) R :=
  headState L.sv (fun i => cache (L.rsRow 0 * L.elems + i)) h

/-- Passes with the inputs `as`: each loads the row into a working buffer, which other layers have
used in the meantime, makes a step there, and stores the buffer in the row. The threads of a load or
a store and the warps of a step may work in any order. -/
inductive Passes : List (GdnStepArgs R) → (ℕ → R) → (ℕ → R) → Prop where
  | nil (cache : ℕ → R) : Passes [] cache cache
  | snoc {as : List (GdnStepArgs R)} {cache cache' : ℕ → R} (hpasses : Passes as cache cache')
      {a : GdnStepArgs R} (hheads : a.nHeads = L.nHeads) (buf : ℕ → R) {ls ss : List (ℕ × R)}
      (hloads : ls.Perm (L.loadOn.grid.flatMap fun w => L.loads cache' w.1 w.2))
      {s : State GdnCell R (ℕ → R)} (hbuf : s.mem ∘ .state = store ls buf) {τ : List Ev}
      (hstep : (gdnWork L.sv a).Ordered (launchTasks L.sv a L.stepOn) τ)
      (hstores : ss.Perm (L.storeOn.grid.flatMap fun w =>
        L.stores (((gdnWork L.sv a).run s τ).mem ∘ .state) w.1 w.2)) :
      Passes (as ++ [a]) cache (store ss cache')

variable {L}

/-- **The cached state is the left fold of the steps.** -/
theorem Passes.cached_eq (hsv : 32 ∣ L.sv) {as : List (GdnStepArgs R)} {cache cache' : ℕ → R}
    (hpasses : L.Passes as cache cache') {h : ℕ} (hh : h < L.nHeads) :
    L.cached cache' h = DeltaRule.run (L.cached cache h) (as.map fun a => a.token L.sv h) := by
  induction hpasses with
  | nil cache => rfl
  | @snoc as cache cache' hpasses a hheads buf ls ss hloads s hbuf τ hstep hstores ih =>
    rw [map_append, map_singleton, DeltaRule.run_concat, ← ih]
    have hstepped := (gdnWork_stepped hsv hstep s).state h (by rwa [hheads])
    have hin : headState L.sv (s.mem ∘ .state) h = L.cached cache' h := by
      funext i col
      rw [hbuf, cached, headState, headState, store_opStateLoad hloads]
      exact if_pos (task_lt (task_lt hh col.isLt) i.isLt)
    have hout : L.cached (store ss cache') h =
        headState L.sv (((gdnWork L.sv a).run s τ).mem ∘ .state) h := by
      funext i col
      rw [cached, headState, headState, store_opStateStore hstores]
      have hlt : (h * L.sv + col) * L.sv + i < L.elems := task_lt (task_lt hh col.isLt) i.isLt
      dsimp only
      rw [if_pos ⟨Nat.le_add_right _ _, Nat.add_lt_add_left hlt _⟩, Nat.add_sub_cancel_left]
    rw [hout, hstepped, hin]

end GdnLayer

/-- **The delta-rule step in place.** In whatever order the warps of a launch work, each column of
each head is worked for once, every head makes a step of the delta rule, and every read yields what
the column was before; and over any number of passes the cached state is the left fold of the
steps. -/
theorem gdn_step_in_place [CommRing R] (hsv : 32 ∣ sv) :
    (∀ (a : GdnStepArgs R) (I : Launch),
      ((launchTasks sv a I).map fun task => (taskHead sv task, taskCol sv task)).Perm
        (range a.nHeads ×ˢ range sv) ∧
      ∀ τ, (gdnWork sv a).Ordered (launchTasks sv a I) τ → ∀ s, Stepped sv a τ s) ∧
    ∀ L : GdnLayer, L.sv = sv → ∀ (as : List (GdnStepArgs R)) (cache cache' : ℕ → R),
      L.Passes as cache cache' → ∀ h < L.nHeads,
        L.cached cache' h = DeltaRule.run (L.cached cache h) (as.map fun a => a.token L.sv h) := by
  refine ⟨fun a I => ⟨heads_perm a I, fun τ h s => gdnWork_stepped hsv h s⟩, ?_⟩
  rintro L rfl as cache cache' hpasses h hh
  exact hpasses.cached_eq hsv hh

/-- Two heads of 128 elements, which share their keys and queries. -/
def sharedHead : GdnStepArgs ℤ where
  q i := i + 1
  k i := 2 * i - 5
  v i := 3 - i
  g h := h + 2
  beta h := 1 - 3 * h
  nHeads := 2
  nKHeads := 1
  scale := 3

/-- The blocks 3 and 4, of twelve warps each. -/
def warpsOfTwoBlocks : Launch := ⟨3, 5, 12, by decide, by decide⟩

/-- A step of both heads, from states that are not zero: every warp has read its columns before the
last one is the first to write. -/
theorem gdn_step_in_place_twoHeads : Stepped 128 sharedHead
    ((launchTasks 128 sharedHead warpsOfTwoBlocks).flatMap
        (fun task => (range (gdnWork 128 sharedHead).loads).map (Ev.load task)) ++
      (launchTasks 128 sharedHead warpsOfTwoBlocks).reverse.flatMap
        fun task => (range (gdnWork 128 sharedHead).stores).map (Ev.store task))
    ⟨fun | .state i => i % 7 | .attn _ => 0, fun _ _ _ => 0⟩ :=
  ((gdn_step_in_place (by decide)).1 sharedHead warpsOfTwoBlocks).2 _
    (Work.ordered_loadsFirst _ _) _

end Megakernel
