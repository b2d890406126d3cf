import Megakernel.Split

/-!
# The exchange ops (`op_xchg_push`, `op_xchg_reduce`)

One GPU of the pair, with the data the exchange works on: `proj_out`, the seqno
field of each instruction in `d_program`, the local variables of the ops and the
mailbox this GPU writes, which lies in the memory of the peer
(`gpu_wire_mailboxes`). The control state is the `Gpu` of `Interp`; every data
step is an internal step of the op the block is inside of.

Loads of the inbox are strong. They are labels of the step here, and `Dual`
ties the labels to the peer's stores. Loads of `proj_out` and of the seqno field
are plain: with `stale` set, a plain load may return anything the block has
loaded from that address before (the semantics stated in `core/sync.cuh`),
without it a plain load returns the current value.

What the host owes the GPU is the guard of its steps: it patches `d_program` only
while no pass is in flight, and rings only when every reduce carries the number
of the new pass.

The elements of an op are handled in any order and by the threads that the kernel assigns them to
(`pushRank`, `foldRank`); that every element has one owner is `exists_owner` and `owns_unique`. What
a step may do is its guard, what it does is its effect, and the interpreter sees an internal step of
an op.
-/

namespace Megakernel

/-- The mailbox cells one GPU writes: a payload and a seqno for each site. They lie in the memory of
the peer, who only reads them. -/
structure Mail (V : Type*) where
  payload : ℕ → ℕ → V
  seqno : ℕ → U32

/-- The local state of a block inside an op: the arguments it has copied from the instruction, which
elements its threads have handled, and for a reduce whether it has published and whether its poll
has ended. -/
structure OpLocal : Type where
  /-- `a.seqno`, once the arguments are copied out of the instruction -/
  args : Option U32
  /-- the elected thread has stored the seqno -/
  published : Bool
  /-- the poll of the inbox has ended -/
  acquired : Bool
  /-- the elements this block is done with -/
  elems : List ℕ
  deriving DecidableEq

/-- At the entry of an op. -/
def OpLocal.fresh : OpLocal := ⟨none, false, false, []⟩

/-- One GPU of the pair: the control state of the interpreter, and the data that the exchange
touches. What each block has loaded before is kept as well, since a plain load may return it again.
-/
structure XGpu (n : ℕ) (V : Type*) where
  /-- control cells and blocks -/
  ctl : Gpu n
  /-- `proj_out` -/
  projOut : ℕ → V
  /-- the seqno field of each instruction in `d_program` -/
  seqno : ℕ → U32
  /-- the local state of each block's op -/
  loc : Fin n → OpLocal
  /-- the inbox of the peer -/
  mail : Mail V
  /-- what each block has loaded from `proj_out` with plain loads -/
  seenOut : Fin n → ℕ → List V
  /-- what each block has loaded from the seqno fields with plain loads -/
  seenSeqno : Fin n → ℕ → List U32

/-- The steps of a block. -/
inductive XAct (V : Type*) where
  /-- a step of the interpreter -/
  | ctl (a : Act)
  /-- the contract GEMV stores element `e` -/
  | gemv (i e : ℕ) (v : V)
  /-- OP_XCHG_PUSH loads `v` from `local_partial[e]` and stores it to the peer -/
  | push (i e : ℕ) (v : V)
  /-- OP_XCHG_REDUCE copies its arguments, among them the seqno `q` -/
  | args (i : ℕ) (q : U32)
  /-- the elected thread stores the seqno `q` to the peer -/
  | publish (i : ℕ) (q : U32)
  /-- the poll for `q` loads `v`, and goes on -/
  | wait (i : ℕ) (q v : U32)
  /-- the poll for `q` loads `v`, and ends -/
  | acquire (i : ℕ) (q v : U32)
  /-- the fold of element `e`: `v` from `local_partial`, `w` from the inbox -/
  | fold (i e : ℕ) (v w : V)
  deriving DecidableEq

/-- What a step is for the interpreter. -/
def XAct.act {V : Type*} : XAct V → Act
  | .ctl a => a
  | .gemv i _ _ | .push i _ _ | .args i _ | .publish i _ | .wait i _ _ | .acquire i _ _
  | .fold i _ _ _ => .tick i

/-- What a step does to the local state of its block. -/
def XAct.mark {V : Type*} : XAct V → OpLocal → OpLocal
  | .ctl (.begin _), _ => .fresh
  | .ctl _, l | .wait _ _ _, l => l
  | .gemv _ e _, l | .push _ e _, l | .fold _ e _ _, l => { l with elems := e :: l.elems }
  | .args _ q, l => { l with args := some q }
  | .publish _ _, l => { l with published := true }
  | .acquire _ _ _, l => { l with acquired := true }

/-- The events of one GPU of the pair. -/
inductive XEv (n : ℕ) (V : Type*) where
  | blk (b : Fin n) (x : XAct V)
  | ring
  | token (t : U32)
  /-- the host stores `q` to the seqno field of instruction `i` -/
  | patch (i : ℕ) (q : U32)
  deriving DecidableEq

/-- The event of the open GPU behind an event. -/
def XEv.ctl {n : ℕ} {V : Type*} : XEv n V → Option (Ev n)
  | .blk b x => some (.blk b x.act)
  | .ring => some .ring
  | .token t => some (.token t)
  | .patch _ _ => none

variable {V : Type*} {n N : ℕ}

/-- The control part of a history. -/
def ctlOf (τ : List (XEv n V)) : List (Ev n) := τ.filterMap XEv.ctl

/-! ## Who does what -/

/-- The block whose thread copies element `e` in `op_xchg_push`, counted from `block_lo`: float4s in
linear order, then the scalar tail. The reduce walks its elements one by one instead (`foldRank`),
so that the same element is pushed and folded by different blocks. -/
def pushRank (T lanes nElems e : ℕ) : ℕ :=
  let n4 := nElems / 4
  (if e < n4 * 4 then e / 4 % (lanes * T) else (e - n4 * 4) % (lanes * T)) / T

/-- The block whose thread folds element `e` in `op_xchg_reduce`. -/
def foldRank (T lanes e : ℕ) : ℕ := e % (lanes * T) / T

/-- `(a.gpu_index == 0) ? (mine + peer) : (peer + mine)`: both GPUs add the partial of GPU 0 first,
so that the sums agree where addition does not commute, as that of floats with their rounding and
signs. -/
def foldOrder [Add V] (gpuIndex : Fin 2) (mine peer : V) : V :=
  if gpuIndex = 0 then mine + peer else peer + mine

/-- A plain load of a cell that holds `cur`, by a block that has seen the values `seen` there. With
`stale` it may return any of them, since nothing forces the SM to look at memory again. -/
def plainLoad [DecidableEq V] (stale : Bool) (cur : V) (seen : List V) (v : V) : Bool :=
  decide (v = cur) || stale && decide (v ∈ seen)

/-- `site` of instruction `i`. -/
def siteAt (prog : List (Instr XArgs)) (i : ℕ) : ℕ :=
  match prog[i]? with
  | some ins => ins.payload.site
  | none => 0

/-- `rank == 0` -/
def elected (prog : List (Instr XArgs)) (b i : ℕ) : Bool :=
  match prog[i]? with
  | some ins => decide (b = ins.blockLo)
  | none => false

/-- The reduces, whose seqno the host patches (`xchg_idx`) before every pass. -/
def xchgIdx (prog : List (Instr XArgs)) : List ℕ :=
  (List.range prog.length).filter fun i => decide (roleAt prog i = .reduce (siteAt prog i))

namespace SplitProgram

variable (P : SplitProgram n N)

/-- Block `b` handles element `e` in the exchange op or contract GEMV at `i`, when a block has
`T` threads. -/
def owns (T b i e : ℕ) : Bool :=
  match P.prog[i]? with
  | none => false
  | some ins =>
    match ins.role with
    | .work => false
    | .gemv _ => decide (P.rows i e = b)
    | .push _ => decide (b = ins.blockLo + pushRank T (ins.blockHi - ins.blockLo) N e)
    | .reduce _ => decide (b = ins.blockLo + foldRank T (ins.blockHi - ins.blockLo) e)

/-- An element has one owner. -/
theorem owns_unique {T b b' i e : ℕ} (h : P.owns T b i e = true) (h' : P.owns T b' i e = true) :
    b = b' := by
  rw [owns] at h h'
  rcases hi : P.prog[i]? with _ | ins
  · rw [hi] at h
    cases h
  · rw [hi] at h h'
    rcases hr : ins.role with _ | s | s | s <;> simp only [hr, decide_eq_true_eq] at h h'
    · cases h
    · exact h.symm.trans h'
    · exact h.trans h'.symm
    · exact h.trans h'.symm

theorem rank_lt (T x : ℕ) {lanes : ℕ} (h : 0 < lanes) : x % (lanes * T) / T < lanes := by
  rcases Nat.eq_zero_or_pos T with rfl | hT
  · simpa using h
  · rw [Nat.div_lt_iff_lt_mul hT]
    exact Nat.mod_lt _ (Nat.mul_pos h hT)

/-- In a push and in a reduce every element has an owner. -/
theorem exists_owner (T e : ℕ) (hn : 0 < n) {i : ℕ} (h : (roleAt P.prog i).isXchg = true) :
    ∃ b : Fin n, P.owns T b i e = true := by
  have hne : roleAt P.prog i ≠ .work := fun hw => by rw [hw] at h; cases h
  obtain ⟨ins, hi, -, hr⟩ := P.exists_of_role hne
  obtain ⟨hlo, hhi⟩ := P.grid ins (List.mem_of_getElem? hi) (hr ▸ h)
  rw [← hr] at h
  rcases hrole : ins.role with _ | s | s | s <;> rw [hrole] at h
  · cases h
  · cases h
  · have hlt : pushRank T n N e < n := by
      rw [pushRank]
      split <;> exact rank_lt T _ hn
    refine ⟨⟨_, hlt⟩, ?_⟩
    simp [owns, hi, hrole, hlo, hhi]
  · refine ⟨⟨_, rank_lt T e hn⟩, ?_⟩
    simp [owns, hi, hrole, hlo, hhi, foldRank]

/-- The site of a role is the site of the instruction. -/
theorem role_cases {i : ℕ} (h : roleAt P.prog i ≠ .work) :
    roleAt P.prog i = .gemv (siteAt P.prog i) ∨ roleAt P.prog i = .push (siteAt P.prog i) ∨
      roleAt P.prog i = .reduce (siteAt P.prog i) := by
  obtain ⟨ins, hi, -, hr⟩ := P.exists_of_role h
  rw [← hr] at h ⊢
  rw [Instr.role] at h ⊢
  rw [siteAt, hi]
  simp only
  split
  · exact Or.inr (Or.inl rfl)
  · split
    · exact Or.inr (Or.inr rfl)
    · split
      · exact Or.inl rfl
      · simp_all

theorem siteAt_eq {i s : ℕ} (h : roleAt P.prog i = .push s ∨ roleAt P.prog i = .reduce s) :
    siteAt P.prog i = s := by
  have hne : roleAt P.prog i ≠ .work := by rcases h with h | h <;> rw [h] <;> nofun
  rcases P.role_cases hne with hr | hr | hr <;> rcases h with h | h <;> rw [hr] at h <;> cases h
  · rfl
  · rfl

/-- Only instructions with a role have owners. -/
theorem role_ne_of_owns {T b i e : ℕ} (h : P.owns T b i e = true) : roleAt P.prog i ≠ .work := by
  intro hw
  rw [owns] at h
  rw [roleAt] at hw
  rcases hi : P.prog[i]? with _ | ins
  · rw [hi] at h
    cases h
  · rw [hi] at h hw
    simp only [show ins.role = .work from hw] at h
    cases h

theorem mem_xchgIdx {i s : ℕ} (h : roleAt P.prog i = .reduce s) : i ∈ xchgIdx P.prog := by
  refine List.mem_filter.mpr ⟨List.mem_range.mpr (P.lt_length (by rw [h]; nofun)), ?_⟩
  rw [P.siteAt_eq (Or.inr h), h]
  exact decide_eq_true rfl

/-- The elected block of a reduce is block 0. -/
theorem elected_iff {i s : ℕ} (h : roleAt P.prog i = .reduce s) (b : ℕ) :
    elected P.prog b i = true ↔ b = 0 := by
  have hne : roleAt P.prog i ≠ .work := by rw [h]; nofun
  obtain ⟨ins, hi, -, hr⟩ := P.exists_of_role hne
  obtain ⟨hlo, -⟩ := P.grid ins (List.mem_of_getElem? hi) (by rw [hr, h]; rfl)
  simp [elected, hi, hlo]

end SplitProgram

/-! ## The steps -/

section Step

variable [DecidableEq V] (P : SplitProgram n N) (T : ℕ) (stale : Bool)

/-- When a block can take a step, beyond what the interpreter asks for. An op returns when it has
handled all its elements, a reduce not before its poll has ended; within an op the elements come in
any order. -/
def XAct.guard (s : XGpu n V) (b : Fin n) : XAct V → Bool
  | .ctl (.finish i) =>
    decide ((∀ e < N, P.owns T b i e = true → e ∈ (s.loc b).elems) ∧
      (roleAt P.prog i = .reduce (siteAt P.prog i) → (s.loc b).acquired = true))
  | .ctl _ => true
  | .gemv i e _ =>
    decide (roleAt P.prog i = .gemv (siteAt P.prog i) ∧ e < N ∧ P.owns T b i e = true ∧
      e ∉ (s.loc b).elems)
  | .push i e v =>
    decide (roleAt P.prog i = .push (siteAt P.prog i) ∧ e < N ∧ P.owns T b i e = true ∧
      e ∉ (s.loc b).elems ∧ plainLoad stale (s.projOut e) (s.seenOut b e) v = true)
  | .args i q =>
    decide (roleAt P.prog i = .reduce (siteAt P.prog i) ∧ (s.loc b).args = none ∧
      plainLoad stale (s.seqno i) (s.seenSeqno b i) q = true)
  | .publish i q =>
    decide (roleAt P.prog i = .reduce (siteAt P.prog i) ∧ elected P.prog b i = true ∧
      (s.loc b).args = some q ∧ (s.loc b).published = false)
  | .wait i q v =>
    decide (roleAt P.prog i = .reduce (siteAt P.prog i) ∧
      (elected P.prog b i = true → (s.loc b).published = true) ∧
      (s.loc b).args = some q ∧ (s.loc b).acquired = false ∧ Wrap.behind v q = true)
  | .acquire i q v =>
    decide (roleAt P.prog i = .reduce (siteAt P.prog i) ∧
      (elected P.prog b i = true → (s.loc b).published = true) ∧
      (s.loc b).args = some q ∧ (s.loc b).acquired = false ∧ Wrap.behind v q = false)
  | .fold i e v _ =>
    decide (roleAt P.prog i = .reduce (siteAt P.prog i) ∧ (s.loc b).acquired = true ∧ e < N ∧
      P.owns T b i e = true ∧ e ∉ (s.loc b).elems ∧
      plainLoad stale (s.projOut e) (s.seenOut b e) v = true)

/-- What a step does to the cells. -/
def XAct.effect [Add V] (prog : List (Instr XArgs)) (gpuIndex : Fin 2) (s : XGpu n V) (b : Fin n) :
    XAct V → XGpu n V
  | .gemv _ e v => { s with projOut := Function.update s.projOut e v }
  | .push i e v =>
    { s with
      mail := { s.mail with
        payload := Function.update s.mail.payload (siteAt prog i)
          (Function.update (s.mail.payload (siteAt prog i)) e v) }
      seenOut := Function.update s.seenOut b
        (Function.update (s.seenOut b) e (v :: s.seenOut b e)) }
  | .args i q =>
    { s with
      seenSeqno := Function.update s.seenSeqno b
        (Function.update (s.seenSeqno b) i (q :: s.seenSeqno b i)) }
  | .publish i q =>
    { s with mail := { s.mail with seqno := Function.update s.mail.seqno (siteAt prog i) q } }
  | .fold _ e v w =>
    { s with
      projOut := Function.update s.projOut e (foldOrder gpuIndex v w)
      seenOut := Function.update s.seenOut b
        (Function.update (s.seenOut b) e (v :: s.seenOut b e)) }
  | .ctl _ | .wait _ _ _ | .acquire _ _ _ => s

/-- Every reduce carries the number of the pass that is rung next. Ringing presupposes it, and the
host of the pair has to establish it by its patches (`run_dualOk`). -/
def XGpu.Armed (prog : List (Instr XArgs)) (s : XGpu n V) : Prop :=
  ∀ i ∈ xchgIdx prog, s.seqno i = s.ctl.cells.doorbellHost + 1

instance (prog : List (Instr XArgs)) (s : XGpu n V) : Decidable (s.Armed prog) :=
  inferInstanceAs (Decidable (∀ i ∈ xchgIdx prog, s.seqno i = s.ctl.cells.doorbellHost + 1))

namespace XGpu

/-- After `dual_setup`: everything is zeroed. -/
def zero [Zero V] (n : ℕ) : XGpu n V where
  ctl := .zero n
  projOut _ := 0
  seqno _ := 0
  loc _ := .fresh
  mail := ⟨fun _ _ => 0, fun _ => 0⟩
  seenOut _ _ := []
  seenSeqno _ _ := []

/-- One step of a GPU of the pair. -/
def step [Add V] (gpuIndex : Fin 2) (s : XGpu n V) : XEv n V → Option (XGpu n V)
  | .blk b x =>
    if x.guard P T stale s b = true then
      (s.ctl.step P.prog (.blk b x.act)).map fun c =>
        { x.effect P.prog gpuIndex s b with
          ctl := c
          loc := Function.update s.loc b (x.mark (s.loc b)) }
    else none
  | .ring =>
    if s.Armed P.prog then (s.ctl.step P.prog .ring).map fun c => { s with ctl := c } else none
  | .token t => (s.ctl.step P.prog (.token t)).map fun c => { s with ctl := c }
  | .patch i q =>
    if s.ctl.Quiet then some { s with seqno := Function.update s.seqno i q } else none

/-- One GPU of the pair as an open transition system. -/
def lts [Add V] [Zero V] (gpuIndex : Fin 2) : Lts (XGpu n V) (XEv n V) :=
  Lts.ofFun (zero n) (step P T stale gpuIndex)

variable {P T stale} [Add V] {gpuIndex : Fin 2} {s s' : XGpu n V}

theorem step_blk {b : Fin n} {x : XAct V} :
    step P T stale gpuIndex s (.blk b x) = some s' ↔
      x.guard P T stale s b = true ∧ ∃ c, s.ctl.step P.prog (.blk b x.act) = some c ∧
        s' = { x.effect P.prog gpuIndex s b with
          ctl := c
          loc := Function.update s.loc b (x.mark (s.loc b)) } := by
  simp only [step, Option.ite_none_right_eq_some, Option.map_eq_some_iff, eq_comm (a := s')]

theorem step_ring :
    step P T stale gpuIndex s .ring = some s' ↔
      s.Armed P.prog ∧ ∃ c, s.ctl.step P.prog .ring = some c ∧ s' = { s with ctl := c } := by
  simp only [step, Option.ite_none_right_eq_some, Option.map_eq_some_iff, eq_comm (a := s')]

theorem step_token {t : U32} :
    step P T stale gpuIndex s (.token t) = some s' ↔
      ∃ c, s.ctl.step P.prog (.token t) = some c ∧ s' = { s with ctl := c } := by
  simp [step, eq_comm]

theorem step_patch {i : ℕ} {q : U32} :
    step P T stale gpuIndex s (.patch i q) = some s' ↔
      s.ctl.Quiet ∧ s' = { s with seqno := Function.update s.seqno i q } := by
  simp [step, eq_comm]

/-- **The control part of a GPU of the pair is a GPU.** -/
theorem run_ctl [Zero V] {τ : List (XEv n V)} (h : (lts P T stale gpuIndex).Run τ s) :
    (Gpu.lts n P.prog).Run (ctlOf τ) s.ctl := by
  refine Lts.Run.project XGpu.ctl XEv.ctl ?_ ?_ h
  · rintro s rfl
    rfl
  · rintro τ s e s' - - hs
    cases e with
    | blk b x =>
      obtain ⟨-, c, hc, rfl⟩ := step_blk.mp hs
      exact hc
    | ring =>
      obtain ⟨-, c, hc, rfl⟩ := step_ring.mp hs
      exact hc
    | token t =>
      obtain ⟨c, hc, rfl⟩ := step_token.mp hs
      exact hc
    | patch i q =>
      obtain ⟨-, rfl⟩ := step_patch.mp hs
      rfl

end XGpu

end Step

end Megakernel
