import Megakernel.Sequential

/-!
# The parallel interpreter refines sequential execution

The interpreter of `Interp` together with the memory the ops work on. Every
block is inside its own instruction, so within a window the steps of different
blocks interleave freely; the boundaries keep windows apart.

The invariant (`Active`) describes the pass that is running: sequential execution
of everything before the current window has produced some memory `m₀`; in the
current window each block has walked part of its way in a private copy of `m₀`,
and the shared memory is the merge of the private ones. A block that has not yet
returned from the boundary before the window has not begun its walk. When the
first block returns from the boundary behind the window, everybody has arrived
there, so all walks are complete and the merge is what sequential execution
computes (`seqRun_of_solo`).

Everything about control is taken from the lockstep of the interpreter: which window a block is in,
who has arrived, and which pass is running. New is only what happens to the memory, and for that the
merge rule of `Interference` is used once for every step.
-/

namespace Megakernel

open Relation

variable {π α β L : Type*} {n : ℕ}

/-- A GPU with its memory. The local state of a block is that of the op it is inside of, and begins
anew with every op. -/
structure Par (n : ℕ) (α β L : Type*) : Type _ where
  gpu : Gpu n
  mem : α → β
  /-- the local state of a block inside an op -/
  loc : Fin n → L
  /-- the memory when the last pass was rung (for stating the result) -/
  base : α → β

/-- What a step of block `b` does to its local state and to the memory. Entering an op starts its
local state, a step inside is one of the op's own, and the block can return when the op has none
left. All other steps leave the memory alone. -/
def dataAct (sem : OpSem π α β L) (prog : List (Instr π)) (b : ℕ) (l : L) (m : α → β) :
    Act → Option (L × (α → β))
  | .begin i => (prog[i]?).map fun ins => (sem.init ins b, m)
  | .tick i => (prog[i]?).bind fun ins => sem.step ins b l m
  | .finish i =>
    (prog[i]?).bind fun ins => if (sem.step ins b l m).isNone then some (l, m) else none
  | _ => some (l, m)

namespace Par

variable (sem : OpSem π α β L) (prog : List (Instr π)) (tok : U32 → (α → β) → α → β)

/-- One step. `tok t` is the effect of the host's copy of token `t` on the memory. -/
def step (s : Par n α β L) : Ev n → Option (Par n α β L)
  | .blk b a =>
    (s.gpu.step prog (.blk b a)).bind fun g =>
      (dataAct sem prog b (s.loc b) s.mem a).map fun r =>
        { s with gpu := g, mem := r.2, loc := Function.update s.loc b r.1 }
  | .ring => (s.gpu.step prog .ring).map fun g => { s with gpu := g, base := s.mem }
  | .halt => (s.gpu.step prog .halt).map fun g => { s with gpu := g }
  | .token t => (s.gpu.step prog (.token t)).map fun g => { s with gpu := g, mem := tok t s.mem }

/-- The interpreter with data as a transition system, from any memory. -/
def lts (n : ℕ) : Lts (Par n α β L) (Ev n) where
  init s := s.gpu = Gpu.zero n
  step s e s' := step sem prog tok s e = some s'

variable {sem prog tok} {s s' : Par n α β L}

/-- A step of a block is a step of the interpreter with its effect on the memory. The control part
does not look at the memory, and the effect does not look at the control part of other blocks. -/
theorem step_blk {b : Fin n} {a : Act} : step sem prog tok s (.blk b a) = some s' ↔
    ∃ c k l m, BlockStep n prog b s.gpu.cells (s.gpu.block b) a c k ∧
      dataAct sem prog b (s.loc b) s.mem a = some (l, m) ∧
      s' = ⟨⟨c, Function.update s.gpu.block b k⟩, m, Function.update s.loc b l, s.base⟩ := by
  simp only [step, Option.bind_eq_some_iff, Option.map_eq_some_iff, Gpu.step_blk]
  refine ⟨?_, ?_⟩
  · rintro ⟨g, ⟨c, k, hs, rfl⟩, ⟨l, m⟩, hd, rfl⟩
    exact ⟨c, k, l, m, hs, hd, rfl⟩
  · rintro ⟨c, k, l, m, hs, hd, rfl⟩
    exact ⟨_, ⟨c, k, hs, rfl⟩, (l, m), hd, rfl⟩

/-- Forgetting the data, a step is a step of the GPU. -/
theorem gpu_step {e : Ev n} (h : step sem prog tok s e = some s') :
    s.gpu.step prog e = some s'.gpu := by
  cases e with
  | blk b a =>
    obtain ⟨c, k, l, m, hs, -, rfl⟩ := step_blk.mp h
    exact Gpu.step_blk.mpr ⟨c, k, hs, rfl⟩
  | ring | halt | token t =>
    rw [step] at h
    obtain ⟨g, hg, rfl⟩ := Option.map_eq_some_iff.mp h
    exact hg

/-- Runs with data are runs of the GPU with the same history. -/
theorem run_gpu {τ : List (Ev n)} (h : (lts sem prog tok n).Run τ s) :
    (Gpu.lts n prog).Run τ s.gpu := by
  induction h with
  | start hs => exact .start hs
  | snoc _ hs ih => exact ih.snoc (gpu_step hs)

end Par

/-! ## The invariant -/

variable {sem : OpSem π α β L} {prog : List (Instr π)} {tok : U32 → (α → β) → α → β}

/-- The walk `x` of a block in the window beginning at `lo` fits its place in the code: both are
before the same instruction, or inside the same op with the same local state. -/
def Tracks (prog : List (Instr π)) (lo : ℕ) (m₀ : α → β) (l : L) (x : Spot L × (α → β)) : Pc → Prop
  | .fetch i | .arrive i | .spin i => x.1 = .before i ∧ bnd prog i = bnd prog lo
  | .op i => x.1 = .inside i l ∧ bnd prog i = bnd prog lo
  | _ => x = (.before lo, m₀) ∧ lo = 0

/-- A block that has left `N` crossings is in window `W`, or still in the boundary before it. -/
def Placed (prog : List (Instr π)) (W lo : ℕ) (m₀ : α → β) (N : ℕ) (l : L)
    (x : Spot L × (α → β)) (pc : Pc) : Prop :=
  N = W ∧ Tracks prog lo m₀ l x pc ∨ N + 1 = W ∧ pc.phase = .spinning ∧ x = (.before lo, m₀)

/-- The pass that was rung last is in the window beginning at `lo`. -/
structure Active (sem : OpSem π α β L) (prog : List (Instr π)) (τ : List (Ev n))
    (s : Par n α β L) (lo : ℕ) (m₀ : α → β) (σ : Fin n → Spot L × (α → β)) : Prop where
  /-- the windows before it have been executed -/
  seq : SeqRun n sem prog 0 lo s.base m₀
  /-- it begins the program or stands behind a boundary -/
  begins : lo = 0 ∨ ∃ k < prog.length, lo = k + 1 ∧ isCrossing prog k = true
  merged : Footprint.Merged (fun b : Fin n => winFp sem prog (bnd prog lo) b) (fun b => (σ b).2)
    m₀ s.mem
  solo : ∀ b : Fin n, ReflTransGen (Solo sem prog b) (.before lo, m₀) (σ b)
  place : ∀ b, Placed prog ((rings τ - 1) * stride prog + bnd prog lo) lo m₀ (left b τ) (s.loc b)
    (σ b) (s.gpu.block b).pc

/-- The pass that was rung last has been executed. -/
structure Executed (sem : OpSem π α β L) (prog : List (Instr π)) (τ : List (Ev n))
    (s : Par n α β L) : Prop where
  seq : SeqRun n sem prog 0 prog.length s.base s.mem
  behind : ∀ b, rings τ * stride prog ≤ arrived b τ

/-- As long as the pass that was rung last is not done, it is running or executed. A pass that is
done needs no invariant, since its memory is the one the next pass begins with. -/
def PassInv (sem : OpSem π α β L) (prog : List (Instr π)) (τ : List (Ev n))
    (s : Par n α β L) : Prop :=
  s.gpu.cells.done.toNat + 1 = rings τ →
    (∃ lo m₀ σ, Active sem prog τ s lo m₀ σ) ∨ Executed sem prog τ s

/-! ## Counting -/

/-- A boundary is determined by the number of boundaries before it. -/
theorem crossing_unique {i j : ℕ} (hi : isCrossing prog i = true) (hj : isCrossing prog j = true)
    (hil : i ≤ prog.length) (hjl : j ≤ prog.length) (h : bnd prog i = bnd prog j) : i = j := by
  have key : ∀ {i j : ℕ}, isCrossing prog i = true → j ≤ prog.length →
      bnd prog i = bnd prog j → ¬ i < j := by
    intro i j hi hjl h hlt
    have h₁ := bnd_succ_of_isCrossing hi (hlt.trans_le hjl)
    have h₂ : bnd prog (i + 1) ≤ bnd prog j := bnd_mono hlt
    omega
  exact le_antisymm (not_lt.mp (key hj hil h.symm)) (not_lt.mp (key hi hjl h))

/-- Quotient and remainder are unique. Crossings are counted over all passes, and this gives back
the pass and the boundary in it. -/
theorem mul_add_inj {a b m r r' : ℕ} (hr : r < m) (hr' : r' < m) (h : a * m + r = b * m + r') :
    a = b ∧ r = r' := by
  have key : ∀ {a b r r' : ℕ}, r < m → a * m + r = b * m + r' → ¬ a < b := by
    intro a b r r' hr h hlt
    have := Nat.mul_le_mul_right m (Nat.succ_le_of_lt hlt)
    rw [Nat.succ_mul] at this
    omega
  have hab : a = b := le_antisymm (not_lt.mp (key hr' h.symm)) (not_lt.mp (key hr h))
  refine ⟨hab, ?_⟩
  rw [hab] at h
  exact Nat.add_left_cancel h

/-- Nobody has returned from more crossings than the rung passes have. -/
theorem run_left_le (hn : n < 2 ^ 31) {τ : List (Ev n)} {s : Gpu n}
    (h : (Gpu.lts n prog).Run τ s) (b : Fin n) : left b τ ≤ rings τ * stride prog := by
  refine Lts.Run.inv (I := fun τ _ => left b τ ≤ rings τ * stride prog) ?_ ?_ h
  · intro s _
    exact Nat.zero_le _
  · intro τ s e s' hr ih hs
    cases e with
    | blk j a =>
      obtain ⟨c, k, hstep, -⟩ := Gpu.step_blk.mp hs
      rw [rings_cons_blk]
      rcases eq_or_ne j b with rfl | hne
      · rw [left_cons_self]
        cases hstep with
        | @leave i hp ht =>
          have hb := (run_lock hn hr).block j
          have hat := hb.place
          have hwf := hb.wf
          have hle := (hb.live (by rw [hp]; trivial)).1
          rw [hp] at hat hwf
          have hlt := place_lt prog i hb.pass_pos
          have hmul : (s.block j).pass.toNat * stride prog ≤ rings τ * stride prog :=
            Nat.mul_le_mul_right _ hle
          simp only [Pc.At] at hat
          simp only [Act.crossed]
          omega
        | _ => exact ih
      · rw [left_cons_other hne]
        exact ih
    | ring =>
      rw [left_cons_of_none rfl, show rings (.ring :: τ) = rings τ + 1 by simp [rings]]
      exact ih.trans (Nat.mul_le_mul_right _ (Nat.le_succ _))
    | halt | token t =>
      rw [left_cons_of_none rfl]
      exact ih

/-! ## Steps within a window -/

section Step

variable {τ : List (Ev n)} {s : Par n α β L} {lo W : ℕ} {m₀ : α → β}
  {σ : Fin n → Spot L × (α → β)}

/-- A block outside the boundary is in the current window. -/
theorem Placed.tracks {N : ℕ} {l : L} {x : Spot L × (α → β)} {pc : Pc}
    (h : Placed prog W lo m₀ N l x pc) (hp : pc.phase ≠ .spinning) :
    N = W ∧ Tracks prog lo m₀ l x pc := by
  rcases h with h | ⟨-, hp', -⟩
  · exact h
  · exact absurd hp' hp

/-- Block `b` moves on in its walk to `x`, everybody else stays. -/
theorem Active.move (h : Active sem prog τ s lo m₀ σ) {b : Fin n} {a : Act} {c : Cells} {k : Block}
    {l : L} {m : α → β} {x : Spot L × (α → β)}
    (hsolo : ReflTransGen (Solo sem prog b) (σ b) x)
    (hmerged : Footprint.Merged (fun b : Fin n => winFp sem prog (bnd prog lo) b)
      (Function.update (fun b => (σ b).2) b x.2) m₀ m)
    (hplace : Placed prog ((rings τ - 1) * stride prog + bnd prog lo) lo m₀ (left b τ + a.crossed) l
      x k.pc) :
    Active sem prog (.blk b a :: τ)
      ⟨⟨c, Function.update s.gpu.block b k⟩, m, Function.update s.loc b l, s.base⟩ lo m₀
      (Function.update σ b x) where
  seq := h.seq
  begins := h.begins
  merged := by
    have hfun : (fun j => (Function.update σ b x j).2) =
        Function.update (fun j => (σ j).2) b x.2 :=
      Function.comp_update (fun y : Spot L × (α → β) => y.2) σ b x
    rw [hfun]
    exact hmerged
  solo j := by
    rcases eq_or_ne j b with rfl | hne
    · rw [Function.update_self]
      exact (h.solo j).trans hsolo
    · rw [Function.update_of_ne hne]
      exact h.solo j
  place j := by
    rw [rings_cons_blk]
    rcases eq_or_ne j b with rfl | hne
    · simp only [Function.update_self, left_cons_self]
      exact hplace
    · simp only [Function.update_of_ne hne, left_cons_other hne.symm]
      exact h.place j

/-- Block `b` does something that is no part of its walk. -/
theorem Active.stay (h : Active sem prog τ s lo m₀ σ) {b : Fin n} {a : Act} {c : Cells} {k : Block}
    (hplace : Placed prog ((rings τ - 1) * stride prog + bnd prog lo) lo m₀ (left b τ + a.crossed)
      (s.loc b) (σ b) k.pc) :
    Active sem prog (.blk b a :: τ)
      ⟨⟨c, Function.update s.gpu.block b k⟩, s.mem, Function.update s.loc b (s.loc b), s.base⟩ lo m₀
      (Function.update σ b (σ b)) := by
  refine h.move .refl ?_ hplace
  rw [Function.update_eq_self]
  exact h.merged

/-- Block `b` takes a step of its walk that does not write. -/
theorem Active.walk (h : Active sem prog τ s lo m₀ σ) {b : Fin n} {a : Act} {c : Cells} {k : Block}
    {l : L} {p : Spot L} (hsolo : Solo sem prog b (σ b) (p, (σ b).2))
    (hplace : Placed prog ((rings τ - 1) * stride prog + bnd prog lo) lo m₀ (left b τ + a.crossed) l
      (p, (σ b).2) k.pc) :
    Active sem prog (.blk b a :: τ)
      ⟨⟨c, Function.update s.gpu.block b k⟩, s.mem, Function.update s.loc b l, s.base⟩ lo m₀
      (Function.update σ b (p, (σ b).2)) := by
  refine h.move (.single hsolo) ?_ hplace
  rw [Function.update_eq_self b fun b => (σ b).2]
  exact h.merged

/-- Block `b` takes a step of its op: alone it would have taken the same step. -/
theorem Active.tick (hcf : ConflictFree n sem prog) (h : Active sem prog τ s lo m₀ σ) {b : Fin n}
    {i : ℕ} {ins : Instr π} {c : Cells} {l : L} {m : α → β} (hi : prog[i]? = some ins)
    (hr : runs prog b i = true) (hp : (s.gpu.block b).pc = .op i)
    (hs : sem.step ins b (s.loc b) s.mem = some (l, m)) :
    ∃ σ', Active sem prog (.blk b (.tick i) :: τ)
      ⟨⟨c, Function.update s.gpu.block b (s.gpu.block b)⟩, m, Function.update s.loc b l, s.base⟩
      lo m₀ σ' := by
  have hplace := h.place b
  rw [hp] at hplace
  obtain ⟨hW, hx, hA⟩ := hplace.tracks nofun
  have hloc := (sem.confined ins b (s.loc b)).mono (touches_subset_winFp hi hA hr)
    (writes_subset_winFp hi hA hr)
  obtain ⟨μ', hs', heq⟩ := hloc.depends _ _ (h.merged.agree b) _ _ hs
  have hσ : σ b = (.inside i (s.loc b), (σ b).2) := Prod.ext hx rfl
  refine ⟨_, h.move (x := (.inside i l, μ')) (.single ?_) ?_ ?_⟩
  · rw [hσ]
    exact .tick hi hs'
  · exact h.merged.update (hcf.pairwise _) heq fun a ha => hloc.frame _ _ _ hs a ha
  · rw [hp]
    exact Or.inl ⟨hW, rfl, hA⟩

/-- **The first return from the boundary behind the window**: everybody has arrived there, all walks
are complete, and the memory is that of sequential execution. Here the barrier guarantee turns an
interleaving into an order. -/
theorem Active.complete (hcf : ConflictFree n sem prog) (h : Active sem prog τ s lo m₀ σ)
    (hl : Lock prog τ s.gpu) {b : Fin n} {i : ℕ} {g : Gpu n}
    (hinv : Grid.Inv ((Ev.blk b (.leave i) :: τ).filterMap Ev.cross) g.grid)
    (hg : ∀ j, j ≠ b → g.block j = s.gpu.block j) (hp : (s.gpu.block b).pc = .spin i)
    (hW : left b τ = (rings τ - 1) * stride prog + bnd prog lo)
    (ht : Tracks prog lo m₀ (s.loc b) (σ b) (.spin i)) :
    SeqRun n sem prog 0 i s.base s.mem ∧
      ∀ j, j ≠ b → left j τ = left b τ ∧ (s.gpu.block j).pc.phase = .spinning := by
  have hwf := (hl.block b).wf
  rw [hp] at hwf
  -- the others have arrived at the boundary that `b` returns from
  have hothers : ∀ j, j ≠ b → left j τ = left b τ ∧ (s.gpu.block j).pc.phase = .spinning ∧
      Tracks prog lo m₀ (s.loc j) (σ j) (s.gpu.block j).pc := by
    intro j hne
    have hsound : left b (.blk b (.leave i) :: τ) ≤ arrived j (.blk b (.leave i) :: τ) :=
      hinv.sound b j
    have harr : arrived j (.blk b (.leave i) :: τ) = left j (.blk b (.leave i) :: τ) +
        if (g.block j).pc.phase = .spinning then 1 else 0 := hinv.arrived j
    rw [left_cons_self] at hsound
    rw [left_cons_other hne.symm, hg j hne] at harr
    simp only [Act.crossed] at hsound
    rcases h.place j with ⟨hj, htj⟩ | ⟨hj, -, -⟩
    · by_cases hs : (s.gpu.block j).pc.phase = .spinning
      · exact ⟨by omega, hs, htj⟩
      · rw [if_neg hs] at harr
        omega
    · split at harr <;> omega
  have hall : ∀ j, (σ j).1 = .before i := by
    intro j
    rcases eq_or_ne j b with rfl | hne
    · exact ht.1
    · obtain ⟨-, hs, htj⟩ := hothers j hne
      have hwfj := (hl.block j).wf
      rcases hpj : (s.gpu.block j).pc with _ | v | v | i' | i' | i' | i' | _ | e | _ | _ <;>
        rw [hpj] at hs htj hwfj <;> try cases hs
      have heq := crossing_unique hwfj.2 hwf.2 hwfj.1 hwf.1 (htj.2.trans ht.2.symm)
      rw [htj.1, heq]
  have hle : lo ≤ i := by
    by_contra hlt
    obtain rfl | ⟨k, hk, rfl, -⟩ := h.begins
    · exact hlt (Nat.zero_le _)
    · have h₁ := bnd_succ_of_isCrossing hwf.2 (by omega : i < prog.length)
      have h₂ : bnd prog (i + 1) ≤ bnd prog (k + 1) := bnd_mono (by omega)
      have h₃ := ht.2
      omega
  refine ⟨h.seq.trans ?_, fun j hne => ⟨(hothers j hne).1, (hothers j hne).2.1⟩⟩
  refine seqRun_of_solo hcf hle rfl ht.2 hwf.2 (fun j => ?_) h.merged
  rw [← hall j]
  exact h.solo j

/-- Before its walk, and between an instruction and its boundary, a block only changes
its place in the code. -/
theorem Active.idle (h : Active sem prog τ s lo m₀ σ) {b : Fin n} {a : Act} {c : Cells} {k : Block}
    (ha : a.crossed = 0) (hp : (s.gpu.block b).pc.phase ≠ .spinning)
    (ht : Tracks prog lo m₀ (s.loc b) (σ b) (s.gpu.block b).pc →
      Tracks prog lo m₀ (s.loc b) (σ b) k.pc) :
    ∃ lo m₀ σ, Active sem prog (.blk b a :: τ)
      ⟨⟨c, Function.update s.gpu.block b k⟩, s.mem, Function.update s.loc b (s.loc b), s.base⟩ lo m₀
      σ := by
  obtain ⟨hW, htr⟩ := (h.place b).tracks hp
  refine ⟨lo, m₀, _, h.stay ?_⟩
  rw [ha]
  exact Or.inl ⟨hW, ht htr⟩

/-- A block returns late from the boundary before the window and begins its walk. -/
theorem Active.late (h : Active sem prog τ s lo m₀ σ) (hl : Lock prog τ s.gpu) {b : Fin n} {i : ℕ}
    (hp : (s.gpu.block b).pc = .spin i)
    (hW : left b τ + 1 = (rings τ - 1) * stride prog + bnd prog lo) (hx : σ b = (.before lo, m₀)) :
    Tracks prog lo m₀ (s.loc b) (σ b) (afterCross prog i) := by
  have hb := hl.block b
  have hwf := hb.wf
  have hat := hb.place
  rw [hp] at hwf hat
  have hL : left b τ = ((s.gpu.block b).pass.toNat - 1) * stride prog + bnd prog i := hat
  by_cases hi : i < prog.length
  · -- the boundary is the one the window stands behind
    have hbnd := bnd_succ_of_isCrossing hwf.2 hi
    obtain ⟨-, heq⟩ := mul_add_inj (bnd_lt_stride prog (i + 1)) (bnd_lt_stride prog lo)
      (show _ = (rings τ - 1) * stride prog + bnd prog lo by rw [← hW, hL, hbnd, Nat.add_assoc])
    rw [afterCross, if_pos hi, hx]
    obtain rfl | ⟨k, hk, rfl, hkx⟩ := h.begins
    · rw [hbnd, bnd_zero] at heq
      cases heq
    · rw [hbnd, bnd_succ_of_isCrossing hkx hk] at heq
      rw [crossing_unique hwf.2 hkx hwf.1 hk.le (Nat.succ_inj.mp heq)]
      exact ⟨rfl, rfl⟩
  · -- it is the epilogue of the pass before, and the window is the first one
    obtain rfl : i = prog.length := le_antisymm hwf.1 (not_lt.mp hi)
    have hlen : bnd prog prog.length + 1 = stride prog := bnd_length
    have hmul := sub_one_mul_add (m := stride prog) hb.pass_pos
    obtain ⟨-, heq⟩ := mul_add_inj (Nat.succ_pos _) (bnd_lt_stride prog lo)
      (show (s.gpu.block b).pass.toNat * stride prog + 0 =
        (rings τ - 1) * stride prog + bnd prog lo by omega)
    rw [afterCross, if_neg (lt_irrefl _)]
    refine ⟨hx, ?_⟩
    obtain rfl | ⟨k, hk, rfl, hkx⟩ := h.begins
    · rfl
    · rw [bnd_succ_of_isCrossing hkx hk] at heq
      cases heq

/-- A block is the first to return from the boundary behind the window: the next window
begins, or the pass is executed. -/
theorem Active.leave (hcf : ConflictFree n sem prog) (h : Active sem prog τ s lo m₀ σ)
    (hl : Lock prog τ s.gpu) {b : Fin n} {i : ℕ} {c : Cells} {k : Block}
    (hinv : Grid.Inv ((Ev.blk b (.leave i) :: τ).filterMap Ev.cross)
      (⟨c, Function.update s.gpu.block b { k with pc := afterCross prog i }⟩ : Gpu n).grid)
    (hR : s.gpu.cells.done.toNat + 1 = rings τ) (hp : (s.gpu.block b).pc = .spin i)
    (hW : left b τ = (rings τ - 1) * stride prog + bnd prog lo)
    (ht : Tracks prog lo m₀ (s.loc b) (σ b) (.spin i)) :
    (∃ lo m₀ σ, Active sem prog (.blk b (.leave i) :: τ)
      ⟨⟨c, Function.update s.gpu.block b { k with pc := afterCross prog i }⟩, s.mem,
        Function.update s.loc b (s.loc b), s.base⟩ lo m₀ σ) ∨
    Executed sem prog (.blk b (.leave i) :: τ)
      ⟨⟨c, Function.update s.gpu.block b { k with pc := afterCross prog i }⟩, s.mem,
        Function.update s.loc b (s.loc b), s.base⟩ := by
  obtain ⟨hseq, hothers⟩ := h.complete hcf hl hinv (fun j hne => Function.update_of_ne hne _ _) hp
    hW ht
  have hwf := (hl.block b).wf
  rw [hp] at hwf
  by_cases hi : i < prog.length
  · have hbnd := bnd_succ_of_isCrossing hwf.2 hi
    refine Or.inl ⟨i + 1, s.mem, fun _ => (.before (i + 1), s.mem), hseq.crossing hwf.2,
      Or.inr ⟨i, hi, rfl, hwf.2⟩, .start, fun _ => .refl, fun j => ?_⟩
    rw [rings_cons_blk, hbnd, ht.2, ← Nat.add_assoc, ← hW]
    rcases eq_or_ne j b with rfl | hne
    · simp only [Function.update_self, left_cons_self, afterCross, if_pos hi]
      exact Or.inl ⟨rfl, rfl, rfl⟩
    · obtain ⟨hleft, hphase⟩ := hothers j hne
      simp only [Function.update_of_ne hne, left_cons_other hne.symm]
      exact Or.inr ⟨by rw [hleft], hphase, rfl⟩
  · obtain rfl : i = prog.length := le_antisymm hwf.1 (not_lt.mp hi)
    refine Or.inr ⟨hseq, fun j => ?_⟩
    have hsound : left b (.blk b (.leave prog.length) :: τ) ≤ arrived j _ := hinv.sound b j
    refine le_trans (le_of_eq ?_) hsound
    have hlen : bnd prog prog.length + 1 = stride prog := bnd_length
    have hmul : (rings τ - 1) * stride prog + stride prog = rings τ * stride prog :=
      sub_one_mul_add (by omega)
    rw [rings_cons_blk, left_cons_self, hW, ← ht.2, ← hmul, ← hlen]
    rfl

/-- Only a tick of an op changes the memory. -/
theorem dataAct_mem {b : ℕ} {l l' : L} {m m' : α → β} {a : Act}
    (h : dataAct sem prog b l m a = some (l', m')) (ha : ∀ i, a ≠ .tick i) : m' = m := by
  cases a with
  | tick i => exact absurd rfl (ha i)
  | begin i =>
    obtain ⟨ins, -, heq⟩ := Option.map_eq_some_iff.mp h
    cases heq
    rfl
  | finish i =>
    obtain ⟨ins, -, heq⟩ := Option.bind_eq_some_iff.mp h
    obtain ⟨-, heq⟩ := Option.ite_none_right_eq_some.mp heq
    cases heq
    rfl
  | _ =>
    cases h
    rfl

/-- Every step of a block keeps the pass running or completes it. -/
theorem PassInv.blk (hn : n < 2 ^ 31) (hcf : ConflictFree n sem prog)
    (hprog : ∀ i, badAt prog i = false) (hr : (Par.lts sem prog tok n).Run τ s)
    (ih : PassInv sem prog τ s) {b : Fin n} {a : Act} {s' : Par n α β L}
    (hs : Par.step sem prog tok s (.blk b a) = some s') : PassInv sem prog (.blk b a :: τ) s' := by
  intro hdone
  have hl := run_lock hn (Par.run_gpu hr)
  have hinv := Gpu.run_inv hn (Par.run_gpu hr)
  have hinv' := Gpu.run_inv hn (Par.run_gpu (hr.snoc hs))
  obtain ⟨c, k, l, m, hstep, hdata, rfl⟩ := Par.step_blk.mp hs
  rw [rings_cons_blk] at hdone
  -- after a publication the pass is done
  have hpub : a ≠ .publish := by
    rintro rfl
    cases hstep with
    | publish hp h0 =>
      have hz := (hl.zero b h0).done
      have hle := ((hl.block b).live (by rw [hp]; trivial)).1
      have := hl.rings_le
      simp only at hdone
      omega
  have hpre : s.gpu.cells.done.toNat + 1 = rings τ := by
    cases hstep with
    | publish => exact absurd rfl hpub
    | store hr => simpa using hdone
    | _ => exact hdone
  rcases ih hpre with ⟨lo, m₀, σ, h⟩ | h
  · have hplace := h.place b
    cases hstep with
    | publish => exact absurd rfl hpub
    | poll | spin | raise | store =>
      cases hdata
      exact Or.inl ⟨lo, m₀, _, h.stay hplace⟩
    | hear hp =>
      cases hdata
      refine Or.inl (h.idle rfl (by rw [hp]; nofun) ?_)
      rw [hp]
      split <;> exact id
    | start hp =>
      cases hdata
      refine Or.inl (h.idle rfl (by rw [hp]; nofun) ?_)
      rw [hp]
      rintro ⟨hx, rfl⟩
      rw [hx]
      exact ⟨rfl, rfl⟩
    | forward hp | stop hp | sample hp | turn hp | quit hp | gone hp =>
      cases hdata
      refine Or.inl (h.idle rfl (by rw [hp]; nofun) ?_)
      rw [hp]
      exact id
    | cross hp hx =>
      cases hdata
      refine Or.inl (h.idle rfl (by rw [hp]; nofun) ?_)
      rw [hp]
      exact id
    | arrive hp =>
      cases hdata
      refine Or.inl (h.idle rfl (by rw [hp]; nofun) ?_)
      rw [hp]
      exact id
    | bad hp hi =>
      rw [hprog] at hi
      cases hi
    | @begin i hp hi =>
      obtain ⟨ins, hins, heq⟩ := Option.map_eq_some_iff.mp hdata
      cases heq
      rw [hp] at hplace
      obtain ⟨hW, hx, hA⟩ := hplace.tracks nofun
      have hσ : σ b = (.before i, (σ b).2) := Prod.ext hx rfl
      refine Or.inl ⟨lo, m₀, _, h.walk (p := .inside i (sem.init ins b)) ?_ (Or.inl ⟨hW, rfl, hA⟩)⟩
      rw [hσ]
      exact .enter hi hins
    | @skip i hp hi =>
      cases hdata
      rw [hp] at hplace
      obtain ⟨hW, hx, hA⟩ := hplace.tracks nofun
      have hσ : σ b = (.before i, (σ b).2) := Prod.ext hx rfl
      refine Or.inl ⟨lo, m₀, _, h.walk (p := .before (i + 1)) ?_
        (Or.inl ⟨hW, rfl, (bnd_succ_of_skips hi).2.trans hA⟩)⟩
      rw [hσ]
      exact .skip hi
    | @tick i hp =>
      obtain ⟨ins, hins, hsem⟩ := Option.bind_eq_some_iff.mp hdata
      have hwf := (hl.block b).wf
      rw [hp] at hwf
      obtain ⟨σ', h'⟩ := h.tick hcf hins hwf hp hsem
      exact Or.inl ⟨lo, m₀, σ', h'⟩
    | @finish i hp hq =>
      obtain ⟨ins, hins, hsem⟩ := Option.bind_eq_some_iff.mp hdata
      obtain ⟨hnone, heq⟩ := Option.ite_none_right_eq_some.mp hsem
      cases heq
      have hwf := (hl.block b).wf
      rw [hp] at hplace hwf
      obtain ⟨hW, hx, hA⟩ := hplace.tracks nofun
      have hσ : σ b = (.inside i (s.loc b), (σ b).2) := Prod.ext hx rfl
      have hloc := (sem.confined ins b (s.loc b)).mono (touches_subset_winFp hins hA hwf)
        (writes_subset_winFp hins hA hwf)
      refine Or.inl ⟨lo, m₀, _, h.walk (p := .before (i + 1)) ?_
        (Or.inl ⟨hW, rfl, (bnd_succ_of_runs hwf).2.trans hA⟩)⟩
      rw [hσ]
      exact .finish hins (hloc.stuck _ _ (h.merged.agree b) (Option.isNone_iff_eq_none.mp hnone))
    | @leave i hp ht =>
      cases hdata
      rw [hp] at hplace
      rcases hplace with ⟨hW, htr⟩ | ⟨hW, -, hx⟩
      · exact h.leave hcf hl hinv' hpre hp hW htr
      · exact Or.inl ⟨lo, m₀, _, h.stay (Or.inl ⟨hW, h.late hl hp hW hx⟩)⟩
  · refine Or.inr ⟨?_, fun j => ?_⟩
    · have hmem : m = s.mem := by
        refine dataAct_mem hdata ?_
        rintro i rfl
        cases hstep with
        | tick hp =>
          -- nobody is inside an op any more
          have he : (s.gpu.block b).pc.Executing prog := by
            rw [hp]
            trivial
          have hlt := hl.arrived_lt hinv he
          rw [(hl.executing hinv he).1] at hlt
          exact absurd (h.behind b) (not_le.mpr hlt)
      rw [hmem]
      exact h.seq
    · rw [rings_cons_blk]
      exact (h.behind j).trans (arrived_cons_le j _ τ)

/-- Ringing begins a pass: everybody is behind the epilogue of the pass before, or about
to return from it. -/
theorem PassInv.ring (hn : n < 2 ^ 31) (hr : (Par.lts sem prog tok n).Run τ s) {g : Gpu n}
    (hs : s.gpu.step prog .ring = some g) :
    PassInv sem prog (.ring :: τ) { s with gpu := g, base := s.mem } := by
  intro _
  have hgpu := Par.run_gpu hr
  have hl := run_lock hn hgpu
  have hinv := Gpu.run_inv hn hgpu
  obtain ⟨hq, rfl⟩ := Gpu.step_ring.mp hs
  have hrings : rings (.ring :: τ) - 1 = rings τ := by simp [rings]
  have hdone := hl.done_of_quiet hq
  refine Or.inl ⟨0, s.mem, fun _ => (.before 0, s.mem), .refl, Or.inl rfl, .start, fun _ => .refl,
    fun b => ?_⟩
  rw [hrings, left_cons_of_none rfl, bnd_zero]
  have hle := run_left_le hn hgpu b
  have harr : arrived b τ = left b τ + if (s.gpu.block b).pc.phase = .spinning then 1 else 0 :=
    hinv.arrived b
  have hge : rings τ * stride prog ≤ arrived b τ := by
    have hz := (hl.zero ⟨0, b.pos⟩ rfl).done
    have hL := (hl.block ⟨0, b.pos⟩).place.le
    have hsound : left _ τ ≤ arrived b τ := hinv.sound ⟨0, b.pos⟩ b
    rw [← hz, Nat.add_sub_cancel, hdone] at hL
    exact hL.trans hsound
  -- nobody is executing, as the last pass is done
  have hnot : ¬ (s.gpu.block b).pc.Executing prog := fun he => by
    have := (hl.executing hinv he).2
    omega
  have hat := (hl.block b).place
  have hwf := (hl.block b).wf
  have hlive := (hl.block b).live
  rcases hp : (s.gpu.block b).pc with _ | v | v | i | i | i | i | _ | e | _ | _ <;>
    rw [hp] at hat hwf hnot harr hlive
  case fetch => exact absurd trivial hnot
  case op => exact absurd trivial hnot
  case arrive => exact absurd trivial hnot
  case spin =>
    -- the epilogue of a rung pass has not been left
    obtain rfl : i = prog.length := le_antisymm hwf.1 (not_lt.mp hnot)
    have hlen : bnd prog prog.length + 1 = stride prog := bnd_length
    have hmul := sub_one_mul_add (m := stride prog) (hl.block b).pass_pos
    have hmono := Nat.mul_le_mul_right (stride prog) (hlive trivial).1
    rw [if_pos (show (Pc.spin prog.length).phase = .spinning from rfl)] at harr
    simp only [Pc.At] at hat
    exact Or.inr ⟨by omega, rfl, rfl⟩
  all_goals
    rw [if_neg (by simp [Pc.phase])] at harr
    exact Or.inl ⟨by omega, rfl, rfl⟩

end Step

/-- **In every run the pass that is not done is running or executed.** -/
theorem run_passInv (hn : n < 2 ^ 31) (hcf : ConflictFree n sem prog)
    (hprog : ∀ i, badAt prog i = false) {τ : List (Ev n)} {s : Par n α β L}
    (h : (Par.lts sem prog tok n).Run τ s) : PassInv sem prog τ s := by
  refine Lts.Run.inv (I := PassInv sem prog) ?_ ?_ h
  · intro s hs hdone
    rw [show s.gpu = Gpu.zero n from hs] at hdone
    cases hdone
  · intro τ s e s' hr ih hs
    cases e with
    | blk b a => exact ih.blk hn hcf hprog hr hs
    | ring =>
      obtain ⟨g, hg, rfl⟩ := Option.map_eq_some_iff.mp hs
      exact .ring hn hr hg
    | halt =>
      have hs' : (s.gpu.step prog .halt).map (fun g => { s with gpu := g }) = some s' := hs
      obtain ⟨g, hg, rfl⟩ := Option.map_eq_some_iff.mp hs'
      obtain rfl := Gpu.step_halt.mp hg
      intro hdone
      rcases ih hdone with ⟨lo, m₀, σ, h⟩ | h
      · refine Or.inl ⟨lo, m₀, σ, h.seq, h.begins, h.merged, h.solo, fun b => ?_⟩
        rw [left_cons_of_none rfl]
        exact h.place b
      · exact Or.inr ⟨h.seq, fun b => (h.behind b).trans (arrived_cons_le b _ τ)⟩
    | token t =>
      obtain ⟨g, hg, rfl⟩ := Option.map_eq_some_iff.mp hs
      obtain ⟨hq, rfl⟩ := Gpu.step_token.mp hg
      intro hdone
      have hrings : rings (.token t :: τ) = rings τ := rfl
      have hd := (run_lock hn (Par.run_gpu hr)).done_of_quiet hq
      simp only at hdone
      omega

/-- **The parallel interpreter refines sequential execution.** If within each window
footprints conflict only between instructions of one block, then in every run, for any
interleaving, the memory at the end of a pass (when block 0 publishes it) is the one that
executing the instructions one after another, each for all its blocks, makes of the memory
the pass was rung with. -/
theorem interp_refines_sequential (hn : n < 2 ^ 31) (hprog : ∀ ins ∈ prog, ins.isBad = false)
    (hcf : ConflictFree n sem prog) {τ : List (Ev n)} {s s' : Par n α β L} {b : Fin n}
    (h : (Par.lts sem prog tok n).Run τ s)
    (hs : Par.step sem prog tok s (.blk b .publish) = some s') :
    SeqRun n sem prog 0 prog.length s.base s'.mem ∧
      ∀ m, SeqRun n sem prog 0 prog.length s.base m → m = s'.mem := by
  have hgpu := Par.run_gpu h
  have hl := run_lock hn hgpu
  obtain ⟨c, k, l, m, hstep, hdata, rfl⟩ := Par.step_blk.mp hs
  have hmem : m = s.mem := dataAct_mem hdata nofun
  cases hstep with
  | publish hp h0 =>
    have hb := hl.block b
    have hle := (hb.live (by rw [hp]; trivial)).1
    have hz := (hl.zero b h0).done
    have hR := hl.rings_le
    have hseq : SeqRun n sem prog 0 prog.length s.base s.mem := by
      rcases run_passInv hn hcf (badAt_eq_false hprog) h (by omega) with ⟨lo, m₀, σ, ha⟩ | he
      · -- block 0 has left all windows of the pass
        have hat := hb.place
        have hlt := place_lt prog lo hb.pass_pos
        have hmul := sub_one_mul_add (m := stride prog) hb.pass_pos
        have hpass : (s.gpu.block b).pass.toNat = rings τ := by omega
        rw [hp] at hat
        simp only [Pc.At] at hat
        rw [hpass] at hat hlt hmul
        rcases ha.place b with ⟨hW, -⟩ | ⟨hW, -, -⟩ <;> omega
      · exact he.seq
    rw [hmem]
    exact ⟨hseq, fun m hm => hm.unique hseq⟩

/-- An op of one step: block `b` writes to address `b` one more than the payload's address holds.
Whether two of them conflict depends on where the payload points. -/
def succOf : OpSem ℕ ℕ ℕ Bool where
  init _ _ := false
  step ins b ran m := if ran then none else some (true, Function.update m b (m ins.payload + 1))
  fp ins b := ⟨{ins.payload}, {b}⟩
  confined ins b ran := by
    refine ⟨?_, ?_, ?_⟩
    · intro m c m' h a ha
      cases ran with
      | true => cases h
      | false =>
        cases h
        exact Function.update_of_ne (fun hab => ha (by simp [hab])) _ _
    · intro m₁ m₂ _ h
      cases ran with
      | true => rfl
      | false => cases h
    · intro m₁ m₂ he c m₁' h
      cases ran with
      | true => cases h
      | false =>
        cases h
        refine ⟨_, rfl, ?_⟩
        have hp : m₁ ins.payload = m₂ ins.payload := he (Or.inl rfl)
        intro a ha
        rcases ha with rfl | rfl
        · by_cases hab : ins.payload = b
          · rw [hab, Function.update_self, Function.update_self, ← hab, hp]
          · rw [Function.update_of_ne hab, Function.update_of_ne hab, hp]
        · rw [Function.update_self, Function.update_self, hp]

/-- Both blocks read address 5; behind a boundary block 0 reads what block 1 has written. -/
def crossRead : List (Instr ℕ) :=
  [⟨MacroKind.rmsnorm.code, 0, 2, 5⟩, ⟨MacroKind.boundary.code, 0, 0, 0⟩,
    ⟨MacroKind.residualAdd.code, 0, 1, 1⟩]

/-- One pass: block 0 is through the first window before block 1 has begun it. -/
def crossReadPass : List (Ev 2) :=
  [.blk 0 .sample, .blk 0 (.leave 3), .blk 0 (.arrive 3), .blk 1 (.arrive 3), .blk 1 (.cross 3),
    .blk 0 (.cross 3), .blk 0 (.finish 2), .blk 0 (.tick 2), .blk 1 (.skip 2), .blk 0 (.begin 2),
    .blk 1 (.leave 1), .blk 0 (.leave 1), .blk 1 (.arrive 1), .blk 1 (.cross 1),
    .blk 1 (.finish 0), .blk 1 (.tick 0), .blk 1 (.begin 0), .blk 1 (.start 1), .blk 0 (.arrive 1),
    .blk 0 (.cross 1), .blk 0 (.finish 0), .blk 0 (.tick 0), .blk 0 (.begin 0), .blk 0 (.start 1),
    .blk 1 (.hear 1), .blk 0 (.forward 1), .blk 0 (.hear 1), .ring]

/-- No block writes what another one reads in the same window. -/
theorem crossRead_conflictFree : ConflictFree 2 succOf crossRead := by
  intro i j ins ins' b b' hne hbnd hi hj hr hr'
  have hb : b.val ≠ b'.val := fun h => hne (Fin.ext h)
  have hcases : ∀ {i : ℕ} {ins : Instr ℕ} {b : Fin 2}, crossRead[i]? = some ins →
      runs crossRead b i = true →
        (bnd crossRead i = 0 ∧ ins.payload = 5) ∨ (bnd crossRead i = 1 ∧ b = 0) := by
    intro i ins b hi hr
    rcases i with _ | _ | _ | i
    · cases hi
      exact Or.inl ⟨rfl, rfl⟩
    · cases hi
      revert hr
      decide +revert
    · cases hi
      refine Or.inr ⟨rfl, ?_⟩
      revert hr
      decide +revert
    · cases hi
  rcases hcases hi hr with ⟨h₁, h₂⟩ | ⟨h₁, h₂⟩ <;>
    rcases hcases hj hr' with ⟨h₃, h₄⟩ | ⟨h₃, h₄⟩
  · have hb5 : b.val ≠ 5 := by omega
    have hb5' : b'.val ≠ 5 := by omega
    simp [Footprint.Indep, Footprint.touches, succOf, h₂, h₄, hb, hb5, hb5', Ne.symm hb]
  · omega
  · omega
  · exact absurd (h₂.trans h₄.symm) hne

theorem interp_refines_sequential_crossRead :
    ∃ s s' : Par 2 ℕ ℕ Bool, (Par.lts succOf crossRead (fun _ m => m) 2).Run crossReadPass s ∧
      Par.step succOf crossRead (fun _ m => m) s (.blk 0 .publish) = some s' ∧
      SeqRun 2 succOf crossRead 0 3 s.base s'.mem := by
  let s₀ : Par 2 ℕ ℕ Bool := ⟨.zero 2, fun _ => 0, fun _ => false, fun _ => 0⟩
  obtain ⟨s', hs', hr'⟩ := Lts.exists_run_of_isSome (Par.step succOf crossRead fun _ m => m) s₀
    (.blk 0 .publish :: crossReadPass) (by decide)
  obtain ⟨s, hr, hs⟩ := hr'.of_cons
  have hr : (Par.lts succOf crossRead (fun _ m => m) 2).Run crossReadPass s := by
    refine Lts.Run.mono ?_ ?_ hr
    · intro s h
      exact congrArg Par.gpu h
    · intro s e s' h
      exact h
  obtain ⟨h, -⟩ := interp_refines_sequential (by decide) (by decide) crossRead_conflictFree hr hs
  exact ⟨s, s', hr, hs, h⟩

end Megakernel
