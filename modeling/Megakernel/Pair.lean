import Megakernel.Environment

/-!
# The pair without its data

`Dual` follows the elements through the exchange and needs a split program for
it. What `dual_run_pass` returns depends on the control cells alone, so here the
two GPUs are plain interpreters with any program, under the same host
(`Pair.step`). Every run of `Dual` is a run of the pair without its data
(`Dual.run_pair`).

The view of one GPU (`PEv.side`) forgets the other GPU and turns the host's steps into writes of its
cells. By `Pair.run_side` the errors of a GPU of the pair are then those of a GPU under some host.
-/

namespace Megakernel

variable {n N : ℕ} {prog : List (Instr XArgs)}

/-- Two GPUs and their host, without the data of the exchange. The programs may be any, and nothing
is known of what their ops compute. -/
structure Pair (n : ℕ) : Type where
  gpu : Fin 2 → Gpu n
  host : DualHost

/-- A step of a block, of the host or of a copy stream. -/
inductive PEv (n : ℕ) : Type where
  /-- block `b` of GPU `g` does `a` -/
  | dev (g : Fin 2) (b : Fin n) (a : Act)
  | host (a : DualAct)
  /-- the copy to the seqno field of instruction `i` of GPU `g` lands -/
  | patch (g : Fin 2) (i : ℕ)
  /-- the copy of `t` to the token cell of GPU `g` lands -/
  | token (g : Fin 2) (t : U32)
  deriving DecidableEq

namespace Pair

/-- After `dual_setup`. -/
def zero (n : ℕ) : Pair n := ⟨fun _ => .zero n, ⟨0, 0, fun _ => 0, fun _ => [], .idle⟩⟩

/-- A copy has landed on GPU `g`. -/
def landed (h : DualHost) (g : Fin 2) : DualHost :=
  { h with queue := Function.update h.queue g (h.queue g).tail }

/-- One step of the pair. -/
def step (prog : List (Instr XArgs)) (s : Pair n) : PEv n → Option (Pair n)
  | .dev g b a =>
    ((s.gpu g).step prog (.blk b a)).map fun c => { s with gpu := Function.update s.gpu g c }
  | .host a =>
    (dualAct prog (fun g => (s.gpu g).cells) s.host a).map fun r =>
      ⟨fun g => ⟨r.1 g, (s.gpu g).block⟩, r.2⟩
  | .patch g i =>
    if (s.host.queue g).head? = some (.seqno i) then some { s with host := landed s.host g }
    else none
  | .token g t =>
    if (s.host.queue g).head? = some .token ∧ t = s.host.token then
      some ⟨Function.update s.gpu g
        ⟨{ (s.gpu g).cells with token := t }, (s.gpu g).block⟩, landed s.host g⟩
    else none

/-- The pair as a transition system. -/
def lts (n : ℕ) (prog : List (Instr XArgs)) : Lts (Pair n) (PEv n) :=
  Lts.ofFun (zero n) (step prog)

variable {s s' : Pair n}

theorem step_dev {g : Fin 2} {b : Fin n} {a : Act} :
    step prog s (.dev g b a) = some s' ↔
      ∃ c k, BlockStep n prog b (s.gpu g).cells ((s.gpu g).block b) a c k ∧
        s' = ⟨Function.update s.gpu g ⟨c, Function.update (s.gpu g).block b k⟩, s.host⟩ := by
  simp only [step, Option.map_eq_some_iff, Gpu.step_blk, eq_comm (a := s')]
  constructor
  · rintro ⟨_, ⟨c, k, hs, rfl⟩, rfl⟩
    exact ⟨c, k, hs, rfl⟩
  · rintro ⟨c, k, hs, rfl⟩
    exact ⟨_, ⟨c, k, hs, rfl⟩, rfl⟩

theorem step_host {a : DualAct} :
    step prog s (.host a) = some s' ↔
      ∃ c h, DualStep prog (fun g => (s.gpu g).cells) s.host a c h ∧
        s' = ⟨fun g => ⟨c g, (s.gpu g).block⟩, h⟩ := by
  simp only [step, Option.map_eq_some_iff, Prod.exists, dualAct_eq_some, eq_comm (a := s')]

theorem step_patch {g : Fin 2} {i : ℕ} :
    step prog s (.patch g i) = some s' ↔
      (s.host.queue g).head? = some (.seqno i) ∧ s' = { s with host := landed s.host g } := by
  simp only [step, Option.ite_none_right_eq_some, Option.some.injEq, eq_comm (a := s')]

theorem step_token {g : Fin 2} {t : U32} :
    step prog s (.token g t) = some s' ↔
      ((s.host.queue g).head? = some .token ∧ t = s.host.token) ∧
        s' = ⟨Function.update s.gpu g
          ⟨{ (s.gpu g).cells with token := t }, (s.gpu g).block⟩, landed s.host g⟩ := by
  simp only [step, Option.ite_none_right_eq_some, Option.some.injEq, eq_comm (a := s')]

end Pair

/-! ## Runs with data -/

section Data

variable {V : Type*} [DecidableEq V] [Add V] [Zero V]

/-- A pair without its data. -/
def Dual.pair (s : Dual n V) : Pair n := ⟨fun g => (s.gpu g).ctl, s.host⟩

/-- A step without its data. -/
def DEv.pair : DEv n V → PEv n
  | .dev g b x => .dev g b x.act
  | .host a => .host a
  | .patch g i _ => .patch g i
  | .token g t => .token g t

omit [DecidableEq V] [Add V] [Zero V] in
/-- Replacing one GPU replaces its control part. -/
theorem Dual.pair_update (s : Dual n V) (g : Fin 2) (x : XGpu n V) (h : DualHost) :
    (⟨Function.update s.gpu g x, h⟩ : Dual n V).pair =
      ⟨Function.update s.pair.gpu g x.ctl, h⟩ := by
  rw [Dual.pair, Pair.mk.injEq]
  exact ⟨Function.comp_update XGpu.ctl s.gpu g x, rfl⟩

/-- **The pair without its data simulates the pair.** What is proved of control and returns for the
former therefore holds of the latter. -/
theorem Dual.run_pair {P : SplitProgram n N} {T : ℕ} {stale : Bool} {τ : List (DEv n V)}
    {s : Dual n V} (h : (Dual.lts P T stale).Run τ s) :
    (Pair.lts n P.prog).Run (τ.map DEv.pair) s.pair := by
  induction h with
  | start hs =>
    obtain rfl := hs
    exact .start rfl
  | @snoc τ s s' e _ hs ih =>
    refine ih.snoc ?_
    cases e with
    | dev g b x =>
      obtain ⟨-, x', hx, rfl⟩ := Dual.step_dev.mp hs
      obtain ⟨-, c, hc, rfl⟩ := XGpu.step_blk.mp hx
      obtain ⟨c', k, hstep, rfl⟩ := Gpu.step_blk.mp hc
      refine Pair.step_dev.mpr ⟨c', k, hstep, ?_⟩
      rw [pair_update]
      rfl
    | host a =>
      obtain ⟨c, k, hstep, rfl⟩ := Dual.step_host.mp hs
      exact Pair.step_host.mpr ⟨c, k, hstep, rfl⟩
    | patch g i q =>
      obtain ⟨⟨hq, rfl⟩, rfl⟩ := Dual.step_patch.mp hs
      refine Pair.step_patch.mpr ⟨hq, ?_⟩
      rw [pair_update]
      exact congrArg (Pair.mk · (Pair.landed s.host g)) (Function.update_eq_self g s.pair.gpu)
    | token g t =>
      obtain ⟨hq, rfl⟩ := Dual.step_token.mp hs
      refine Pair.step_token.mpr ⟨hq, ?_⟩
      rw [pair_update]
      rfl

end Data

/-! ## The view of one GPU -/

/-- What a step of the pair is for GPU `g`. -/
def PEv.side (g : Fin 2) : PEv n → Option (Ev n)
  | .dev g' b a => if g' = g then some (.blk b a) else none
  | .host (.ring g') => if g' = g then some .ring else none
  | .token g' t => if g' = g then some (.token t) else none
  | _ => none

/-- The history of GPU `g`. -/
def pairSide (g : Fin 2) (τ : List (PEv n)) : List (Ev n) := τ.filterMap (PEv.side g)

/-- The host of the pair writes the cells of a GPU that a host may write. -/
theorem DualStep.cells {c c' : Fin 2 → Cells} {h h' : DualHost} {a : DualAct}
    (hs : DualStep prog c h a c' h') (g : Fin 2) :
    (a = .ring g ∧ c' g = (c g).hostWrite (h.pass g) (c g).token) ∨ (a ≠ .ring g ∧ c' g = c g) := by
  cases hs with
  | @ring g' hp =>
    by_cases hg : g' = g
    · subst hg
      refine Or.inl ⟨rfl, ?_⟩
      rw [Function.update_self]
      rfl
    · refine Or.inr ⟨fun heq => hg (DualAct.ring.inj heq), ?_⟩
      rw [Function.update_of_ne (Ne.symm hg)]
  | _ => exact Or.inr ⟨nofun, rfl⟩

/-- **A GPU of the pair is a GPU under some host.** -/
theorem Pair.run_side {τ : List (PEv n)} {s : Pair n} (h : (Pair.lts n prog).Run τ s) (g : Fin 2) :
    (Gpu.anyHost n prog).Run (pairSide g τ) (s.gpu g) := by
  refine Lts.Run.project (fun s : Pair n => s.gpu g) (PEv.side g) ?_ ?_ h
  · rintro s rfl
    rfl
  · intro τ s e s' _ _ hs
    cases e with
    | dev g' b a =>
      obtain ⟨c, k, hstep, rfl⟩ := Pair.step_dev.mp hs
      by_cases hg : g' = g
      · subst hg
        rw [PEv.side, if_pos rfl]
        refine Gpu.step_blk.mpr ⟨c, k, hstep, ?_⟩
        exact Function.update_self _ _ _
      · rw [PEv.side, if_neg hg]
        exact Function.update_of_ne (Ne.symm hg) _ _
    | host a =>
      obtain ⟨c, k, hstep, rfl⟩ := Pair.step_host.mp hs
      obtain ⟨rfl, hc⟩ | ⟨hne, hc⟩ := hstep.cells g
      · rw [PEv.side, if_pos rfl]
        exact ⟨_, _, congrArg (Gpu.mk · (s.gpu g).block) hc⟩
      · have hside : (PEv.host a : PEv n).side g = none := by
          cases a with
          | ring g' => exact if_neg fun hg => hne (congrArg DualAct.ring hg)
          | _ => rfl
        rw [hside]
        simp only [hc]
    | patch g' i =>
      obtain ⟨-, rfl⟩ := Pair.step_patch.mp hs
      rfl
    | token g' t =>
      obtain ⟨-, rfl⟩ := Pair.step_token.mp hs
      by_cases hg : g' = g
      · subst hg
        rw [PEv.side, if_pos rfl]
        refine ⟨(s.gpu g').cells.doorbellHost, t, ?_⟩
        exact Function.update_self _ _ _
      · rw [PEv.side, if_neg hg]
        exact Function.update_of_ne (Ne.symm hg) _ _

end Megakernel
