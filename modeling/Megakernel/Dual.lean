import Megakernel.Partial

/-!
# The pair and its host (`dual_run_pass`)

Two GPUs that run the same split program, each with its own control cells, its own
boundary and its own `proj_out`, joined through the mailboxes and through the host
loop of `dual_run_pass`. The inbox of a GPU is the mailbox that its peer writes
(`gpu_wire_mailboxes` maps `my_*` of one GPU and `peer_*` of the other to the same
cells), and loads of the inbox are strong.

The seqno patches and the token ride a copy stream for each GPU. A copy lands at
any time after it was enqueued and reads its source only then, the host goes on
to ring a GPU only when that GPU's stream is empty.

`run_dualOk` discharges what `XGpu.lts` assumes of its host: nothing is patched
while a pass is in flight, and what is rung is the number every reduce carries.
It also bounds how far the GPUs can be apart: the host is inside the same call
for both, so neither has finished more than one pass fewer than the host has
begun.

The seqno patch and the token are asynchronous copies, and the source of the patch is a single host
variable that the next call overwrites. That a late copy does not read the number of another pass is
a part of `HostAt`: nothing is left in a stream when the next call begins.
-/

namespace Megakernel

variable {V : Type*} {n N : ℕ}

/-- A copy on its way to a GPU: a seqno patch of one instruction, or the token. It has been enqueued
by the host and lands at a time of its own. -/
inductive Copy : Type where
  /-- `s_seq` to the seqno field of instruction `i` -/
  | seqno (i : ℕ)
  /-- `token` to `d_token` -/
  | token
  deriving DecidableEq

/-- The place of the host in `dual_run_pass`. The host goes through the GPUs one after the other in
every stage, and a place tells both the stage and the GPU. -/
inductive DualPc : Type where
  /-- between two calls -/
  | idle
  /-- about to test the error mirror of GPU `g` and to enqueue its copies -/
  | enqueue (g : Fin 2)
  /-- waiting for the copy stream of GPU `g` -/
  | sync (g : Fin 2)
  /-- about to ring GPU `g` -/
  | bell (g : Fin 2)
  /-- in the loop, about to load the error mirror of GPU `g` -/
  | pollErr (g : Fin 2)
  /-- in the loop, about to load the done cell of GPU 0 -/
  | pollDone0
  /-- in the loop, about to load the done cell of GPU 1 -/
  | pollDone1 (d0 : Bool)
  /-- in the loop, both done cells loaded -/
  | test (d0 d1 : Bool)
  /-- returned false: the callers stop -/
  | failed
  deriving DecidableEq

/-- The host of the pair: its place, the seqno and the token of the current call, and for each GPU
`h.pass` and the copy stream. -/
structure DualHost : Type where
  /-- `s_seq`, the seqno of the current call -/
  seqno : U32
  /-- the token of the current call -/
  token : U32
  /-- `h.pass` of each GPU -/
  pass : Fin 2 → U32
  /-- the copy stream of each GPU -/
  queue : Fin 2 → List Copy
  /-- place in the code -/
  pc : DualPc

/-- The steps of the host. -/
inductive DualAct : Type where
  /-- `dual_run_pass(g2, t, ++pass)` is called -/
  | call (t : U32)
  /-- an error of GPU `g` is already set: return false -/
  | refuse (g : Fin 2)
  /-- no error of GPU `g` is set: enqueue its copies, `h.pass += 1` -/
  | enqueue (g : Fin 2)
  /-- the copy stream of GPU `g` is empty -/
  | sync (g : Fin 2)
  /-- `*h_doorbell = h.pass` for GPU `g` -/
  | ring (g : Fin 2)
  /-- the error mirror of GPU `g` is set: return false -/
  | sawErr (g : Fin 2)
  /-- the error mirror of GPU `g` is clear -/
  | noErr (g : Fin 2)
  /-- `d0 = h_done[0] == h.pass` of GPU 0 -/
  | done0 (d : Bool)
  /-- `d1 = h_done[0] == h.pass` of GPU 1 -/
  | done1 (d : Bool)
  /-- both are done: return true -/
  | ret
  /-- past the deadline: return false -/
  | timeout
  /-- before the deadline: poll again -/
  | again
  deriving DecidableEq

/-- The place behind a stage that is done for GPU 0 and then for GPU 1. -/
def DualPc.next (g : Fin 2) (again behind : DualPc) : DualPc := if g = 0 then again else behind

/-- One step of the host, on the control cells of the GPUs. The deadline is the environment's: it
may pass at any poll, so that what is proved does not depend on how long a GPU takes. -/
def dualAct (prog : List (Instr XArgs)) (c : Fin 2 → Cells) (h : DualHost) :
    DualAct → Option ((Fin 2 → Cells) × DualHost)
  | .call t =>
    if h.pc = .idle then
      some (c, { h with seqno := h.seqno + 1, token := t, pc := .enqueue 0 })
    else none
  | .refuse g =>
    if h.pc = .enqueue g ∧ (c g).errHostCode ≠ 0 then some (c, { h with pc := .failed }) else none
  | .enqueue g =>
    if h.pc = .enqueue g ∧ (c g).errHostCode = 0 then
      some (c, { h with
        pass := Function.update h.pass g (h.pass g + 1)
        queue := Function.update h.queue g
          (h.queue g ++ ((xchgIdx prog).map Copy.seqno ++ [.token]))
        pc := .next g (.enqueue 1) (.sync 0) })
    else none
  | .sync g =>
    if h.pc = .sync g ∧ h.queue g = [] then some (c, { h with pc := .bell g }) else none
  | .ring g =>
    if h.pc = .bell g then
      some (Function.update c g { c g with doorbellHost := h.pass g },
        { h with pc := .next g (.sync 1) (.pollErr 0) })
    else none
  | .sawErr g =>
    if h.pc = .pollErr g ∧ (c g).errHostCode ≠ 0 then some (c, { h with pc := .failed }) else none
  | .noErr g =>
    if h.pc = .pollErr g ∧ (c g).errHostCode = 0 then
      some (c, { h with pc := .next g (.pollErr 1) .pollDone0 })
    else none
  | .done0 d =>
    if h.pc = .pollDone0 ∧ d = decide ((c 0).done = h.pass 0) then
      some (c, { h with pc := .pollDone1 d })
    else none
  | .done1 d =>
    match h.pc with
    | .pollDone1 d0 =>
      if d = decide ((c 1).done = h.pass 1) then some (c, { h with pc := .test d0 d }) else none
    | _ => none
  | .ret => if h.pc = .test true true then some (c, { h with pc := .idle }) else none
  | .timeout =>
    match h.pc with
    | .test d0 d1 => if (d0 && d1) = false then some (c, { h with pc := .failed }) else none
    | _ => none
  | .again =>
    match h.pc with
    | .test d0 d1 => if (d0 && d1) = false then some (c, { h with pc := .pollErr 0 }) else none
    | _ => none

/-- What the steps of the host do, one rule for each: the inversion of `dualAct`. -/
inductive DualStep (prog : List (Instr XArgs)) (c : Fin 2 → Cells) (h : DualHost) :
    DualAct → (Fin 2 → Cells) → DualHost → Prop where
  | call {t : U32} : h.pc = .idle → DualStep prog c h (.call t) c
      { h with seqno := h.seqno + 1, token := t, pc := .enqueue 0 }
  | refuse {g : Fin 2} : h.pc = .enqueue g → (c g).errHostCode ≠ 0 →
      DualStep prog c h (.refuse g) c { h with pc := .failed }
  | enqueue {g : Fin 2} : h.pc = .enqueue g → (c g).errHostCode = 0 →
      DualStep prog c h (.enqueue g) c { h with
        pass := Function.update h.pass g (h.pass g + 1)
        queue := Function.update h.queue g
          (h.queue g ++ ((xchgIdx prog).map Copy.seqno ++ [.token]))
        pc := .next g (.enqueue 1) (.sync 0) }
  | sync {g : Fin 2} : h.pc = .sync g → h.queue g = [] →
      DualStep prog c h (.sync g) c { h with pc := .bell g }
  | ring {g : Fin 2} : h.pc = .bell g →
      DualStep prog c h (.ring g) (Function.update c g { c g with doorbellHost := h.pass g })
        { h with pc := .next g (.sync 1) (.pollErr 0) }
  | sawErr {g : Fin 2} : h.pc = .pollErr g → (c g).errHostCode ≠ 0 →
      DualStep prog c h (.sawErr g) c { h with pc := .failed }
  | noErr {g : Fin 2} : h.pc = .pollErr g → (c g).errHostCode = 0 →
      DualStep prog c h (.noErr g) c { h with pc := .next g (.pollErr 1) .pollDone0 }
  | done0 {d : Bool} : h.pc = .pollDone0 → d = decide ((c 0).done = h.pass 0) →
      DualStep prog c h (.done0 d) c { h with pc := .pollDone1 d }
  | done1 {d d0 : Bool} : h.pc = .pollDone1 d0 → d = decide ((c 1).done = h.pass 1) →
      DualStep prog c h (.done1 d) c { h with pc := .test d0 d }
  | ret : h.pc = .test true true → DualStep prog c h .ret c { h with pc := .idle }
  | timeout {d0 d1 : Bool} : h.pc = .test d0 d1 → (d0 && d1) = false →
      DualStep prog c h .timeout c { h with pc := .failed }
  | again {d0 d1 : Bool} : h.pc = .test d0 d1 → (d0 && d1) = false →
      DualStep prog c h .again c { h with pc := .pollErr 0 }

/-- The host's step function takes exactly the steps the rules allow. -/
theorem dualAct_eq_some {prog : List (Instr XArgs)} {c c' : Fin 2 → Cells} {h h' : DualHost}
    {a : DualAct} : dualAct prog c h a = some (c', h') ↔ DualStep prog c h a c' h' := by
  refine ⟨fun hs => ?_, fun hs => ?_⟩
  · cases a with
    | done1 d =>
      rcases hp : h.pc with _ | _ | _ | _ | _ | _ | d0 | _ | _ <;>
        simp only [dualAct, hp, Option.ite_none_right_eq_some, Option.some.injEq, Prod.mk.injEq,
          reduceCtorEq] at hs
      obtain ⟨hg, rfl, rfl⟩ := hs
      exact .done1 hp hg
    | timeout =>
      rcases hp : h.pc with _ | _ | _ | _ | _ | _ | _ | ⟨d0, d1⟩ | _ <;>
        simp only [dualAct, hp, Option.ite_none_right_eq_some, Option.some.injEq, Prod.mk.injEq,
          reduceCtorEq] at hs
      obtain ⟨hg, rfl, rfl⟩ := hs
      exact .timeout hp hg
    | again =>
      rcases hp : h.pc with _ | _ | _ | _ | _ | _ | _ | ⟨d0, d1⟩ | _ <;>
        simp only [dualAct, hp, Option.ite_none_right_eq_some, Option.some.injEq, Prod.mk.injEq,
          reduceCtorEq] at hs
      obtain ⟨hg, rfl, rfl⟩ := hs
      exact .again hp hg
    | _ =>
      simp only [dualAct, Option.ite_none_right_eq_some, Option.some.injEq, Prod.mk.injEq] at hs
      obtain ⟨hg, rfl, rfl⟩ := hs
      first
        | exact .call hg | exact .refuse hg.1 hg.2 | exact .enqueue hg.1 hg.2
        | exact .sync hg.1 hg.2 | exact .ring hg | exact .sawErr hg.1 hg.2
        | exact .noErr hg.1 hg.2 | exact .done0 hg.1 hg.2 | exact .ret hg
  · cases hs <;> simp_all [dualAct]

/-- The pair and its host. Each GPU has all of its state for itself; what they share is that the
inbox of one is the mailbox that the other writes. -/
structure Dual (n : ℕ) (V : Type*) where
  gpu : Fin 2 → XGpu n V
  host : DualHost

/-- A step of a block, of the host or of a copy stream. -/
inductive DEv (n : ℕ) (V : Type*) where
  /-- block `b` of GPU `g` does `x` -/
  | dev (g : Fin 2) (b : Fin n) (x : XAct V)
  | host (a : DualAct)
  /-- the copy of `q` to the seqno field of instruction `i` of GPU `g` lands -/
  | patch (g : Fin 2) (i : ℕ) (q : U32)
  /-- the copy of `t` to the token cell of GPU `g` lands -/
  | token (g : Fin 2) (t : U32)
  deriving DecidableEq

/-- Loads of the inbox return what is there. -/
def XAct.reads [DecidableEq V] (prog : List (Instr XArgs)) (inbox : Mail V) : XAct V → Bool
  | .wait i _ v | .acquire i _ v => decide (v = inbox.seqno (siteAt prog i))
  | .fold i e _ w => decide (w = inbox.payload (siteAt prog i) e)
  | _ => true

/-- Replace the control cells. -/
def XGpu.setCells (s : XGpu n V) (c : Cells) : XGpu n V := { s with ctl := ⟨c, s.ctl.block⟩ }

namespace Dual

/-- The inbox of GPU `g`: what the peer of GPU `g` writes. There is no buffer in between, so that a
store is seen by the next load. -/
def inbox (s : Dual n V) (g : Fin 2) : Mail V := (s.gpu g.rev).mail

/-- After `dual_setup`. -/
def zero [Zero V] (n : ℕ) : Dual n V :=
  ⟨fun _ => .zero n, ⟨0, 0, fun _ => 0, fun _ => [], .idle⟩⟩

variable [DecidableEq V] [Add V] (P : SplitProgram n N) (T : ℕ) (stale : Bool)

/-- One step of the pair. -/
def step (s : Dual n V) : DEv n V → Option (Dual n V)
  | .dev g b x =>
    if x.reads P.prog (s.inbox g) = true then
      ((s.gpu g).step P T stale g (.blk b x)).map fun c =>
        { s with gpu := Function.update s.gpu g c }
    else none
  | .host a =>
    (dualAct P.prog (fun g => (s.gpu g).ctl.cells) s.host a).map fun r =>
      ⟨fun g => (s.gpu g).setCells (r.1 g), r.2⟩
  | .patch g i q =>
    if (s.host.queue g).head? = some (.seqno i) ∧ q = s.host.seqno then
      some ⟨Function.update s.gpu g
          { s.gpu g with seqno := Function.update (s.gpu g).seqno i q },
        { s.host with queue := Function.update s.host.queue g (s.host.queue g).tail }⟩
    else none
  | .token g t =>
    if (s.host.queue g).head? = some .token ∧ t = s.host.token then
      some ⟨Function.update s.gpu g
          ((s.gpu g).setCells { (s.gpu g).ctl.cells with token := t }),
        { s.host with queue := Function.update s.host.queue g (s.host.queue g).tail }⟩
    else none

/-- The pair as a transition system. -/
def lts [Zero V] : Lts (Dual n V) (DEv n V) := Lts.ofFun (zero n) (step P T stale)

variable {P T stale} {s s' : Dual n V}

theorem step_dev {g : Fin 2} {b : Fin n} {x : XAct V} :
    step P T stale s (.dev g b x) = some s' ↔
      x.reads P.prog (s.inbox g) = true ∧ ∃ c, (s.gpu g).step P T stale g (.blk b x) = some c ∧
        s' = { s with gpu := Function.update s.gpu g c } := by
  simp only [step, Option.ite_none_right_eq_some, Option.map_eq_some_iff, eq_comm (a := s')]

theorem step_host {a : DualAct} :
    step P T stale s (.host a) = some s' ↔
      ∃ c h, DualStep P.prog (fun g => (s.gpu g).ctl.cells) s.host a c h ∧
        s' = ⟨fun g => (s.gpu g).setCells (c g), h⟩ := by
  simp only [step, Option.map_eq_some_iff, Prod.exists, dualAct_eq_some, eq_comm (a := s')]

theorem step_patch {g : Fin 2} {i : ℕ} {q : U32} :
    step P T stale s (.patch g i q) = some s' ↔
      ((s.host.queue g).head? = some (.seqno i) ∧ q = s.host.seqno) ∧
        s' = ⟨Function.update s.gpu g
            { s.gpu g with seqno := Function.update (s.gpu g).seqno i q },
          { s.host with queue := Function.update s.host.queue g (s.host.queue g).tail }⟩ := by
  simp only [step, Option.ite_none_right_eq_some, Option.some.injEq, eq_comm (a := s')]

theorem step_token {g : Fin 2} {t : U32} :
    step P T stale s (.token g t) = some s' ↔
      ((s.host.queue g).head? = some .token ∧ t = s.host.token) ∧
        s' = ⟨Function.update s.gpu g
            ((s.gpu g).setCells { (s.gpu g).ctl.cells with token := t }),
          { s.host with queue := Function.update s.host.queue g (s.host.queue g).tail }⟩ := by
  simp only [step, Option.ite_none_right_eq_some, Option.some.injEq, eq_comm (a := s')]

end Dual

/-! ## The view of one GPU -/

/-- What a step of the pair is for GPU `g`. -/
def DEv.side (g : Fin 2) : DEv n V → Option (XEv n V)
  | .dev g' b x => if g' = g then some (.blk b x) else none
  | .host (.ring g') => if g' = g then some .ring else none
  | .host _ => none
  | .patch g' i q => if g' = g then some (.patch i q) else none
  | .token g' t => if g' = g then some (.token t) else none

/-- The history of GPU `g`, in which the host of the pair and its copies appear as the environment
of a single GPU. -/
def sideOf (g : Fin 2) (τ : List (DEv n V)) : List (XEv n V) := τ.filterMap (DEv.side g)

/-- How often `dual_run_pass` has been called. -/
def calls (τ : List (DEv n V)) : ℕ :=
  τ.countP fun
    | .host (.call _) => true
    | _ => false

/-! ## The host's invariant -/

/-- The host has enqueued the copies of GPU `g` for the current call. -/
def DualPc.enqueued : DualPc → Fin 2 → Bool
  | .enqueue g', g => decide (g < g')
  | _, _ => true

/-- The host has rung GPU `g` for the current call. -/
def DualPc.rung : DualPc → Fin 2 → Bool
  | .enqueue _, _ => false
  | .sync g', g | .bell g', g => decide (g < g')
  | _, _ => true

/-- The host has seen that GPU `g` is done with the current call. -/
def DualPc.knowsDone : DualPc → Fin 2 → Bool
  | .idle, _ => true
  | .pollDone1 d0, g => decide (g = 0) && d0
  | .test d0 d1, g => if g = 0 then d0 else d1
  | _, _ => false

/-- Where the host stands towards a GPU, when it has begun `C` calls and rung the GPU `R` times: the
GPU's `h.pass`, copy stream and seqno fields, by the stage of the call. Between the calls, and on a
GPU that the stage has not come to, nothing of the new call is there yet. -/
structure HostAt (prog : List (Instr XArgs)) (C R : ℕ) (h : DualHost) (g : Fin 2)
    (s : XGpu n V) : Prop where
  before : h.pc.enqueued g = false → h.pass g + 1 = BitVec.ofNat 32 C ∧ h.queue g = []
  pass : h.pc.enqueued g = true → h.pass g = BitVec.ofNat 32 C
  /-- every seqno of the call has landed or is on its way -/
  patched : h.pc.enqueued g = true →
    ∀ i ∈ xchgIdx prog, .seqno i ∈ h.queue g ∨ s.seqno i = BitVec.ofNat 32 C
  unrung : h.pc.rung g = false → R + 1 = C
  rung : h.pc.rung g = true → R = C ∧ h.queue g = []
  flushed : h.pc = .bell g → h.queue g = []
  done : h.pc.knowsDone g = true → s.ctl.cells.done.toNat = C

/-- The invariant of the pair: the GPUs run as `XGpu.lts` allows, and the host is inside the same
call for both. The second part is what bounds how far the two GPUs can be apart. -/
structure DualOk [DecidableEq V] [Add V] [Zero V] (P : SplitProgram n N) (T : ℕ) (stale : Bool)
    (τ : List (DEv n V)) (s : Dual n V) : Prop where
  run : ∀ g, (XGpu.lts P T stale g).Run (sideOf g τ) (s.gpu g)
  rings_le : ∀ g, rings (ctlOf (sideOf g τ)) ≤ calls τ
  le_done : ∀ g, calls τ ≤ (s.gpu g).ctl.cells.done.toNat + 1
  seqno : s.host.seqno = BitVec.ofNat 32 (calls τ)
  /-- copies land before the GPU is rung -/
  queue : ∀ g, s.host.queue g ≠ [] → rings (ctlOf (sideOf g τ)) + 1 = calls τ
  place : s.host.pc ≠ .failed →
    ∀ g, HostAt P.prog (calls τ) (rings (ctlOf (sideOf g τ))) s.host g (s.gpu g)

section Side

variable {g : Fin 2} {τ : List (DEv n V)}

theorem sideOf_cons_none {e : DEv n V} (h : e.side g = none) : sideOf g (e :: τ) = sideOf g τ :=
  List.filterMap_cons_none h

theorem sideOf_cons_some {e : DEv n V} {x : XEv n V} (h : e.side g = some x) :
    sideOf g (e :: τ) = x :: sideOf g τ :=
  List.filterMap_cons_some h

/-- Ringing is the only step that counts. -/
theorem rings_sideOf_cons {e : DEv n V} (h : e ≠ .host (.ring g)) :
    rings (ctlOf (sideOf g (e :: τ))) = rings (ctlOf (sideOf g τ)) := by
  rcases he : e.side g with _ | x
  · rw [sideOf_cons_none he]
  · rw [sideOf_cons_some he]
    cases x with
    | blk b x => exact rings_cons_blk b x.act _
    | ring =>
      cases e with
      | host a =>
        cases a with
        | ring g' =>
          by_cases hg : g' = g
          · exact absurd (congrArg (fun g => DEv.host (.ring g)) hg) h
          · simp [DEv.side, hg] at he
        | _ => cases he
      | _ =>
        simp only [DEv.side] at he
        split at he <;> cases he
    | token t => simp [ctlOf, XEv.ctl, rings]
    | patch i q => rfl

theorem calls_cons {e : DEv n V} (h : ∀ t, e ≠ .host (.call t)) :
    calls (e :: τ) = calls τ := by
  rw [calls, List.countP_cons_of_neg, calls]
  intro hc
  cases e with
  | host a =>
    cases a with
    | call t => exact h t rfl
    | _ => cases hc
  | _ => cases hc

end Side

/-- Counting on a wrapped counter. -/
theorem ofNat_succ (m : ℕ) : BitVec.ofNat 32 (m + 1) = BitVec.ofNat 32 m + 1 := by
  rw [BitVec.ofNat_add]
  rfl

section Ok

variable [DecidableEq V] [Add V] [Zero V] {P : SplitProgram n N} {T : ℕ} {stale : Bool}
  {τ : List (DEv n V)} {s s' : Dual n V}

/-- The counts of a GPU: what is done has been rung, what is rung has been called. -/
theorem DualOk.counts (hn : n < 2 ^ 31) (h : DualOk P T stale τ s) (g : Fin 2) :
    (s.gpu g).ctl.cells.doorbellHost = BitVec.ofNat 32 (rings (ctlOf (sideOf g τ))) ∧
      (s.gpu g).ctl.cells.done.toNat ≤ rings (ctlOf (sideOf g τ)) ∧
      (s.gpu g).ctl.cells.done.toNat < 2 ^ 32 - 1 := by
  have hb : Base P _ _ := run_base hn (h.run g)
  refine ⟨?_, hb.lock.done_le, hb.lock.done_lt⟩
  rw [← hb.stops.door, BitVec.ofNat_toNat, BitVec.setWidth_eq]

/-- While copies are on their way the GPU is quiet. -/
theorem DualOk.quiet (hn : n < 2 ^ 31) (h : DualOk P T stale τ s) {g : Fin 2}
    (hR : rings (ctlOf (sideOf g τ)) + 1 = calls τ) : (s.gpu g).ctl.Quiet := by
  obtain ⟨hdoor, hle, -⟩ := h.counts hn g
  have hge := h.le_done g
  have hdone : (s.gpu g).ctl.cells.done.toNat = rings (ctlOf (sideOf g τ)) := by omega
  rw [Gpu.Quiet, hdoor, ← hdone, BitVec.ofNat_toNat, BitVec.setWidth_eq]

omit [Zero V] in
/-- What a block step leaves alone. -/
theorem XGpu.step_frame {τ : List (XEv n V)} {s s' : XGpu n V} {g : Fin 2} (hb : Base P τ s)
    {b : Fin n} {x : XAct V} (hs : XGpu.step P T stale g s (.blk b x) = some s') :
    s'.seqno = s.seqno ∧ s.ctl.cells.done.toNat ≤ s'.ctl.cells.done.toNat ∧
      (s.ctl.cells.done.toNat = rings (ctlOf τ) → s'.ctl.cells.done = s.ctl.cells.done) := by
  obtain ⟨-, c, hc, rfl⟩ := XGpu.step_blk.mp hs
  obtain ⟨c', k, hstep, rfl⟩ := Gpu.step_blk.mp hc
  refine ⟨XAct.effect_seqno x s b, ?_, fun hq => hb.lock.done_eq_of_quiet hq hstep⟩
  have hzero := hb.lock.zero b
  generalize x.act = a at hstep
  cases hstep with
  | publish hp h0 => exact (Nat.le_succ _).trans (hzero h0).done.le
  | store => exact (congrArg BitVec.toNat (Raise.write_done _ _)).ge
  | _ => exact le_rfl

omit [DecidableEq V] [Add V] [Zero V] in
theorem HostAt.frame {prog : List (Instr XArgs)} {C R : ℕ} {h : DualHost} {g : Fin 2}
    {s s' : XGpu n V} (hat : HostAt prog C R h g s) (hseq : s'.seqno = s.seqno)
    (hdone : s.ctl.cells.done.toNat = C → s'.ctl.cells.done = s.ctl.cells.done) :
    HostAt prog C R h g s' where
  before := hat.before
  pass := hat.pass
  patched he i hi := by
    rw [hseq]
    exact hat.patched he i hi
  unrung := hat.unrung
  rung := hat.rung
  flushed := hat.flushed
  done hk := by
    rw [hdone (hat.done hk)]
    exact hat.done hk

omit [DecidableEq V] [Add V] [Zero V] in
/-- The host moves within a stage of the call. -/
theorem HostAt.move {prog : List (Instr XArgs)} {C R : ℕ} {h : DualHost} {g : Fin 2}
    {s : XGpu n V} (hat : HostAt prog C R h g s) {pc : DualPc}
    (henq : pc.enqueued g = h.pc.enqueued g) (hrung : pc.rung g = h.pc.rung g)
    (hflush : pc = .bell g → h.queue g = [])
    (hdone : pc.knowsDone g = true → s.ctl.cells.done.toNat = C) :
    HostAt prog C R { h with pc := pc } g s where
  before he := hat.before (henq ▸ he)
  pass he := hat.pass (henq ▸ he)
  patched he := hat.patched (henq ▸ he)
  unrung hr := hat.unrung (hrung ▸ hr)
  rung hr := hat.rung (hrung ▸ hr)
  flushed := hflush
  done := hdone

/-- A step of a block. -/
theorem DualOk.dev (hn : n < 2 ^ 31) (h : DualOk P T stale τ s) {g : Fin 2} {b : Fin n}
    {x : XAct V} (hs : Dual.step P T stale s (.dev g b x) = some s') :
    DualOk P T stale (.dev g b x :: τ) s' := by
  obtain ⟨-, c, hc, rfl⟩ := Dual.step_dev.mp hs
  have hb : Base P _ _ := run_base hn (h.run g)
  obtain ⟨hseq, hmono, hquiet⟩ := XGpu.step_frame hb hc
  have hR : ∀ g', rings (ctlOf (sideOf g' (.dev g b x :: τ))) = rings (ctlOf (sideOf g' τ)) :=
    fun g' => rings_sideOf_cons nofun
  have hC : calls (.dev g b x :: τ) = calls τ := calls_cons nofun
  refine ⟨fun g' => ?_, fun g' => ?_, fun g' => ?_, ?_, fun g' hq => ?_, fun hpc g' => ?_⟩
  · rcases eq_or_ne g g' with rfl | hne
    · rw [sideOf_cons_some (show DEv.side g (.dev g b x) = some (.blk b x) from if_pos rfl)]
      simp only [Function.update_self]
      exact (h.run g).snoc hc
    · rw [sideOf_cons_none (show DEv.side g' (.dev g b x) = none from if_neg hne)]
      simp only [Function.update_of_ne hne.symm]
      exact h.run g'
  · rw [hR, hC]
    exact h.rings_le g'
  · rw [hC]
    rcases eq_or_ne g g' with rfl | hne
    · simp only [Function.update_self]
      exact (h.le_done g).trans (Nat.succ_le_succ hmono)
    · simp only [Function.update_of_ne hne.symm]
      exact h.le_done g'
  · rw [hC]
    exact h.seqno
  · rw [hR, hC]
    exact h.queue g' hq
  · rw [hR, hC]
    have hat := h.place hpc g'
    rcases eq_or_ne g g' with rfl | hne
    · simp only [Function.update_self]
      refine hat.frame hseq fun hdone => hquiet ?_
      have := h.rings_le g
      have := (h.counts hn g).2.1
      omega
    · simp only [Function.update_of_ne hne.symm]
      exact hat

/-- A copy lands. The GPU is quiet then, since the host rings it only behind its copies. -/
theorem DualOk.land (hn : n < 2 ^ 31) (h : DualOk P T stale τ s) {e : DEv n V} {g : Fin 2}
    {x : XEv n V} {c : XGpu n V} (hside : ∀ g', e.side g' = if g = g' then some x else none)
    (hring : ∀ g', e ≠ .host (.ring g')) (hcall : ∀ t, e ≠ .host (.call t))
    (hq : s.host.queue g ≠ [])
    (hc : (s.gpu g).ctl.Quiet → XGpu.step P T stale g (s.gpu g) x = some c)
    (hdone : c.ctl.cells.done = (s.gpu g).ctl.cells.done)
    (hpatch : ∀ i, .seqno i ∈ s.host.queue g ∨ (s.gpu g).seqno i = s.host.seqno →
      .seqno i ∈ (s.host.queue g).tail ∨ c.seqno i = s.host.seqno) :
    DualOk P T stale (e :: τ) ⟨Function.update s.gpu g c,
      { s.host with queue := Function.update s.host.queue g (s.host.queue g).tail }⟩ := by
  have hR : ∀ g', rings (ctlOf (sideOf g' (e :: τ))) = rings (ctlOf (sideOf g' τ)) :=
    fun g' => rings_sideOf_cons (hring g')
  have hC : calls (e :: τ) = calls τ := calls_cons hcall
  have htail : ∀ g', Function.update s.host.queue g (s.host.queue g).tail g' ≠ [] →
      s.host.queue g' ≠ [] := by
    intro g' hne
    rcases eq_or_ne g' g with rfl | hg
    · exact hq
    · rwa [Function.update_of_ne hg] at hne
  refine ⟨fun g' => ?_, fun g' => ?_, fun g' => ?_, ?_, fun g' hne => ?_, fun hpc g' => ?_⟩
  · rcases eq_or_ne g g' with rfl | hne
    · rw [sideOf_cons_some ((hside g).trans (if_pos rfl))]
      simp only [Function.update_self]
      exact (h.run g).snoc (hc (h.quiet hn (h.queue g hq)))
    · rw [sideOf_cons_none ((hside g').trans (if_neg hne))]
      simp only [Function.update_of_ne hne.symm]
      exact h.run g'
  · rw [hR, hC]
    exact h.rings_le g'
  · rw [hC]
    rcases eq_or_ne g g' with rfl | hne
    · simp only [Function.update_self, hdone]
      exact h.le_done g
    · simp only [Function.update_of_ne hne.symm]
      exact h.le_done g'
  · rw [hC]
    exact h.seqno
  · rw [hR, hC]
    exact h.queue g' (htail g' hne)
  · rw [hR, hC]
    have hat := h.place hpc g'
    rcases eq_or_ne g g' with rfl | hne
    · refine ⟨fun he => absurd (hat.before he).2 hq, hat.pass, fun he i hi => ?_, hat.unrung,
        fun hr => absurd (hat.rung hr).2 hq, fun hb => absurd (hat.flushed hb) hq, fun hk => ?_⟩
      · have hold := hat.patched he i hi
        simp only [Function.update_self]
        rw [← h.seqno] at hold ⊢
        exact hpatch i hold
      · simp only [Function.update_self, hdone]
        exact hat.done hk
    · simp only [Function.update_of_ne hne.symm]
      refine ⟨fun he => ?_, hat.pass, fun he i hi => ?_, hat.unrung, fun hr => ?_, fun hb => ?_,
        hat.done⟩
      · simpa only [Function.update_of_ne hne.symm] using hat.before he
      · simpa only [Function.update_of_ne hne.symm] using hat.patched he i hi
      · simpa only [Function.update_of_ne hne.symm] using hat.rung hr
      · simpa only [Function.update_of_ne hne.symm] using hat.flushed hb

/-- A step of the host other than calling and ringing. -/
theorem DualOk.think (h : DualOk P T stale τ s) {a : DualAct} (hring : ∀ g, a ≠ .ring g)
    (hcall : ∀ t, a ≠ .call t) {k : DualHost} (hseq : k.seqno = s.host.seqno)
    (hqueue : ∀ g, k.queue g ≠ [] → rings (ctlOf (sideOf g τ)) + 1 = calls τ)
    (hplace : k.pc ≠ .failed → s.host.pc ≠ .failed ∧ ∀ g,
      HostAt P.prog (calls τ) (rings (ctlOf (sideOf g τ))) s.host g (s.gpu g) →
      HostAt P.prog (calls τ) (rings (ctlOf (sideOf g τ))) k g (s.gpu g)) :
    DualOk P T stale (.host a :: τ) ⟨s.gpu, k⟩ := by
  have hside : ∀ g, DEv.side g (.host a : DEv n V) = none := by
    intro g
    cases a with
    | ring g' => exact absurd rfl (hring g')
    | _ => rfl
  have hC : calls (.host a :: τ) = calls τ :=
    calls_cons fun t he => hcall t (DEv.host.inj he)
  refine ⟨fun g => ?_, fun g => ?_, fun g => ?_, ?_, fun g hq => ?_, fun hpc g => ?_⟩
  · rw [sideOf_cons_none (hside g)]
    exact h.run g
  · rw [sideOf_cons_none (hside g), hC]
    exact h.rings_le g
  · rw [hC]
    exact h.le_done g
  · rw [hC, hseq]
    exact h.seqno
  · rw [sideOf_cons_none (hside g), hC]
    exact hqueue g hq
  · rw [sideOf_cons_none (hside g), hC]
    obtain ⟨hold, hat⟩ := hplace hpc
    exact hat g (h.place hold g)

/-- The caller begins the next pass. -/
theorem DualOk.call (h : DualOk P T stale τ s) {t : U32} (hp : s.host.pc = .idle) :
    DualOk P T stale (.host (.call t) :: τ)
      ⟨s.gpu, { s.host with seqno := s.host.seqno + 1, token := t, pc := .enqueue 0 }⟩ := by
  have hC : calls (.host (.call t) :: τ) = calls τ + 1 := by simp [calls]
  have hat := h.place (by rw [hp]; nofun)
  refine ⟨h.run, fun g => ?_, fun g => ?_, ?_, fun g hq => ?_, fun _ g => ?_⟩
  · rw [hC]
    exact (h.rings_le g).trans (Nat.le_succ _)
  · rw [hC, (hat g).done (by rw [hp]; rfl)]
  · rw [hC, ofNat_succ, ← h.seqno]
  · exact absurd ((hat g).rung (by rw [hp]; rfl)).2 hq
  · obtain ⟨hR, hq⟩ := (hat g).rung (by rw [hp]; rfl)
    have hpass := (hat g).pass (by rw [hp]; rfl)
    rw [hC]
    refine ⟨fun _ => ⟨?_, hq⟩, nofun, nofun, fun _ => congrArg (· + 1) hR, nofun, nofun, nofun⟩
    rw [hpass, ofNat_succ]

/-- The host enqueues the copies of a GPU. -/
theorem DualOk.enqueue (h : DualOk P T stale τ s) {g : Fin 2} (hp : s.host.pc = .enqueue g) :
    DualOk P T stale (.host (.enqueue g) :: τ) ⟨s.gpu, { s.host with
      pass := Function.update s.host.pass g (s.host.pass g + 1)
      queue := Function.update s.host.queue g
        (s.host.queue g ++ ((xchgIdx P.prog).map Copy.seqno ++ [.token]))
      pc := .next g (.enqueue 1) (.sync 0) }⟩ := by
  have hplace := h.place (by rw [hp]; nofun)
  have hunrung : ∀ g', rings (ctlOf (sideOf g' τ)) + 1 = calls τ := fun g' =>
    (hplace g').unrung (by rw [hp]; rfl)
  refine h.think (a := .enqueue g) (fun _ => nofun) (fun _ => nofun) rfl
    (fun g' _ => hunrung g') fun _ => ⟨by rw [hp]; nofun,
    fun g' hat => ?_⟩
  have hpc : (DualPc.next g (.enqueue 1) (.sync 0)).rung g' = false ∧
      (DualPc.next g (.enqueue 1) (.sync 0)).knowsDone g' = false ∧
      DualPc.next g (.enqueue 1) (.sync 0) ≠ .bell g' := by
    rcases g with ⟨_ | _ | _, hg⟩
    · exact ⟨rfl, rfl, nofun⟩
    · exact ⟨rfl, rfl, nofun⟩
    · omega
  rcases eq_or_ne g g' with rfl | hne
  · have henq : (DualPc.enqueue g).enqueued g = false := decide_eq_false (lt_irrefl g)
    obtain ⟨hpass, hq⟩ := hat.before (by rw [hp]; exact henq)
    refine ⟨fun he => ?_, fun _ => ?_, fun _ i hi => Or.inl ?_, fun _ => hunrung g,
      fun hr => ?_, fun hb => absurd hb hpc.2.2, fun hk => ?_⟩
    · rcases g with ⟨_ | _ | _, hg⟩
      · cases he
      · cases he
      · omega
    · simpa only [Function.update_self] using hpass
    · simp only [Function.update_self]
      exact List.mem_append_right _ (List.mem_append_left _ (List.mem_map_of_mem hi))
    · rw [hpc.1] at hr
      cases hr
    · rw [hpc.2.1] at hk
      cases hk
  · have henq : (DualPc.next g (.enqueue 1) (.sync 0)).enqueued g' = s.host.pc.enqueued g' := by
      rw [hp]
      rcases g with ⟨_ | _ | _, hg⟩ <;> rcases g' with ⟨_ | _ | _, hg'⟩ <;>
        first | rfl | omega
    have hqueue : Function.update s.host.queue g
        (s.host.queue g ++ ((xchgIdx P.prog).map Copy.seqno ++ [.token])) g' =
          s.host.queue g' := Function.update_of_ne hne.symm _ _
    have hpass' : Function.update s.host.pass g (s.host.pass g + 1) g' = s.host.pass g' :=
      Function.update_of_ne hne.symm _ _
    refine ⟨fun he => ?_, fun he => ?_, fun he => ?_, fun _ => hunrung g', fun hr => ?_,
      fun hb => absurd hb hpc.2.2, fun hk => ?_⟩
    · simp only [hqueue, hpass']
      exact hat.before (henq ▸ he)
    · simp only [hpass']
      exact hat.pass (henq ▸ he)
    · simp only [hqueue]
      exact hat.patched (henq ▸ he)
    · rw [hpc.1] at hr
      cases hr
    · rw [hpc.2.1] at hk
      cases hk

/-- The host rings a GPU: every reduce carries the new number, because the stream that patched them
is empty. -/
theorem DualOk.ring (hn : n < 2 ^ 31) (h : DualOk P T stale τ s) {g : Fin 2}
    (hp : s.host.pc = .bell g) :
    DualOk P T stale (.host (.ring g) :: τ)
      ⟨fun g' => (s.gpu g').setCells (Function.update (fun g => (s.gpu g).ctl.cells) g
          { (s.gpu g).ctl.cells with doorbellHost := s.host.pass g } g'),
        { s.host with pc := .next g (.sync 1) (.pollErr 0) }⟩ := by
  have hplace := h.place (by rw [hp]; simp)
  have hat := hplace g
  have hR := hat.unrung (by rw [hp]; exact decide_eq_false (lt_irrefl g))
  have hpass := hat.pass (by rw [hp]; rfl)
  have hq := hat.flushed hp
  obtain ⟨hdoor, -, -⟩ := h.counts hn g
  have hC : calls (.host (.ring g) :: τ) = calls τ := calls_cons (by simp)
  have hself : DEv.side g (.host (.ring g) : DEv n V) = some .ring := if_pos rfl
  have hother : ∀ {g'}, g ≠ g' → DEv.side g' (.host (.ring g) : DEv n V) = none :=
    fun hne => if_neg hne
  have hgpu : ∀ {g'}, g ≠ g' → (s.gpu g').setCells (Function.update
      (fun g => (s.gpu g).ctl.cells) g
      { (s.gpu g).ctl.cells with doorbellHost := s.host.pass g } g') = s.gpu g' := by
    intro g' hne
    rw [Function.update_of_ne hne.symm]
    rfl
  have hbell : (s.gpu g).ctl.cells.doorbellHost + 1 = s.host.pass g := by
    rw [hdoor, hpass, ← hR, ofNat_succ]
  have hrings : rings (ctlOf (sideOf g (.host (.ring g) :: τ))) = calls τ := by
    rw [sideOf_cons_some hself, ← hR]
    simp [ctlOf, XEv.ctl, rings]
  have hrings' : ∀ {g'}, g ≠ g' → rings (ctlOf (sideOf g' (.host (.ring g) :: τ))) =
      rings (ctlOf (sideOf g' τ)) := fun hne => by rw [sideOf_cons_none (hother hne)]
  refine ⟨fun g' => ?_, fun g' => ?_, fun g' => ?_, ?_, fun g' hne => ?_, fun _ g' => ?_⟩
  · rcases eq_or_ne g g' with rfl | hne
    · rw [sideOf_cons_some hself]
      refine (h.run g).snoc (XGpu.step_ring.mpr ⟨fun i hi => ?_, _,
        Gpu.step_ring.mpr ⟨h.quiet hn hR, rfl⟩, ?_⟩)
      · have hseq := hat.patched (by rw [hp]; rfl) i hi
        rw [hq] at hseq
        rw [hbell, hpass]
        exact hseq.resolve_left (by simp)
      · simp only [Function.update_self, hbell]
        rfl
    · rw [sideOf_cons_none (hother hne)]
      simp only [hgpu hne]
      exact h.run g'
  · rw [hC]
    rcases eq_or_ne g g' with rfl | hne
    · exact hrings.le
    · rw [hrings' hne]
      exact h.rings_le g'
  · rw [hC]
    rcases eq_or_ne g g' with rfl | hne
    · simp only [Function.update_self]
      exact h.le_done g
    · simp only [hgpu hne]
      exact h.le_done g'
  · rw [hC]
    exact h.seqno
  · rw [hC]
    rcases eq_or_ne g g' with rfl | hg
    · exact absurd hq hne
    · rw [hrings' hg]
      exact h.queue g' hne
  · rw [hC]
    have hpc : (DualPc.next g (.sync 1) (.pollErr 0)).enqueued g' = true ∧
        (DualPc.next g (.sync 1) (.pollErr 0)).knowsDone g' = false ∧
        DualPc.next g (.sync 1) (.pollErr 0) ≠ .bell g' := by
      rcases g with ⟨_ | _ | _, hg⟩
      · exact ⟨rfl, rfl, by simp [DualPc.next]⟩
      · exact ⟨rfl, rfl, by simp [DualPc.next]⟩
      · omega
    rcases eq_or_ne g g' with rfl | hne
    · rw [hrings]
      have hrung : (DualPc.next g (.sync 1) (.pollErr 0)).rung g = true := by
        rcases g with ⟨_ | _ | _, hg⟩
        · rfl
        · rfl
        · omega
      simp only [Function.update_self]
      refine ⟨fun he => ?_, fun _ => hpass, fun _ => hat.patched (by rw [hp]; rfl), fun hr => ?_,
        fun _ => ⟨rfl, hq⟩, fun hb => absurd hb hpc.2.2, fun hk => ?_⟩
      · rw [hpc.1] at he
        cases he
      · rw [hrung] at hr
        cases hr
      · rw [hpc.2.1] at hk
        cases hk
    · rw [hrings' hne]
      simp only [hgpu hne]
      have hrung : (DualPc.next g (.sync 1) (.pollErr 0)).rung g' = s.host.pc.rung g' := by
        rw [hp]
        rcases g with ⟨_ | _ | _, hg⟩ <;> rcases g' with ⟨_ | _ | _, hg'⟩ <;>
          first | rfl | omega
      refine (hplace g').move ?_ hrung (fun hb => absurd hb hpc.2.2) fun hk => ?_
      · rw [hpc.1, hp]
        rfl
      · rw [hpc.2.1] at hk
        cases hk

/-- The stages of the poll loop: everything is enqueued and rung. -/
def DualPc.polling : DualPc → Bool
  | .pollErr _ | .pollDone0 | .pollDone1 _ | .test _ _ => true
  | _ => false

theorem DualPc.next_pollErr (g : Fin 2) :
    (DualPc.next g (.pollErr 1) .pollDone0).polling = true ∧
      ∀ g', (DualPc.next g (.pollErr 1) .pollDone0).knowsDone g' = false := by
  rcases g with ⟨_ | _ | _, hg⟩
  · exact ⟨rfl, fun _ => rfl⟩
  · exact ⟨rfl, fun _ => rfl⟩
  · omega

theorem DualPc.ne_failed {pc : DualPc} (h : pc.polling = true) : pc ≠ .failed := by
  rintro rfl
  cases h

theorem DualPc.stage {pc : DualPc} (h : pc.polling = true ∨ pc = .idle) (g : Fin 2) :
    pc.enqueued g = true ∧ pc.rung g = true ∧ pc ≠ .bell g := by
  rcases h with h | rfl
  · cases pc with
    | pollErr | pollDone0 | pollDone1 | test => exact ⟨rfl, rfl, nofun⟩
    | _ => cases h
  · exact ⟨rfl, rfl, nofun⟩

/-- A step within the poll loop or out of it. -/
theorem DualOk.poll (h : DualOk P T stale τ s) {a : DualAct} (hring : ∀ g, a ≠ .ring g)
    (hcall : ∀ t, a ≠ .call t) {pc : DualPc} (hp : s.host.pc.polling = true)
    (hpc : pc.polling = true ∨ pc = .idle)
    (hdone : ∀ g, pc.knowsDone g = true → (s.gpu g).ctl.cells.done.toNat = calls τ) :
    DualOk P T stale (.host a :: τ) ⟨s.gpu, { s.host with pc := pc }⟩ := by
  refine h.think hring hcall rfl (fun g hq => h.queue g hq) fun _ => ⟨
    DualPc.ne_failed hp, fun g hat => ?_⟩
  obtain ⟨h₁, h₂, -⟩ := DualPc.stage (Or.inl hp) g
  obtain ⟨h₃, h₄, h₅⟩ := DualPc.stage hpc g
  exact hat.move (h₃.trans h₁.symm) (h₄.trans h₂.symm) (fun hb => absurd hb h₅) (hdone g)

/-- The host gives up. -/
theorem DualOk.fail (h : DualOk P T stale τ s) {a : DualAct} (hring : ∀ g, a ≠ .ring g)
    (hcall : ∀ t, a ≠ .call t) :
    DualOk P T stale (.host a :: τ) ⟨s.gpu, { s.host with pc := .failed }⟩ :=
  h.think hring hcall rfl (fun g hq => h.queue g hq) fun hf => absurd rfl hf

/-- A done cell that holds `h.pass` is the GPU's own call number. -/
theorem DualOk.done_eq (hn : n < 2 ^ 31) (h : DualOk P T stale τ s) {g : Fin 2}
    (hp : s.host.pc.polling = true)
    (hd : (s.gpu g).ctl.cells.done = s.host.pass g) :
    (s.gpu g).ctl.cells.done.toNat = calls τ := by
  have hpass := (h.place (DualPc.ne_failed hp) g).pass (DualPc.stage (Or.inl hp) g).1
  obtain ⟨-, hle, hlt⟩ := h.counts hn g
  have h₁ := h.rings_le g
  have h₂ := h.le_done g
  refine Wrap.ofNat_inj (w := 32) (by omega) (by omega) ?_
  rw [← hpass, ← hd, BitVec.ofNat_toNat, BitVec.setWidth_eq]

/-- A step of the host. -/
theorem DualOk.host (hn : n < 2 ^ 31) (h : DualOk P T stale τ s) {a : DualAct}
    (hs : Dual.step P T stale s (.host a) = some s') : DualOk P T stale (.host a :: τ) s' := by
  obtain ⟨c, k, hstep, rfl⟩ := Dual.step_host.mp hs
  cases hstep with
  | call hp => exact h.call hp
  | enqueue hp => exact h.enqueue hp
  | ring hp => exact h.ring hn hp
  | @refuse g => exact h.fail (a := .refuse g) (fun _ => nofun) fun _ => nofun
  | @sawErr g => exact h.fail (a := .sawErr g) (fun _ => nofun) fun _ => nofun
  | timeout => exact h.fail (a := .timeout) (fun _ => nofun) fun _ => nofun
  | @sync g hp hq =>
    have hpc : s.host.pc ≠ .failed := by rw [hp]; nofun
    refine h.think (a := .sync g) (fun _ => nofun) (fun _ => nofun) rfl
      (fun g' hq' => h.queue g' hq') fun _ => ⟨hpc, fun g' hat => hat.move ?_ ?_ ?_ nofun⟩
    · rw [hp]
      rfl
    · rw [hp]
      rfl
    · rintro ⟨⟩
      exact hq
  | @noErr g hp =>
    obtain ⟨h₁, h₂⟩ := DualPc.next_pollErr g
    refine h.poll (a := .noErr g) (fun _ => nofun) (fun _ => nofun) (by rw [hp]; rfl)
      (Or.inl h₁) fun g' hk => ?_
    rw [h₂] at hk
    cases hk
  | @done0 d hp hd =>
    have hpoll : s.host.pc.polling = true := by rw [hp]; rfl
    refine h.poll (a := .done0 d) (fun _ => nofun) (fun _ => nofun) hpoll
      (Or.inl rfl) fun g hk => ?_
    obtain ⟨hg, rfl⟩ := Bool.and_eq_true_iff.mp hk
    obtain rfl := of_decide_eq_true hg
    exact h.done_eq hn hpoll (of_decide_eq_true hd.symm)
  | @done1 d d0 hp hd =>
    have hpoll : s.host.pc.polling = true := by rw [hp]; rfl
    have hold := (h.place (by rw [hp]; nofun) 0).done
    refine h.poll (a := .done1 d) (fun _ => nofun) (fun _ => nofun) hpoll
      (Or.inl rfl) fun g hk => ?_
    rcases g with ⟨_ | _ | _, hg⟩
    · refine hold ?_
      rw [hp]
      exact hk
    · obtain rfl : d = true := hk
      exact h.done_eq hn hpoll (of_decide_eq_true hd.symm)
    · omega
  | ret hp =>
    have hpoll : s.host.pc.polling = true := by rw [hp]; rfl
    refine h.poll (a := .ret) (fun _ => nofun) (fun _ => nofun) hpoll (Or.inr rfl) fun g _ => ?_
    refine (h.place (by rw [hp]; nofun) g).done ?_
    rw [hp]
    exact ite_self true
  | again hp =>
    exact h.poll (a := .again) (fun _ => nofun) (fun _ => nofun) (by rw [hp]; rfl)
      (Or.inl rfl) nofun

/-- **Every run of the pair keeps the host's invariant.** -/
theorem run_dualOk (hn : n < 2 ^ 31) (h : (Dual.lts P T stale).Run τ s) :
    DualOk P T stale τ s := by
  refine Lts.Run.inv (I := DualOk P T stale) ?_ ?_ h
  · rintro s rfl
    refine ⟨fun g => .start rfl, fun _ => le_rfl, fun _ => Nat.zero_le _, rfl,
      fun g hq => absurd rfl hq, fun _ g => ⟨nofun, fun _ => rfl, fun _ i _ => Or.inr rfl, nofun,
        fun _ => ⟨rfl, rfl⟩, nofun, fun _ => rfl⟩⟩
  · intro τ s e s' _ ih hs
    cases e with
    | dev g b x => exact ih.dev hn hs
    | host a => exact ih.host hn hs
    | patch g i q =>
      obtain ⟨⟨hq, rfl⟩, rfl⟩ := Dual.step_patch.mp hs
      have hcons := List.cons_head?_tail hq
      refine ih.land (g := g) hn (x := .patch i s.host.seqno) (fun _ => rfl) (fun _ => nofun)
        (fun _ => nofun) ?_ (fun hquiet => XGpu.step_patch.mpr ⟨hquiet, rfl⟩) rfl fun j hj => ?_
      · rintro hnil
        rw [hnil] at hq
        cases hq
      · rcases eq_or_ne j i with rfl | hne
        · exact Or.inr (Function.update_self j _ _)
        · refine hj.imp (fun hmem => ?_) fun hseq => ?_
          · rw [← hcons] at hmem
            refine (List.mem_cons.mp hmem).resolve_left fun heq => hne ?_
            exact Copy.seqno.inj heq
          · simp only [Function.update_of_ne hne]
            exact hseq
    | token g t =>
      obtain ⟨⟨hq, rfl⟩, rfl⟩ := Dual.step_token.mp hs
      have hcons := List.cons_head?_tail hq
      refine ih.land (g := g) hn (x := .token s.host.token) (fun _ => rfl) (fun _ => nofun)
        (fun _ => nofun) ?_ (fun hquiet => XGpu.step_token.mpr
          ⟨_, Gpu.step_token.mpr ⟨hquiet, rfl⟩, rfl⟩) rfl fun j hj => ?_
      · rintro hnil
        rw [hnil] at hq
        cases hq
      · refine hj.imp (fun hmem => ?_) id
        rw [← hcons] at hmem
        exact (List.mem_cons.mp hmem).resolve_left nofun

end Ok

end Megakernel
