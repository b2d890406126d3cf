import Megakernel.Exchange

/-!
# The books of one GPU

What a GPU of the pair keeps on its own, whatever the peer does. The data steps
of a run are entered into a log, each with the pass its block was in (`deeds`).
`Booked` says how state and log fit together: every cell holds what the log says
was stored there last, the local state of an op is the sum of the steps the block
took in it, and an op that has returned has handled all of its elements.

Each step happens in a window, counted from the first pass (`window`), and at
that time every block has arrived at the window, so the log is ordered by window.

The log does not know whether loads were stale. It records what was stored, so that everything
proved of it holds of both semantics, and staleness enters only where a value is traced back to the
partial it came from.
-/

namespace Megakernel

variable {V : Type*} {n N : ℕ}

/-! ## The log -/

/-- The steps on data. -/
def XAct.isData : XAct V → Bool
  | .ctl _ => false
  | _ => true

/-- The instruction a data step belongs to. -/
def XAct.instr : XAct V → ℕ
  | .ctl _ => 0
  | .gemv i _ _ | .push i _ _ | .args i _ | .publish i _ | .wait i _ _ | .acquire i _ _
  | .fold i _ _ _ => i

theorem XAct.act_of_isData {x : XAct V} (h : x.isData = true) : x.act = .tick x.instr := by
  cases x with
  | ctl a => cases h
  | _ => rfl

/-- A data step, the block that took it and the pass the block was in. Together with the instruction
this is all that the later arguments need to know of when something happened. -/
structure Deed (n : ℕ) (V : Type*) where
  blk : Fin n
  pass : ℕ
  act : XAct V
  deriving DecidableEq

/-- The data steps of a history, newest first. The cells are compared with this log, never with the
history itself. -/
def deeds : List (XEv n V) → List (Deed n V)
  | [] => []
  | .blk b x :: τ => if x.isData then ⟨b, passOf b (ctlOf τ), x⟩ :: deeds τ else deeds τ
  | _ :: τ => deeds τ

theorem deeds_cons_data {x : XAct V} (h : x.isData = true) (b : Fin n) (τ : List (XEv n V)) :
    deeds (.blk b x :: τ) = ⟨b, passOf b (ctlOf τ), x⟩ :: deeds τ := by
  rw [deeds, if_pos h]

/-- The steps of block `b` on instruction `i` in pass `p`, newest first. -/
def actsOf (b : Fin n) (p i : ℕ) (l : List (Deed n V)) : List (XAct V) :=
  (l.filter fun d => decide (d.blk = b ∧ d.pass = p ∧ d.act.instr = i)).map Deed.act

/-- The local state after some steps. -/
def OpLocal.after (l : List (XAct V)) : OpLocal := l.foldr XAct.mark .fresh

/-- Elements that are done stay done, and a poll that has ended has ended. -/
theorem XAct.mark_mono {x : XAct V} (h : x.isData = true) (l : OpLocal) :
    (∀ e ∈ l.elems, e ∈ (x.mark l).elems) ∧ (l.acquired = true → (x.mark l).acquired = true) := by
  cases x with
  | ctl a => cases h
  | gemv | push | fold => exact ⟨fun e he => List.mem_cons_of_mem _ he, id⟩
  | args | publish | wait => exact ⟨fun e he => he, id⟩
  | acquire => exact ⟨fun e he => he, fun _ => rfl⟩

/-- What a step stores to `proj_out[e]`. -/
def XAct.storeTo [Add V] (gpuIndex : Fin 2) (e : ℕ) : XAct V → Option V
  | .gemv _ e' v => if e' = e then some v else none
  | .fold _ e' v w => if e' = e then some (foldOrder gpuIndex v w) else none
  | _ => none

/-- What a step stores to element `e` of the payload of site `s`. -/
def XAct.sendTo (prog : List (Instr XArgs)) (s e : ℕ) : XAct V → Option V
  | .push i e' v => if siteAt prog i = s ∧ e' = e then some v else none
  | _ => none

/-- What a step stores to the seqno cell of site `s`. -/
def XAct.publishTo (prog : List (Instr XArgs)) (s : ℕ) : XAct V → Option U32
  | .publish i q => if siteAt prog i = s then some q else none
  | _ => none

/-- What a step contributes to element `e` of the partial of site `s`. -/
def XAct.partialOf (prog : List (Instr XArgs)) (s e : ℕ) : XAct V → Option V
  | .gemv i e' v => if siteAt prog i = s ∧ e' = e then some v else none
  | _ => none

/-- **The partial of site `s` in pass `p`**: what its contract GEMV stored to element `e`. It is a
value read off the log, hence meaningful long after `proj_out` has been overwritten. -/
def written (prog : List (Instr XArgs)) (p s e : ℕ) (τ : List (XEv n V)) : Option V :=
  (deeds τ).findSome? fun d => if d.pass = p then d.act.partialOf prog s e else none

/-- What the reduce of site `s` stored to `out[e]` in pass `p`. -/
def folded [Add V] (prog : List (Instr XArgs)) (gpuIndex : Fin 2) (p s e : ℕ)
    (τ : List (XEv n V)) : Option V :=
  (deeds τ).findSome? fun d =>
    match d.act with
    | .fold i e' v w =>
      if d.pass = p ∧ siteAt prog i = s ∧ e' = e then some (foldOrder gpuIndex v w) else none
    | _ => none

/-- A run without a new step on the partial leaves it alone. -/
theorem written_cons_of_none {prog : List (Instr XArgs)} {τ : List (XEv n V)} {p t e : ℕ}
    {ev : XEv n V}
    (h : ∀ b x, ev = .blk b x → x.isData = true → passOf b (ctlOf τ) = p →
      x.partialOf prog t e = none) :
    written prog p t e (ev :: τ) = written prog p t e τ := by
  cases ev with
  | blk b x =>
    by_cases hx : x.isData = true
    · rw [written, deeds_cons_data hx, List.findSome?_cons]
      by_cases hpass : passOf b (ctlOf τ) = p
      · rw [if_pos hpass, h b x rfl hx hpass]
        rfl
      · rw [if_neg hpass]
        rfl
    · rw [written, deeds, if_neg hx]
      rfl
  | _ => rfl

/-- The newest entry that `f` picks: it is not older than any other that `f` picks, and a
selection finer than `f` that picks it picks it first. -/
theorem exists_newest {α β : Type*} {R : α → α → Prop} {l : List α} (hl : l.Pairwise R)
    (f : α → Option β) {d : α} (hd : d ∈ l) (hf : f d ≠ none) :
    ∃ a ∈ l, (a = d ∨ R a d) ∧ f a ≠ none ∧ l.findSome? f = f a ∧
      ∀ g : α → Option β, (∀ x ∈ l, f x = none → g x = none) → g a ≠ none →
        l.findSome? g = g a := by
  induction l with
  | nil => cases hd
  | cons x l ih =>
    obtain ⟨hx, hl⟩ := List.pairwise_cons.mp hl
    by_cases hfx : f x = none
    · have hdl : d ∈ l := by
        rcases List.mem_cons.mp hd with rfl | hdl
        · exact absurd hfx hf
        · exact hdl
      obtain ⟨a, ha, hR, hfa, hfind, hfine⟩ := ih hl hdl
      refine ⟨a, List.mem_cons_of_mem x ha, hR, hfa, ?_, fun g hg hga => ?_⟩
      · rw [List.findSome?_cons, hfx, hfind]
      · rw [List.findSome?_cons, hg x List.mem_cons_self hfx]
        exact hfine g (fun y hy => hg y (List.mem_cons_of_mem x hy)) hga
    · refine ⟨x, List.mem_cons_self, ?_, hfx, ?_, fun g _ hgx => ?_⟩
      · exact (List.mem_cons.mp hd).imp Eq.symm (hx d)
      · obtain ⟨v, hv⟩ := Option.ne_none_iff_exists'.mp hfx
        rw [List.findSome?_cons, hv]
      · obtain ⟨v, hv⟩ := Option.ne_none_iff_exists'.mp hgx
        rw [List.findSome?_cons, hv]

/-! ## Windows -/

namespace SplitProgram

variable (P : SplitProgram n N)

/-- The number of boundaries before instruction `i` of pass `p`, counted from the launch. Windows
order the log: what happened in an earlier window happened before. -/
def window (p i : ℕ) : ℕ := (p - 1) * stride P.prog + bnd P.prog i

variable {P}

theorem window_pass_le {p q i j : ℕ} (hq : 1 ≤ q) (h : P.window p i ≤ P.window q j) : p ≤ q := by
  have hlt := place_lt P.prog j hq
  have hle : (p - 1) * stride P.prog < q * stride P.prog :=
    (Nat.le_add_right _ _).trans_lt (h.trans_lt hlt)
  have := Nat.lt_of_mul_lt_mul_right hle
  omega

/-- Between two windows of one pass there are only windows of that pass. -/
theorem window_between {p q i j k : ℕ} (hp : 1 ≤ p) (hq : 1 ≤ q)
    (h₁ : P.window p i ≤ P.window q j) (h₂ : P.window q j ≤ P.window p k) :
    q = p ∧ bnd P.prog i ≤ bnd P.prog j ∧ bnd P.prog j ≤ bnd P.prog k := by
  obtain rfl : q = p := (window_pass_le hp h₂).antisymm (window_pass_le hq h₁)
  exact ⟨rfl, Nat.le_of_add_le_add_left h₁, Nat.le_of_add_le_add_left h₂⟩

theorem window_lt {p i j : ℕ} (h : bnd P.prog i < bnd P.prog j) :
    P.window p i < P.window p j := Nat.add_lt_add_left h _

end SplitProgram

/-! ## The control part -/

section Base

variable (P : SplitProgram n N)

/-- What is known of the control part of a GPU after a run: it is in lockstep, its boundary
invariant holds, its logs fit, and whoever has stopped has stopped for a reason. -/
structure Base (τ : List (XEv n V)) (s : XGpu n V) : Prop where
  lock : Lock P.prog (ctlOf τ) s.ctl
  inv : Grid.Inv ((ctlOf τ).filterMap Ev.cross) s.ctl.grid
  logged : ∀ b, Logged P.prog b (ctlOf τ) (s.ctl.block b)
  stops : Stops (ctlOf τ) s.ctl

variable {P} {τ : List (XEv n V)} {s : XGpu n V}

/-- The host of the pair does not write the halt value. -/
theorem halt_notMem_ctlOf (τ : List (XEv n V)) : Ev.halt ∉ ctlOf τ := by
  intro h
  obtain ⟨e, -, he⟩ := List.mem_filterMap.mp h
  cases e <;> cases he

theorem run_base [DecidableEq V] [Add V] [Zero V] {T : ℕ} {stale : Bool} {g : Fin 2}
    (hn : n < 2 ^ 31) (h : (XGpu.lts P T stale g).Run τ s) : Base P τ s := by
  have hrun := XGpu.run_ctl h
  have hbad := badAt_eq_false P.wired
  exact ⟨run_lock hn hrun, Gpu.run_inv hn hrun, run_logged hn hrun,
    run_stops hn hbad hrun (halt_notMem_ctlOf τ)⟩

/-- A block inside an op is in the pass rung last, and has arrived at its window. -/
theorem Base.in_op (h : Base P τ s) {b : Fin n} {i : ℕ} (hp : (s.ctl.block b).pc = .op i) :
    passOf b (ctlOf τ) = rings (ctlOf τ) ∧ s.ctl.cells.done.toNat + 1 = rings (ctlOf τ) ∧
      arrived b (ctlOf τ) = P.window (passOf b (ctlOf τ)) i ∧
      left b (ctlOf τ) = P.window (passOf b (ctlOf τ)) i := by
  have hexec : (s.ctl.block b).pc.Executing P.prog := by
    rw [hp]
    trivial
  obtain ⟨hpass, hdone⟩ := h.lock.executing h.inv hexec
  have hat := (h.lock.block b).place
  rw [hp, (h.logged b).pass] at hat
  rw [(h.logged b).pass] at hpass
  have harr : arrived b (ctlOf τ) = left b (ctlOf τ) :=
    arrived_eq_left h.inv (by rw [hp]; nofun)
  exact ⟨hpass, hdone, harr.trans hat, hat⟩

/-- When a block is inside an op everybody has arrived at the window. -/
theorem Base.window_le (h : Base P τ s) {b : Fin n} {i : ℕ} (hp : (s.ctl.block b).pc = .op i)
    (j : Fin n) : P.window (passOf b (ctlOf τ)) i ≤ arrived j (ctlOf τ) := by
  have hle : left b (ctlOf τ) ≤ arrived j (ctlOf τ) := h.inv.sound b j
  rwa [(h.in_op hp).2.2.2] at hle

end Base

/-! ## The books -/

section Books

variable (P : SplitProgram n N) (T : ℕ)

/-- The step belongs to the role of its instruction, and to its block. -/
def XAct.Fits (b : ℕ) : XAct V → Prop
  | .ctl _ => False
  | .gemv i e _ =>
    roleAt P.prog i = .gemv (siteAt P.prog i) ∧ e < N ∧ P.owns T b i e = true
  | .push i e _ =>
    roleAt P.prog i = .push (siteAt P.prog i) ∧ e < N ∧ P.owns T b i e = true
  | .fold i e _ _ =>
    roleAt P.prog i = .reduce (siteAt P.prog i) ∧ e < N ∧ P.owns T b i e = true
  | .publish i _ =>
    roleAt P.prog i = .reduce (siteAt P.prog i) ∧ elected P.prog b i = true
  | .args i _ | .wait i _ _ | .acquire i _ _ => roleAt P.prog i = .reduce (siteAt P.prog i)

/-- What is known of an entry of the log: its step fits the role of its instruction, and its window
is one that everybody has arrived at. -/
structure DeedOk (σ : List (Ev n)) (d : Deed n V) : Prop where
  pos : 1 ≤ d.pass
  le : d.pass ≤ rings σ
  /-- everybody has arrived at its window -/
  window : ∀ j, P.window d.pass d.act.instr ≤ arrived j σ
  /-- its block has entered the op -/
  began : .begin d.act.instr ∈ stepsIn P.prog d.blk d.pass σ
  fits : d.act.Fits P T d.blk

/-- A local state that lets the op return. -/
def Complete (b i : ℕ) (l : OpLocal) : Prop :=
  (∀ e < N, P.owns T b i e = true → e ∈ l.elems) ∧
    (roleAt P.prog i = .reduce (siteAt P.prog i) → l.acquired = true)

variable {P T} {τ : List (XEv n V)}

theorem DeedOk.mono {σ : List (Ev n)} {d : Deed n V} (h : DeedOk P T σ d) (e : Ev n) :
    DeedOk P T (e :: σ) d where
  pos := h.pos
  le := h.le.trans (rings_le_cons e σ)
  window j := (h.window j).trans (arrived_cons_le j e σ)
  began := mem_stepsIn_cons e h.began
  fits := h.fits

/-- More steps leave a complete op complete. -/
theorem Complete.mark {b i : ℕ} {l : OpLocal} (h : Complete P T b i l) {x : XAct V}
    (hx : x.isData = true) : Complete P T b i (x.mark l) := by
  obtain ⟨h₁, h₂⟩ := XAct.mark_mono hx l
  exact ⟨fun e he ho => h₁ e (h.1 e he ho), fun hr => h₂ (h.2 hr)⟩

theorem actsOf_cons_self {d : Deed n V} (l : List (Deed n V)) :
    actsOf d.blk d.pass d.act.instr (d :: l) = d.act :: actsOf d.blk d.pass d.act.instr l := by
  simp [actsOf]

theorem actsOf_cons_other {d : Deed n V} {b : Fin n} {p i : ℕ} (l : List (Deed n V))
    (h : ¬ (d.blk = b ∧ d.pass = p ∧ d.act.instr = i)) :
    actsOf b p i (d :: l) = actsOf b p i l := by
  simp [actsOf, h]

theorem mem_actsOf {b : Fin n} {p i : ℕ} {l : List (Deed n V)} {x : XAct V} :
    x ∈ actsOf b p i l ↔ ∃ d ∈ l, d.blk = b ∧ d.pass = p ∧ x.instr = i ∧ d.act = x := by
  simp only [actsOf, List.mem_map, List.mem_filter, decide_eq_true_eq]
  refine exists_congr fun d => ⟨?_, ?_⟩
  · rintro ⟨⟨hd, hb, hp, hi⟩, rfl⟩
    exact ⟨hd, hb, hp, hi, rfl⟩
  · rintro ⟨hd, hb, hp, hi, rfl⟩
    exact ⟨⟨hd, hb, hp, hi⟩, rfl⟩

theorem passOf_cons_data {x : XAct V} (hx : x.isData = true) (b j : Fin n) :
    passOf j (ctlOf (.blk b x :: τ)) = passOf j (ctlOf τ) := by
  rw [ctlOf, List.filterMap_cons_some (by rfl), XAct.act_of_isData hx]
  rcases eq_or_ne b j with rfl | hne
  · exact passOf_cons_self nofun nofun
  · exact passOf_cons_other hne

theorem stepsIn_cons_data {x : XAct V} (hx : x.isData = true) (b j : Fin n) (p : ℕ) :
    stepsIn P.prog j p (ctlOf (.blk b x :: τ)) = stepsIn P.prog j p (ctlOf τ) := by
  rw [ctlOf, List.filterMap_cons_some (by rfl), XAct.act_of_isData hx, stepsIn, if_neg]
  · exact List.append_nil _
  · rintro ⟨-, -, h⟩
    cases h

/-- How state and log of a GPU fit together: each cell holds what the log says was stored there
last, and each op that has returned has handled all of its elements. -/
structure Booked [Add V] [Zero V] (P : SplitProgram n N) (T : ℕ) (g : Fin 2)
    (τ : List (XEv n V)) (s : XGpu n V) : Prop where
  deed : ∀ d ∈ deeds τ, DeedOk P T (ctlOf τ) d
  /-- the log is ordered by window -/
  sorted : (deeds τ).Pairwise fun d d' =>
    P.window d'.pass d'.act.instr ≤ P.window d.pass d.act.instr
  out : ∀ e, s.projOut e = ((deeds τ).findSome? fun d => d.act.storeTo g e).getD 0
  payload : ∀ t e,
    s.mail.payload t e = ((deeds τ).findSome? fun d => d.act.sendTo P.prog t e).getD 0
  seqno : ∀ t, s.mail.seqno t = ((deeds τ).findSome? fun d => d.act.publishTo P.prog t).getD 0
  /-- the local state of an op is the sum of the block's steps in it -/
  loc : ∀ b i, (s.ctl.block b).pc = .op i →
    s.loc b = .after (actsOf b (passOf b (ctlOf τ)) i (deeds τ))
  /-- the elected thread publishes before it polls -/
  ordered : ∀ (b : Fin n) p i, elected P.prog b i = true →
    (OpLocal.after (actsOf b p i (deeds τ))).acquired = true →
    (OpLocal.after (actsOf b p i (deeds τ))).published = true
  /-- an op that has returned was complete -/
  finished : ∀ b p i, .finish i ∈ stepsIn P.prog b p (ctlOf τ) →
    Complete P T b i (.after (actsOf b p i (deeds τ)))

variable [DecidableEq V] {g : Fin 2} {s s' : XGpu n V} {stale : Bool}

theorem XAct.fits_of_guard {b : Fin n} {x : XAct V} (hx : x.isData = true)
    (h : x.guard P T stale s b = true) : x.Fits P T b := by
  cases x with
  | ctl a => cases hx
  | gemv =>
    obtain ⟨h₁, h₂, h₃, -⟩ := of_decide_eq_true h
    exact ⟨h₁, h₂, h₃⟩
  | push =>
    obtain ⟨h₁, h₂, h₃, -⟩ := of_decide_eq_true h
    exact ⟨h₁, h₂, h₃⟩
  | fold =>
    obtain ⟨h₁, -, h₂, h₃, -⟩ := of_decide_eq_true h
    exact ⟨h₁, h₂, h₃⟩
  | publish =>
    obtain ⟨h₁, h₂, -⟩ := of_decide_eq_true h
    exact ⟨h₁, h₂⟩
  | args | wait | acquire => exact (of_decide_eq_true h).1

variable [Add V]

/-- A data step is an internal step of the op the block is in. -/
theorem XGpu.step_data {b : Fin n} {x : XAct V} (hx : x.isData = true)
    (hs : XGpu.step P T stale g s (.blk b x) = some s') :
    (s.ctl.block b).pc = .op x.instr ∧ x.guard P T stale s b = true ∧
      s' = { x.effect P.prog g s b with
        ctl := s.ctl
        loc := Function.update s.loc b (x.mark (s.loc b)) } := by
  obtain ⟨hg, c, hc, rfl⟩ := XGpu.step_blk.mp hs
  rw [XAct.act_of_isData hx] at hc
  obtain ⟨c', k, hstep, rfl⟩ := Gpu.step_blk.mp hc
  cases hstep with
  | tick hp =>
    refine ⟨hp, hg, ?_⟩
    rw [Function.update_eq_self]

variable [Zero V]

/-- A data step keeps the books. -/
theorem Booked.data (hb : Base P τ s) (h : Booked P T g τ s) {b : Fin n} {x : XAct V}
    (hx : x.isData = true) (hs : XGpu.step P T stale g s (.blk b x) = some s') :
    Booked P T g (.blk b x :: τ) s' := by
  obtain ⟨hp, hg, rfl⟩ := XGpu.step_data hx hs
  obtain ⟨hpass, hdone, harr, hleft⟩ := hb.in_op hp
  have hcons := deeds_cons_data hx b τ
  have hmono : ∀ d : Deed n V, DeedOk P T (ctlOf τ) d → DeedOk P T (ctlOf (.blk b x :: τ)) d :=
    fun d hd => hd.mono (.blk b x.act)
  have hloc := h.loc b _ hp
  refine ⟨fun d hd => ?_, ?_, fun e => ?_, fun t e => ?_, fun t => ?_, fun j i hj => ?_,
    fun j p i hel => ?_, fun j p i hfin => ?_⟩
  · rw [hcons] at hd
    rcases List.mem_cons.mp hd with rfl | hd
    · exact hmono _ ⟨passOf_pos b _, hpass.le, hb.window_le hp, (hb.logged b).begin_mem hp,
        XAct.fits_of_guard hx hg⟩
    · exact hmono d (h.deed d hd)
  · rw [hcons]
    refine List.pairwise_cons.mpr ⟨fun d hd => ?_, h.sorted⟩
    exact ((h.deed d hd).window b).trans harr.le
  · rw [hcons, List.findSome?_cons]
    have hold := h.out e
    cases x with
    | ctl => cases hx
    | gemv i e' v =>
      rcases eq_or_ne e' e with rfl | hne
      · simp [XAct.storeTo, XAct.effect]
      · simp [XAct.storeTo, XAct.effect, hne, hne.symm, hold]
    | fold i e' v w =>
      rcases eq_or_ne e' e with rfl | hne
      · simp [XAct.storeTo, XAct.effect]
      · simp [XAct.storeTo, XAct.effect, hne, hne.symm, hold]
    | _ => exact hold
  · rw [hcons, List.findSome?_cons]
    have hold := h.payload t e
    cases x with
    | ctl => cases hx
    | push i e' v =>
      rcases eq_or_ne (siteAt P.prog i) t with rfl | hne
      · rcases eq_or_ne e' e with rfl | hne
        · simp [XAct.sendTo, XAct.effect]
        · simp [XAct.sendTo, XAct.effect, hne, hne.symm, hold]
      · simp [XAct.sendTo, XAct.effect, hne, hne.symm, hold]
    | _ => exact hold
  · rw [hcons, List.findSome?_cons]
    have hold := h.seqno t
    cases x with
    | ctl => cases hx
    | publish i q =>
      rcases eq_or_ne (siteAt P.prog i) t with rfl | hne
      · simp [XAct.publishTo, XAct.effect]
      · simp [XAct.publishTo, XAct.effect, hne, hne.symm, hold]
    | _ => exact hold
  · rw [passOf_cons_data hx, hcons]
    rcases eq_or_ne j b with rfl | hne
    · obtain rfl : x.instr = i := Pc.op.inj (hp.symm.trans hj)
      rw [show actsOf j _ x.instr _ = _ from actsOf_cons_self (deeds τ)]
      simp only [Function.update_self]
      rw [hloc]
      rfl
    · rw [actsOf_cons_other _ fun hd => hne hd.1.symm]
      simp only [Function.update_of_ne hne]
      exact h.loc j i hj
  · rw [hcons]
    by_cases hd : b = j ∧ passOf b (ctlOf τ) = p ∧ x.instr = i
    · obtain ⟨rfl, rfl, rfl⟩ := hd
      have hold := h.ordered b (passOf b (ctlOf τ)) x.instr hel
      rw [show actsOf b _ x.instr _ = _ from actsOf_cons_self (deeds τ)]
      rw [← hloc] at hold
      rw [OpLocal.after, List.foldr_cons, ← OpLocal.after, ← hloc]
      cases x with
      | ctl => cases hx
      | publish => exact fun _ => rfl
      | acquire => exact fun _ => (of_decide_eq_true hg).2.1 hel
      | _ => exact hold
    · rw [actsOf_cons_other _ hd]
      exact h.ordered j p i hel
  · rw [stepsIn_cons_data hx] at hfin
    rw [hcons]
    by_cases hd : b = j ∧ passOf b (ctlOf τ) = p ∧ x.instr = i
    · obtain ⟨rfl, rfl, rfl⟩ := hd
      rw [show actsOf b _ x.instr _ = _ from actsOf_cons_self (deeds τ)]
      exact (h.finished b _ _ hfin).mark hx
    · rw [actsOf_cons_other _ hd]
      exact h.finished j p i hfin

omit [DecidableEq V] in
/-- Events that are no data steps leave log and cells alone. -/
theorem Booked.frame (h : Booked P T g τ s) {e : XEv n V} (hd : deeds (e :: τ) = deeds τ)
    (hout : s'.projOut = s.projOut) (hmail : s'.mail = s.mail)
    (hloc : ∀ b i, (s'.ctl.block b).pc = .op i →
      s'.loc b = .after (actsOf b (passOf b (ctlOf (e :: τ))) i (deeds τ)))
    (hfin : ∀ b p i, .finish i ∈ stepsIn P.prog b p (ctlOf (e :: τ)) →
      Complete P T b i (.after (actsOf b p i (deeds τ)))) : Booked P T g (e :: τ) s' := by
  have hmono : ∀ d : Deed n V, DeedOk P T (ctlOf τ) d → DeedOk P T (ctlOf (e :: τ)) d := by
    intro d hok
    rw [ctlOf]
    rcases he : e.ctl with _ | e'
    · rw [List.filterMap_cons_none he]
      exact hok
    · rw [List.filterMap_cons_some he]
      exact hok.mono e'
  refine ⟨fun d hmem => ?_, ?_, ?_, ?_, ?_, ?_, ?_, ?_⟩
  · rw [hd] at hmem
    exact hmono d (h.deed d hmem)
  · rw [hd]
    exact h.sorted
  · rw [hd, hout]
    exact h.out
  · rw [hd, hmail]
    exact h.payload
  · rw [hd, hmail]
    exact h.seqno
  · rw [hd]
    exact hloc
  · rw [hd]
    exact h.ordered
  · rw [hd]
    exact hfin

omit [DecidableEq V] in
/-- A step of the host keeps the books. -/
theorem Booked.host (h : Booked P T g τ s) {e : XEv n V} (hd : deeds (e :: τ) = deeds τ)
    (hout : s'.projOut = s.projOut) (hmail : s'.mail = s.mail) (hloc : s'.loc = s.loc)
    (hblock : s'.ctl.block = s.ctl.block) (he : ∀ b, ∀ e' ∈ e.ctl, Ev.Foreign b e') :
    Booked P T g (e :: τ) s' := by
  have hpass : ∀ b, passOf b (ctlOf (e :: τ)) = passOf b (ctlOf τ) ∧
      ∀ p, stepsIn P.prog b p (ctlOf (e :: τ)) = stepsIn P.prog b p (ctlOf τ) := by
    intro b
    rw [ctlOf]
    rcases hc : e.ctl with _ | e'
    · rw [List.filterMap_cons_none hc]
      exact ⟨rfl, fun _ => rfl⟩
    · rw [List.filterMap_cons_some hc]
      exact ⟨passOf_cons_foreign (he b e' hc), stepsIn_cons_foreign (he b e' hc)⟩
  refine h.frame hd hout hmail (fun b i hp => ?_) fun b p i hfin => ?_
  · rw [(hpass b).1, hloc]
    rw [hblock] at hp
    exact h.loc b i hp
  · rw [(hpass b).2] at hfin
    exact h.finished b p i hfin

omit [DecidableEq V] in
/-- Before an op is entered the log has no step of it in this pass. -/
theorem Booked.actsOf_eq_nil (hb : Base P τ s) (h : Booked P T g τ s) {b : Fin n} {i : ℕ}
    (hp : (s.ctl.block b).pc = .fetch i) : actsOf b (passOf b (ctlOf τ)) i (deeds τ) = [] := by
  refine List.eq_nil_iff_forall_not_mem.mpr fun x hx => ?_
  obtain ⟨d, hd, rfl, hpass, rfl, rfl⟩ := mem_actsOf.mp hx
  have hbegan := (h.deed d hd).began
  rw [hpass] at hbegan
  exact (hb.logged d.blk).begin_notMem hp hbegan

/-- A control step keeps the books. -/
theorem Booked.control (hb : Base P τ s) (h : Booked P T g τ s) {b : Fin n} {a : Act}
    (hs : XGpu.step P T stale g s (.blk b (.ctl a)) = some s') :
    Booked P T g (.blk b (.ctl a) :: τ) s' := by
  obtain ⟨hg, c, hc, rfl⟩ := XGpu.step_blk.mp hs
  obtain ⟨c', k, hstep, rfl⟩ := Gpu.step_blk.mp hc
  have hctl : ctlOf (.blk b (.ctl a) :: τ) = .blk b a :: ctlOf τ := rfl
  refine h.frame rfl rfl rfl (fun j i hp => ?_) fun j p i hfin => ?_
  · rw [hctl]
    rcases eq_or_ne j b with rfl | hne
    · have hpass : a ≠ .publish → a ≠ .turn →
          passOf j (.blk j a :: ctlOf τ) = passOf j (ctlOf τ) := passOf_cons_self
      simp only [Function.update_self] at hp ⊢
      cases hstep with
      | tick hpc | store hpc =>
        rw [hpass nofun nofun]
        exact h.loc j i hp
      | raise hpc =>
        rw [hpass nofun nofun]
        exact h.loc j i hp
      | begin hpc hr =>
        cases hp
        rw [hpass nofun nofun, h.actsOf_eq_nil hb hpc]
        rfl
      | spin hpc =>
        rw [hpc] at hp
        cases hp
      | poll hpc =>
        rw [hpc] at hp
        cases hp
      | hear =>
        simp only at hp
        split at hp <;> cases hp
      | bad =>
        split at hp <;> cases hp
      | leave =>
        simp only [afterCross] at hp
        split at hp <;> cases hp
      | _ => cases hp
    · simp only [Function.update_of_ne hne] at hp ⊢
      rw [passOf_cons_other hne.symm]
      exact h.loc j i hp
  · rw [hctl] at hfin
    rcases eq_or_ne b j with rfl | hne
    · rw [stepsIn_cons_self] at hfin
      rcases List.mem_append.mp hfin with hold | hnew
      · exact h.finished b p i hold
      · -- the op returns: its local state was complete
        by_cases hcond : passOf b (ctlOf τ) = p ∧ a.logged P.prog = true
        · rw [if_pos hcond] at hnew
          obtain rfl := List.mem_singleton.mp hnew
          cases hstep with
          | finish hpc hq =>
            have hcomplete := of_decide_eq_true hg
            rw [← hcond.1, ← h.loc b i hpc]
            exact hcomplete
        · rw [if_neg hcond] at hnew
          cases hnew
    · rw [stepsIn_cons_foreign (b := j) (e := .blk b a) hne] at hfin
      exact h.finished j p i hfin

omit [DecidableEq V] in
theorem booked_zero : Booked P T g [] (XGpu.zero n : XGpu n V) where
  deed := nofun
  sorted := .nil
  out _ := rfl
  payload _ _ := rfl
  seqno _ := rfl
  loc _ _ _ := rfl
  ordered := nofun
  finished := nofun

/-- **In every run the books are kept**, with stale lines and without. Plain loads may return old
values, but what is stored is entered with the value that was stored. -/
theorem run_booked (hn : n < 2 ^ 31) (h : (XGpu.lts P T stale g).Run τ s) :
    Booked P T g τ s := by
  refine Lts.Run.inv (I := Booked P T g) ?_ ?_ h
  · rintro s rfl
    exact booked_zero
  · rintro τ s e s' hr ih hs
    have hb : Base P τ s := run_base hn hr
    cases e with
    | blk b x =>
      by_cases hx : x.isData = true
      · exact ih.data hb hx hs
      · cases x with
        | ctl a => exact ih.control hb hs
        | _ => exact absurd rfl hx
    | ring =>
      obtain ⟨-, c, hc, rfl⟩ := XGpu.step_ring.mp hs
      obtain ⟨-, rfl⟩ := Gpu.step_ring.mp hc
      refine ih.host rfl rfl rfl rfl rfl ?_
      rintro b e' ⟨⟩
      trivial
    | token t =>
      obtain ⟨c, hc, rfl⟩ := XGpu.step_token.mp hs
      obtain ⟨-, rfl⟩ := Gpu.step_token.mp hc
      refine ih.host rfl rfl rfl rfl rfl ?_
      rintro b e' ⟨⟩
      trivial
    | patch i q =>
      obtain ⟨-, rfl⟩ := XGpu.step_patch.mp hs
      exact ih.host rfl rfl rfl rfl rfl nofun

end Books

end Megakernel
