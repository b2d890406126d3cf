import Megakernel.Passes

/-!
# The host side of the pass protocol (`host_run_pass`)

One GPU driven by the host of `core/host.cpp`: a loop of `host_run_pass` calls,
each of which tests the error mirror, issues the next pass number, copies the
token, rings the doorbell and polls the error mirror and the done cell until it
returns; and `host_shutdown`. Every access to a shared cell is a step.

The host discharges what `Gpu.lts` assumes of it: as long as no call is
abandoned (a failed copy or a timeout), it writes the token and rings only when
the last rung pass is done (`Single.run_ok`), so that runs of host and GPU
project to runs of the open GPU. `pass_protocol` puts the lockstep invariant,
the logs and the host together.

What a call returns is a label of its last step (`HostAct.returns`). In runs of clean steps every
call that returns has succeeded, so that the number of RUN_OKs, of begun passes and of rung passes
differ by at most one (`HostPc.Ok`).
-/

namespace Megakernel

/-- `RunStatus` -/
inductive RunStatus : Type where
  | ok
  | err
  | timeout
  deriving DecidableEq

/-- The place of the host in `host_run_pass`, or between two calls. A call that has failed leaves
the host where it can be called again. -/
inductive HostPc : Type where
  /-- between two calls -/
  | idle
  /-- called with token `t`, about to test the error mirror -/
  | check (t : U32)
  /-- `h.pass += 1` done, about to copy the token -/
  | copy (t : U32)
  /-- token copied and synchronised, about to ring -/
  | bell
  /-- in the loop, about to load the error mirror -/
  | pollErr
  /-- in the loop, about to load the done cell -/
  | pollDone
  /-- in the loop, about to test the deadline -/
  | deadline
  /-- halt value written by `host_shutdown` -/
  | halted
  deriving DecidableEq

/-- The host's state: its place in the code, and `h.pass`, which counts a pass as soon as it is
issued, whether or not it is rung. -/
structure Host : Type where
  /-- `h.pass`, the last pass issued -/
  pass : U32
  /-- place in the code -/
  pc : HostPc
  deriving DecidableEq

/-- The steps of the host. -/
inductive HostAct : Type where
  /-- `host_run_pass(h, t)` is called -/
  | call (t : U32)
  /-- an error is already set: return RUN_ERR -/
  | refuse (t : U32)
  /-- no error is set: `h.pass += 1` -/
  | begin (t : U32)
  /-- the token lands in device memory -/
  | copy (t : U32)
  /-- the copy or the synchronisation fails: return RUN_TIMEOUT -/
  | copyFail (t : U32)
  /-- `*h.h_doorbell = h.pass` -/
  | ring
  /-- the error mirror is set: return RUN_ERR -/
  | sawErr
  /-- the error mirror is clear -/
  | noErr
  /-- the done cell holds `h.pass`: return RUN_OK -/
  | sawDone
  /-- the done cell does not hold `h.pass` -/
  | notDone
  /-- past the deadline: return RUN_TIMEOUT -/
  | timeout
  /-- before the deadline: poll again -/
  | again
  /-- `host_shutdown`: write the halt value -/
  | shutdown
  deriving DecidableEq

/-- What `host_run_pass` returns with a step. -/
def HostAct.returns : HostAct → Option RunStatus
  | .refuse _ | .sawErr => some .err
  | .copyFail _ | .timeout => some .timeout
  | .sawDone => some .ok
  | _ => none

/-- One step of the host. The deadline is the environment's, as is the success of a copy, so that a
run may contain calls that fail at every point where the code can fail. -/
def hostAct (c : Cells) (h : Host) : HostAct → Option (Cells × Host)
  | .call t => if h.pc = .idle then some (c, { h with pc := .check t }) else none
  | .refuse t =>
    if h.pc = .check t ∧ c.errHostCode ≠ 0 then some (c, { h with pc := .idle }) else none
  | .begin t =>
    if h.pc = .check t ∧ c.errHostCode = 0 then some (c, ⟨h.pass + 1, .copy t⟩) else none
  | .copy t =>
    if h.pc = .copy t then some ({ c with token := t }, { h with pc := .bell }) else none
  | .copyFail t => if h.pc = .copy t then some (c, { h with pc := .idle }) else none
  | .ring =>
    if h.pc = .bell then some ({ c with doorbellHost := h.pass }, { h with pc := .pollErr })
    else none
  | .sawErr =>
    if h.pc = .pollErr ∧ c.errHostCode ≠ 0 then some (c, { h with pc := .idle }) else none
  | .noErr =>
    if h.pc = .pollErr ∧ c.errHostCode = 0 then some (c, { h with pc := .pollDone }) else none
  | .sawDone =>
    if h.pc = .pollDone ∧ c.done = h.pass then some (c, { h with pc := .idle }) else none
  | .notDone =>
    if h.pc = .pollDone ∧ c.done ≠ h.pass then some (c, { h with pc := .deadline }) else none
  | .timeout => if h.pc = .deadline then some (c, { h with pc := .idle }) else none
  | .again => if h.pc = .deadline then some (c, { h with pc := .pollErr }) else none
  | .shutdown =>
    if h.pc = .idle then some ({ c with doorbellHost := doorbellHalt }, { h with pc := .halted })
    else none

/-- What the steps of the host do, one rule for each: the inversion of `hostAct`. -/
inductive HostStep (c : Cells) (h : Host) : HostAct → Cells → Host → Prop where
  | call {t : U32} : h.pc = .idle → HostStep c h (.call t) c { h with pc := .check t }
  | refuse {t : U32} : h.pc = .check t → c.errHostCode ≠ 0 →
      HostStep c h (.refuse t) c { h with pc := .idle }
  | begin {t : U32} : h.pc = .check t → c.errHostCode = 0 →
      HostStep c h (.begin t) c ⟨h.pass + 1, .copy t⟩
  | copy {t : U32} : h.pc = .copy t →
      HostStep c h (.copy t) { c with token := t } { h with pc := .bell }
  | copyFail {t : U32} : h.pc = .copy t → HostStep c h (.copyFail t) c { h with pc := .idle }
  | ring : h.pc = .bell →
      HostStep c h .ring { c with doorbellHost := h.pass } { h with pc := .pollErr }
  | sawErr : h.pc = .pollErr → c.errHostCode ≠ 0 → HostStep c h .sawErr c { h with pc := .idle }
  | noErr : h.pc = .pollErr → c.errHostCode = 0 → HostStep c h .noErr c { h with pc := .pollDone }
  | sawDone : h.pc = .pollDone → c.done = h.pass → HostStep c h .sawDone c { h with pc := .idle }
  | notDone : h.pc = .pollDone → c.done ≠ h.pass →
      HostStep c h .notDone c { h with pc := .deadline }
  | timeout : h.pc = .deadline → HostStep c h .timeout c { h with pc := .idle }
  | again : h.pc = .deadline → HostStep c h .again c { h with pc := .pollErr }
  | shutdown : h.pc = .idle →
      HostStep c h .shutdown { c with doorbellHost := doorbellHalt } { h with pc := .halted }

/-- The host's step function takes exactly the steps the rules allow. -/
theorem hostAct_eq_some {c c' : Cells} {h h' : Host} {a : HostAct} :
    hostAct c h a = some (c', h') ↔ HostStep c h a c' h' := by
  refine ⟨fun hs => ?_, fun hs => ?_⟩
  · cases a <;>
      simp only [hostAct, Option.ite_none_right_eq_some, Option.some.injEq, Prod.mk.injEq] at hs <;>
      obtain ⟨hg, rfl, rfl⟩ := hs
    · exact .call hg
    · exact .refuse hg.1 hg.2
    · exact .begin hg.1 hg.2
    · exact .copy hg
    · exact .copyFail hg
    · exact .ring hg
    · exact .sawErr hg.1 hg.2
    · exact .noErr hg.1 hg.2
    · exact .sawDone hg.1 hg.2
    · exact .notDone hg.1 hg.2
    · exact .timeout hg
    · exact .again hg
    · exact .shutdown hg
  · cases hs <;> simp_all [hostAct]

/-! ## One GPU and its host -/

variable {π : Type*} {n : ℕ} {prog : List (Instr π)}

/-- A GPU and its host. -/
structure Single (n : ℕ) : Type where
  gpu : Gpu n
  host : Host

/-- A step of a block or of the host. -/
inductive SEv (n : ℕ) : Type where
  | dev (b : Fin n) (a : Act)
  | host (a : HostAct)
  deriving DecidableEq

/-- The event of the open GPU behind a step. -/
def SEv.gpu : SEv n → Option (Ev n)
  | .dev b a => some (.blk b a)
  | .host (.copy t) => some (.token t)
  | .host .ring => some .ring
  | .host .shutdown => some .halt
  | _ => none

/-- The history of the GPU alone. -/
def events (τ : List (SEv n)) : List (Ev n) := τ.filterMap SEv.gpu

/-- The tokens of the passes the host has begun, newest first. The token a pass has to work with is
found here by its number. -/
def given (τ : List (SEv n)) : List U32 :=
  τ.filterMap fun
    | .host (.begin t) => some t
    | _ => none

/-- How many `host_run_pass` calls have returned RUN_OK. -/
def oks (τ : List (SEv n)) : ℕ := τ.count (.host .sawDone)

/-- No error is raised, no CUDA call fails, nothing times out. The protocol's guarantees about
completed passes are for runs of such steps. -/
def SEv.clean : SEv n → Bool
  | .dev _ (.raise _ _ _) | .host (.copyFail _) | .host .timeout => false
  | _ => true

namespace Single

/-- After `host_launch`. -/
def zero (n : ℕ) : Single n := ⟨.zero n, ⟨0, .idle⟩⟩

/-- One step of the GPU or the host. -/
def step (prog : List (Instr π)) (s : Single n) : SEv n → Option (Single n)
  | .dev b a => (s.gpu.step prog (.blk b a)).map fun g => { s with gpu := g }
  | .host a => (hostAct s.gpu.cells s.host a).map fun r => ⟨⟨r.1, s.gpu.block⟩, r.2⟩

/-- A GPU and its host as a transition system. -/
def lts (n : ℕ) (prog : List (Instr π)) : Lts (Single n) (SEv n) := Lts.ofFun (zero n) (step prog)

theorem step_dev {s s' : Single n} {b : Fin n} {a : Act} :
    step prog s (.dev b a) = some s' ↔
      ∃ g, s.gpu.step prog (.blk b a) = some g ∧ s' = { s with gpu := g } := by
  simp [step, eq_comm]

theorem step_host {s s' : Single n} {a : HostAct} :
    step prog s (.host a) = some s' ↔
      ∃ c h, HostStep s.gpu.cells s.host a c h ∧ s' = ⟨⟨c, s.gpu.block⟩, h⟩ := by
  simp [step, ← hostAct_eq_some, eq_comm]

end Single

/-! ## Runs without errors -/

/-- No error cell is set and nobody is about to set one. -/
structure ErrorFree (s : Gpu n) : Prop where
  dev : s.cells.errDev = 0
  host : s.cells.errHostCode = 0
  quiet : ∀ b, (s.block b).raising = []

/-- Without bad kinds and without raises no error is set. -/
theorem ErrorFree.blk {s : Gpu n} (h : ErrorFree s) (hprog : ∀ i, badAt prog i = false) {b : Fin n}
    {a : Act} (ha : ∀ i code aux, a ≠ .raise i code aux) {c : Cells} {k : Block}
    (hs : BlockStep n prog b s.cells (s.block b) a c k) :
    ErrorFree (⟨c, Function.update s.block b k⟩ : Gpu n) := by
  have hraise : k.raising = [] ∧ c.errDev = s.cells.errDev ∧
      c.errHostCode = s.cells.errHostCode := by
    have hq := h.quiet b
    cases hs with
    | raise => exact absurd rfl (ha _ _ _)
    | bad _ hi =>
      rw [hprog] at hi
      cases hi
    | store hr =>
      rw [hq] at hr
      cases hr
    | _ => exact ⟨hq, rfl, rfl⟩
  refine ⟨hraise.2.1.trans h.dev, hraise.2.2.trans h.host, fun j => ?_⟩
  rcases eq_or_ne j b with rfl | hne
  · simp only [Function.update_self]
    exact hraise.1
  · simp only [Function.update_of_ne hne]
    exact h.quiet j

/-! ## The host's invariant -/

/-- Where the host stands, by the number `R` of rung passes, `B` of passes begun, `K` of passes
returned from, the last token given and the cells. The three numbers differ by at most one. -/
def HostPc.Ok (R B K : ℕ) (last : Option U32) (c : Cells) : HostPc → Prop
  | .idle | .check _ =>
    B = R ∧ K = R ∧ c.done.toNat = R ∧ c.doorbellHost.toNat = R ∧ ∀ t ∈ last, c.token = t
  | .copy t => B = R + 1 ∧ K = R ∧ c.done.toNat = R ∧ c.doorbellHost.toNat = R ∧ last = some t
  | .bell =>
    B = R + 1 ∧ K = R ∧ c.done.toNat = R ∧ c.doorbellHost.toNat = R ∧ last = some c.token
  | .pollErr | .pollDone | .deadline =>
    B = R ∧ K + 1 = R ∧ c.doorbellHost.toNat = R ∧ last = some c.token
  | .halted => B = R ∧ K = R ∧ c.done.toNat = R

/-- The host's invariant in runs without abandoned calls. -/
structure HostOk (τ : List (SEv n)) (s : Single n) : Prop where
  /-- `h.pass` is the number of passes begun -/
  pass : s.host.pass.toNat = (given τ).length
  place : s.host.pc.Ok (rings (events τ)) (given τ).length (oks τ) (given τ).head? s.gpu.cells

/-- The host's place depends on the doorbell, the token and, while nothing is in
flight, the done cell. -/
theorem HostPc.Ok.mono {R B K : ℕ} {last : Option U32} {c c' : Cells} {pc : HostPc}
    (h : pc.Ok R B K last c) (hdoor : c'.doorbellHost = c.doorbellHost)
    (htok : c'.token = c.token) (hdone : c.done.toNat = R → c'.done = c.done) :
    pc.Ok R B K last c' := by
  cases pc with
  | idle | check =>
    obtain ⟨h₁, h₂, h₃, h₄, h₅⟩ := h
    refine ⟨h₁, h₂, ?_, ?_, ?_⟩
    · rw [hdone h₃, h₃]
    · rw [hdoor, h₄]
    · rw [htok]
      exact h₅
  | copy | bell =>
    obtain ⟨h₁, h₂, h₃, h₄, h₅⟩ := h
    refine ⟨h₁, h₂, ?_, ?_, ?_⟩
    · rw [hdone h₃, h₃]
    · rw [hdoor, h₄]
    · simpa only [htok] using h₅
  | pollErr | pollDone | deadline =>
    obtain ⟨h₁, h₂, h₃, h₄⟩ := h
    refine ⟨h₁, h₂, ?_, ?_⟩
    · rw [hdoor, h₃]
    · rw [htok, h₄]
  | halted =>
    obtain ⟨h₁, h₂, h₃⟩ := h
    refine ⟨h₁, h₂, ?_⟩
    rw [hdone h₃, h₃]

/-- With nothing in flight the GPU is quiet. -/
theorem quiet_of_toNat {s : Gpu n} {R : ℕ} (h₁ : s.cells.done.toNat = R)
    (h₂ : s.cells.doorbellHost.toNat = R) : s.Quiet :=
  BitVec.eq_of_toNat_eq (h₁.trans h₂.symm)

section Step

variable {τ : List (SEv n)} {s : Single n}

/-- Block steps do not move the host. -/
theorem HostOk.dev (h : HostOk τ s) (hl : Lock prog (events τ) s.gpu) {b : Fin n} {a : Act}
    {c : Cells} {k : Block} (hs : BlockStep n prog b s.gpu.cells (s.gpu.block b) a c k) :
    HostOk (.dev b a :: τ) { s with gpu := ⟨c, Function.update s.gpu.block b k⟩ } := by
  obtain ⟨hdoor, htok⟩ := hs.host_cells
  have hR : rings (events (.dev b a :: τ)) = rings (events τ) := rings_cons_blk b a (events τ)
  have hK : oks (.dev b a :: τ) = oks τ := by simp [oks]
  refine ⟨h.pass, ?_⟩
  rw [hR, hK]
  exact h.place.mono hdoor htok fun hq => hl.done_eq_of_quiet hq hs

/-- A host step that neither rings nor returns nor begins a pass keeps the counts. -/
theorem counts_cons_host {a : HostAct} (h₁ : a ≠ .ring) (h₂ : a ≠ .sawDone) :
    rings (events (.host a :: τ)) = rings (events τ) ∧ oks (.host a :: τ) = oks τ := by
  refine ⟨?_, by simp [oks, h₂]⟩
  cases a <;> first | exact absurd rfl h₁ | rfl

/-- Host steps keep the host's invariant, in runs without errors. -/
theorem HostOk.host (h : HostOk τ s) (hl : Lock prog (events τ) s.gpu) (hfree : ErrorFree s.gpu)
    {a : HostAct} (ha : (SEv.host a : SEv n).clean = true) {c : Cells} {k : Host}
    (hs : HostStep s.gpu.cells s.host a c k) :
    HostOk (.host a :: τ) ⟨⟨c, s.gpu.block⟩, k⟩ := by
  obtain ⟨hpass, hplace⟩ := h
  have hlt := hl.done_lt
  cases hs with
  | call hp =>
    obtain ⟨hR, hK⟩ := counts_cons_host (τ := τ) (a := .call _) (by simp) (by simp)
    rw [hp] at hplace
    refine ⟨hpass, ?_⟩
    rw [hR, hK]
    exact hplace
  | refuse hp he => exact absurd hfree.host he
  | @begin t hp he =>
    obtain ⟨hR, hK⟩ := counts_cons_host (τ := τ) (a := .begin t) (by simp) (by simp)
    rw [hp] at hplace
    obtain ⟨h₁, h₂, h₃, h₄, -⟩ := hplace
    have hgiven : given (.host (.begin t) :: τ) = t :: given τ := rfl
    refine ⟨?_, ?_⟩
    · rw [hgiven, List.length_cons, ← hpass]
      exact Wrap.toNat_add_one (by omega)
    · rw [hR, hK, hgiven]
      exact ⟨by rw [List.length_cons, h₁], h₂, h₃, h₄, rfl⟩
  | @copy t hp =>
    obtain ⟨hR, hK⟩ := counts_cons_host (τ := τ) (a := .copy t) (by simp) (by simp)
    rw [hp] at hplace
    refine ⟨hpass, ?_⟩
    rw [hR, hK]
    exact hplace
  | copyFail => cases ha
  | ring hp =>
    have hR : rings (events (.host .ring :: τ)) = rings (events τ) + 1 := by
      simp [events, SEv.gpu, rings]
    have hK : oks (.host .ring :: τ) = oks τ := by simp [oks]
    rw [hp] at hplace
    obtain ⟨h₁, h₂, h₃, h₄, h₅⟩ := hplace
    refine ⟨hpass, ?_⟩
    rw [hR, hK]
    exact ⟨h₁, by rw [h₂], hpass.trans h₁, h₅⟩
  | sawErr hp he => exact absurd hfree.host he
  | noErr hp =>
    obtain ⟨hR, hK⟩ := counts_cons_host (τ := τ) (a := .noErr) (by simp) (by simp)
    rw [hp] at hplace
    refine ⟨hpass, ?_⟩
    rw [hR, hK]
    exact hplace
  | sawDone hp hd =>
    have hR : rings (events (.host .sawDone :: τ)) = rings (events τ) := rfl
    have hK : oks (.host .sawDone :: τ) = oks τ + 1 := by simp [oks]
    rw [hp] at hplace
    obtain ⟨h₁, h₂, h₃, h₄⟩ := hplace
    refine ⟨hpass, ?_⟩
    rw [hR, hK]
    refine ⟨h₁, h₂, ?_, h₃, fun t ht => ?_⟩
    · rw [hd]
      exact hpass.trans h₁
    · have heq := (Option.mem_def.mp ht).symm.trans h₄
      exact (Option.some.inj heq).symm
  | notDone hp =>
    obtain ⟨hR, hK⟩ := counts_cons_host (τ := τ) (a := .notDone) (by simp) (by simp)
    rw [hp] at hplace
    refine ⟨hpass, ?_⟩
    rw [hR, hK]
    exact hplace
  | timeout => cases ha
  | again hp =>
    obtain ⟨hR, hK⟩ := counts_cons_host (τ := τ) (a := .again) (by simp) (by simp)
    rw [hp] at hplace
    refine ⟨hpass, ?_⟩
    rw [hR, hK]
    exact hplace
  | shutdown hp =>
    obtain ⟨hR, hK⟩ := counts_cons_host (τ := τ) (a := .shutdown) (by simp) (by simp)
    rw [hp] at hplace
    obtain ⟨h₁, h₂, h₃, -⟩ := hplace
    refine ⟨hpass, ?_⟩
    rw [hR, hK]
    exact ⟨h₁, h₂, h₃⟩

/-- **The host is a legal environment**: its steps are events of the open GPU. -/
theorem HostOk.gpu_step (prog : List (Instr π)) (h : HostOk τ s) {a : HostAct}
    {c : Cells} {k : Host}
    (hs : HostStep s.gpu.cells s.host a c k) :
    match (SEv.host a : SEv n).gpu with
    | some e => s.gpu.step prog e = some ⟨c, s.gpu.block⟩
    | none => c = s.gpu.cells := by
  obtain ⟨hpass, hplace⟩ := h
  cases hs with
  | copy hp =>
    rw [hp] at hplace
    obtain ⟨-, -, h₃, h₄, -⟩ := hplace
    exact Gpu.step_token.mpr ⟨quiet_of_toNat h₃ h₄, rfl⟩
  | ring hp =>
    rw [hp] at hplace
    obtain ⟨h₁, -, h₃, h₄, -⟩ := hplace
    refine Gpu.step_ring.mpr ⟨quiet_of_toNat h₃ h₄, ?_⟩
    have hlt := s.host.pass.isLt
    have hadd : (s.gpu.cells.doorbellHost + 1).toNat = s.gpu.cells.doorbellHost.toNat + 1 :=
      Wrap.toNat_add_one (by omega)
    rw [show s.host.pass = s.gpu.cells.doorbellHost + 1 from
      BitVec.eq_of_toNat_eq (by rw [hadd, h₄, hpass, h₁])]
  | shutdown => exact Gpu.step_halt.mpr rfl
  | _ => rfl

end Step

namespace Single

/-- What holds after a run without errors. -/
structure Ok (prog : List (Instr π)) (τ : List (SEv n)) (s : Single n) : Prop where
  run : (Gpu.lts n prog).Run (events τ) s.gpu
  host : HostOk τ s
  free : ErrorFree s.gpu

/-- **Runs without errors project to runs of the open GPU**, and keep the host's invariant. -/
theorem run_ok (hn : n < 2 ^ 31) (hprog : ∀ i, badAt prog i = false) {τ : List (SEv n)}
    {s : Single n} (h : (lts n prog).Run τ s) (hclean : ∀ e ∈ τ, e.clean = true) : Ok prog τ s := by
  revert hclean
  refine Lts.Run.inv (I := fun τ s => (∀ e ∈ τ, e.clean = true) → Ok prog τ s) ?_ ?_ h
  · rintro s rfl -
    exact ⟨.start rfl, ⟨rfl, rfl, rfl, rfl, rfl, nofun⟩, ⟨rfl, rfl, fun _ => rfl⟩⟩
  · rintro τ s e s' - ih hs hclean
    obtain ⟨hrun, hhost, hfree⟩ := ih fun e he => hclean e (List.mem_cons_of_mem _ he)
    have he : e.clean = true := hclean e List.mem_cons_self
    have hlock := run_lock hn hrun
    cases e with
    | dev b a =>
      obtain ⟨g, hg, rfl⟩ := step_dev.mp hs
      have hrun' : (Gpu.lts n prog).Run (events (.dev b a :: τ)) g := hrun.snoc hg
      obtain ⟨c, k, hstep, rfl⟩ := Gpu.step_blk.mp hg
      refine ⟨hrun', hhost.dev hlock hstep, hfree.blk hprog ?_ hstep⟩
      rintro i code aux rfl
      cases he
    | host a =>
      obtain ⟨c, k, hstep, rfl⟩ := step_host.mp hs
      have hgpu := HostOk.gpu_step prog hhost hstep
      refine ⟨?_, hhost.host hlock hfree he hstep, ?_⟩
      · rcases hx : (SEv.host a : SEv n).gpu with _ | e
        · rw [hx] at hgpu
          rw [events, List.filterMap_cons_none hx, hgpu]
          exact hrun
        · rw [hx] at hgpu
          rw [events, List.filterMap_cons_some hx]
          exact hrun.snoc hgpu
      · obtain ⟨h₁, h₂, h₃⟩ := hfree
        cases hstep <;> exact ⟨h₁, h₂, h₃⟩

end Single

/-! ## The pass protocol -/

/-- A block that takes a step on an instruction of the program is executing. -/
theorem BlockStep.executing {b : ℕ} {c c' : Cells} {k k' : Block} {a : Act}
    (hs : BlockStep n prog b c k a c' k') (ha : a.Executes prog) : k.pc.Executing prog := by
  obtain ⟨i, hi, ha⟩ := ha
  cases hs with
  | cross hp | begin hp | skip hp | bad hp | tick hp | raise hp | finish hp | arrive hp =>
    rw [hp]
    trivial
  | spin hp | leave hp =>
    cases ha
    rw [hp]
    exact hi
  | _ => cases ha

/-- While some block executes, the host is polling for the end of the pass rung last. -/
theorem HostOk.of_executing {τ : List (SEv n)} {s : Single n} (h : HostOk τ s)
    (hdone : s.gpu.cells.done.toNat + 1 = rings (events τ)) :
    oks τ + 1 = rings (events τ) ∧
      (given τ).reverse[rings (events τ) - 1]? = some s.gpu.cells.token := by
  have hplace := h.place
  rcases hp : s.host.pc with _ | t | t | _ | _ | _ | _ | _ <;> rw [hp] at hplace
  · obtain ⟨-, -, h₃, -⟩ := hplace
    omega
  · obtain ⟨-, -, h₃, -⟩ := hplace
    omega
  · obtain ⟨-, -, h₃, -⟩ := hplace
    omega
  · obtain ⟨-, -, h₃, -⟩ := hplace
    omega
  iterate 3
    obtain ⟨h₁, h₂, -, h₄⟩ := hplace
    refine ⟨h₂, ?_⟩
    rw [← h₁, ← h₄, ← List.getLast?_reverse, List.getLast?_eq_getElem?, List.length_reverse]
  · obtain ⟨-, -, h₃⟩ := hplace
    omega

/-- **The pass protocol.** In every run of a GPU and its host without errors, for any
interleaving:

* in each pass each block goes through the program once and in order, completely in
  the passes it has left;
* a block executes an instruction of pass `N` only when `N` passes have been rung and
  `N - 1` calls have returned, with the token of the `N`-th call in the token cell;
* `done` reaches `N` only when every block has gone through pass `N`;
* `host_run_pass` returns RUN_OK only when its own pass is done. -/
theorem pass_protocol (hn : n < 2 ^ 31) (hprog : ∀ ins ∈ prog, ins.isBad = false)
    {τ : List (SEv n)} {s : Single n} (h : (Single.lts n prog).Run τ s)
    (hclean : ∀ e ∈ τ, e.clean = true) :
    (∀ b N, 1 ≤ N → stepsIn prog b N (events τ) <+: passSteps prog b) ∧
    (∀ b N, 1 ≤ N → N < passOf b (events τ) → stepsIn prog b N (events τ) = passSteps prog b) ∧
    (∀ b a s', Single.step prog s (.dev b a) = some s' → a.Executes prog →
      rings (events τ) = passOf b (events τ) ∧ oks τ + 1 = passOf b (events τ) ∧
        (given τ).reverse[passOf b (events τ) - 1]? = some s.gpu.cells.token) ∧
    (∀ N, 1 ≤ N → N ≤ s.gpu.cells.done.toNat →
      ∀ b, stepsIn prog b N (events τ) = passSteps prog b) ∧
    (∀ s', Single.step prog s (.host .sawDone) = some s' →
      s.gpu.cells.done.toNat = (given τ).length ∧
        ∀ b, stepsIn prog b (given τ).length (events τ) = passSteps prog b) := by
  obtain ⟨hrun, hhost, -⟩ := Single.run_ok hn (badAt_eq_false hprog) h hclean
  have hlock := run_lock hn hrun
  have hinv := Gpu.run_inv hn hrun
  have hlog := run_logged hn hrun
  have hfin : ∀ N, 1 ≤ N → N ≤ s.gpu.cells.done.toNat →
      ∀ b, stepsIn prog b N (events τ) = passSteps prog b :=
    fun N h₁ h₂ b => (hlog b).of_done hlock hinv h₁ h₂
  refine ⟨fun b => (hlog b).isPrefix hlock, fun b => (hlog b).past, fun b a s' hs ha => ?_, hfin,
    fun s' hs => ?_⟩
  · obtain ⟨g, hg, -⟩ := Single.step_dev.mp hs
    obtain ⟨c, k, hstep, -⟩ := Gpu.step_blk.mp hg
    obtain ⟨hpass, hdone⟩ := hlock.executing hinv (hstep.executing ha)
    rw [← (hlog b).pass, hpass]
    exact ⟨rfl, hhost.of_executing hdone⟩
  · obtain ⟨c, k, hstep, -⟩ := Single.step_host.mp hs
    cases hstep with
    | sawDone hp hd =>
      have hplace := hhost.place
      rw [hp] at hplace
      obtain ⟨h₁, h₂, -, -⟩ := hplace
      have hlen : s.gpu.cells.done.toNat = (given τ).length := by rw [hd, hhost.pass]
      exact ⟨hlen, fun b => hfin _ (by omega) hlen.ge b⟩

/-- Two blocks: block 0 runs the one instruction, then both cross the boundary behind it. -/
def twoStep : List (Instr Unit) :=
  [⟨MacroKind.rmsnorm.code, 0, 1, ()⟩, ⟨MacroKind.boundary.code, 0, 0, ()⟩]

/-- The host calls, rings and polls; both blocks go through pass 1 up to the store of `done`. -/
def twoStepPass : List (SEv 2) :=
  [.host .noErr, .dev 0 .publish, .dev 0 .sample, .dev 0 (.leave 2), .dev 1 (.arrive 2),
    .dev 0 (.arrive 2), .dev 1 (.cross 2), .dev 0 (.cross 2), .dev 1 (.leave 1), .dev 0 (.leave 1),
    .dev 1 (.arrive 1), .dev 0 (.arrive 1), .dev 1 (.cross 1), .dev 0 (.cross 1),
    .dev 0 (.finish 0), .dev 0 (.begin 0), .dev 1 (.skip 0), .dev 1 (.start 1), .dev 0 (.start 1),
    .dev 1 (.hear 1), .dev 0 (.forward 1), .dev 0 (.hear 1), .host .ring, .host (.copy 7),
    .host (.begin 7), .host (.call 7)]

theorem pass_protocol_twoStepPass :
    ∃ s, (Single.lts 2 twoStep).Run twoStepPass s ∧ s.gpu.cells.done = 1 ∧
      ∀ b, stepsIn twoStep b 1 (events twoStepPass) = passSteps twoStep b := by
  obtain ⟨s, hs, hr⟩ := Lts.exists_run_of_isSome (Single.step twoStep) (Single.zero 2)
    twoStepPass (by decide)
  obtain ⟨-, -, -, h, -⟩ := pass_protocol (by decide) (by decide) hr (by decide)
  have hdone : s.gpu.cells.done = 1 := by
    have hval : (Lts.replay (Single.step twoStep) (Single.zero 2) twoStepPass).map
        (fun s => s.gpu.cells.done) = some 1 := by decide
    rw [hs] at hval
    exact Option.some.inj hval
  exact ⟨s, hr, hdone, h 1 le_rfl (by rw [hdone]; decide)⟩

end Megakernel
