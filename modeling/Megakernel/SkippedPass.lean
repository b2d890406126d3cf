import Megakernel.Errored

/-!
# Calls that fail before the doorbell

`host_run_pass` counts its pass (`h.pass += 1`) before it copies the token. If the
copy fails the call returns without ringing, and the number stays counted. The next
call rings a number that is further ahead, and since the kernel goes through every
pass up to the number on the bell, it executes a pass for the failed call as well,
with the token of the call that succeeded.

A `Ledger` follows the history: the calls that have failed since the last RUN_OK, and
the pass that the bell stands for, counted without wrapping. As long as the bell does
not hold the halt value, the pass numbers of the host, the bells and the blocks are
those of the ledger (`Alive`). So the passes that a successful call makes the kernel
execute are one more than the failed calls before it, modulo the range of the counters
(`Single.run_advanced`).

Whether a call is counted is a matter of one line, `h.pass += 1` before the copy that may fail. The
ledger makes the consequence countable: between two calls that return RUN_OK the kernel goes through
one pass more than calls have failed, each with the token of the last one.
-/

namespace Megakernel

variable {π : Type*} {n : ℕ} {prog : List (Instr π)}

/-- No error is raised and nothing times out: a call returns RUN_OK or fails before it rings. -/
def SEv.sound : SEv n → Bool
  | .dev _ (.raise _ _ _) | .host .timeout => false
  | _ => true

/-! ## The ledger -/

/-- What the history says of the numbers: how many calls have failed since the last RUN_OK, how many
passes had been executed then, and which passes the two bells stand for, counted without wrapping.
-/
structure Ledger : Type where
  /-- the calls that have failed since the last RUN_OK -/
  fails : ℕ
  /-- the passes executed at the last RUN_OK -/
  base : ℕ
  /-- the pass that the doorbell of the host stands for -/
  target : ℕ
  /-- the pass that the forwarded doorbell stands for -/
  sent : ℕ

/-- The ledger after one more event. -/
def Ledger.next (l : Ledger) : SEv n → Ledger
  | .host (.copyFail _) => { l with fails := l.fails + 1 }
  | .host .ring => { l with target := l.base + (l.fails + 1) % 2 ^ 32 }
  | .host .sawDone => { l with fails := 0, base := l.target }
  | .dev _ (.forward _) => { l with sent := l.target }
  | _ => l

/-- The ledger of a history. -/
def ledger : List (SEv n) → Ledger
  | [] => ⟨0, 0, 0, 0⟩
  | e :: τ => (ledger τ).next e

@[simp] theorem ledger_cons (e : SEv n) (τ : List (SEv n)) :
    ledger (e :: τ) = (ledger τ).next e := rfl

/-- The bell that a block polls, in the ledger. -/
def Ledger.bound (l : Ledger) (b : ℕ) : ℕ := if b = 0 then l.target else l.sent

theorem Ledger.bound_zero (l : Ledger) : l.bound 0 = l.target := rfl

/-! ## Blocks -/

/-- The block has finished instruction `i` in this pass. -/
def Pc.behind (i : ℕ) : Pc → Bool
  | .fetch k | .op k | .arrive k | .spin k => decide (i < k)
  | .sample | .sampled _ => true
  | _ => false

/-- How often block `b` has finished instruction `i`. -/
def finishes (b : Fin n) (i : ℕ) (τ : List (Ev n)) : ℕ := τ.count (.blk b (.finish i))

/-- What others do is not counted for a block, -/
theorem finishes_cons_foreign {b : Fin n} {e : Ev n} (h : e.Foreign b) (i : ℕ) (τ : List (Ev n)) :
    finishes b i (e :: τ) = finishes b i τ := by
  refine List.count_cons_of_ne ?_
  rintro rfl
  exact h rfl

/-- and of what it does itself only the end of the op is. -/
theorem finishes_cons_self (b : Fin n) (i : ℕ) (a : Act) (τ : List (Ev n)) :
    finishes b i (.blk b a :: τ) = finishes b i τ + if a = .finish i then 1 else 0 := by
  simp [finishes, List.count_cons]

/-- What a block knows, when its history is `τ`: its pass in the ledger's count, and that it has
finished each instruction once in every pass that it has left behind. -/
structure Paced (prog : List (Instr π)) (l : Ledger) (b : Fin n) (τ : List (Ev n)) (k : Block) :
    Prop where
  pass : k.pass = BitVec.ofNat 32 (passOf b τ)
  /-- the block is at most one pass ahead of its bell -/
  le : passOf b τ ≤ l.bound b + 1
  /-- behind the bell it is in a pass that was rung -/
  busy : k.pc.Live ∨ (∃ v, k.pc = .forward v ∨ k.pc = .bell v) → passOf b τ ≤ l.bound b
  /-- what it is about to forward is what was rung -/
  heard : ∀ v, k.pc = .forward v → v = BitVec.ofNat 32 l.target
  /-- it is not on the way out -/
  going : k.pc ≠ .bell doorbellHalt ∧ (∀ e, k.pc = .sampled e → e = 0) ∧ k.pc ≠ .exit ∧ k.pc ≠ .ret
  /-- it has finished its instructions once in every pass -/
  count : ∀ i, runs prog b i = true →
    finishes b i τ + 1 = passOf b τ + if k.pc.behind i then 1 else 0

section Paced

variable {l l' : Ledger} {b : Fin n} {τ τ' : List (Ev n)} {k k' : Block} {c c' : Cells}

/-- What others do to the ledger. -/
theorem Paced.ledger (h : Paced prog l b τ k) (hpass : passOf b τ' = passOf b τ)
    (hfin : ∀ i, finishes b i τ' = finishes b i τ) (hbound : l.bound b ≤ l'.bound b)
    (hheard : ∀ v, k.pc = .forward v → l'.target = l.target) : Paced prog l' b τ' k where
  pass := by rw [hpass, h.pass]
  le := by
    rw [hpass]
    exact h.le.trans (Nat.succ_le_succ hbound)
  busy hb := by
    rw [hpass]
    exact (h.busy hb).trans hbound
  heard v hv := by
    rw [hheard v hv]
    exact h.heard v hv
  going := h.going
  count i hi := by
    rw [hfin, hpass]
    exact h.count i hi

/-- A step within a pass. -/
theorem Paced.move (h : Paced prog l b τ k) {a : Act} (hturn : a.turns = 0)
    (hpass : k'.pass = k.pass) (hbound : l'.bound b = l.bound b) (htarget : l'.target = l.target)
    (hbusy : k'.pc.Live ∨ (∃ v, k'.pc = .forward v ∨ k'.pc = .bell v) → passOf b τ ≤ l.bound b)
    (hheard : ∀ v, k'.pc = .forward v → v = BitVec.ofNat 32 l.target)
    (hgoing : k'.pc ≠ .bell doorbellHalt ∧ (∀ e, k'.pc = .sampled e → e = 0) ∧ k'.pc ≠ .exit ∧
      k'.pc ≠ .ret)
    (hbehind : ∀ i, runs prog b i = true → (if k'.pc.behind i then 1 else 0) =
      (if k.pc.behind i then 1 else 0) + if a = .finish i then 1 else 0) :
    Paced prog l' b (.blk b a :: τ) k' := by
  have hp : passOf b (.blk b a :: τ) = passOf b τ := by rw [passOf_cons_blk, hturn, Nat.add_zero]
  refine ⟨by rw [hp, hpass, h.pass], ?_, fun hb => ?_, fun v hv => ?_, hgoing, fun i hi => ?_⟩
  · rw [hp, hbound]
    exact h.le
  · rw [hp, hbound]
    exact hbusy hb
  · rw [htarget]
    exact hheard v hv
  · rw [hp, finishes_cons_self, hbehind i hi, ← Nat.add_assoc, ← h.count i hi]
    omega

/-- A bell that has not reached the pass is not accepted. -/
theorem le_of_accepted {p t : ℕ} (hle : p ≤ t + 1)
    (hne : BitVec.ofNat 32 t ≠ doorbellHalt)
    (h : keepPolling (BitVec.ofNat 32 t) (BitVec.ofNat 32 p) = false) : p ≤ t := by
  by_contra hlt
  obtain rfl : p = t + 1 := by omega
  have hbehind : Wrap.behind (BitVec.ofNat 32 t) (BitVec.ofNat 32 (t + 1)) = true :=
    (Wrap.behind_ofNat (w := 31) (by omega) (by omega)).mpr (Nat.lt_succ_self t)
  simp [keepPolling, hne, hbehind] at h

/-- What the cells say, as long as the kernel is not sent home. -/
structure Ledger.Agrees (l : Ledger) (c : Cells) : Prop where
  door : c.doorbellHost = BitVec.ofNat 32 l.target
  door_ne : c.doorbellHost ≠ doorbellHalt
  dev : c.doorbellDev = BitVec.ofNat 32 l.sent
  dev_ne : c.doorbellDev ≠ doorbellHalt
  sent_le : l.sent ≤ l.target

/-- The bell that a block polls is in the ledger. -/
theorem Ledger.Agrees.bell (h : l.Agrees c) (b : ℕ) :
    doorbell b c = BitVec.ofNat 32 (l.bound b) ∧ doorbell b c ≠ doorbellHalt := by
  by_cases hb : b = 0
  · rw [doorbell, if_pos hb, Ledger.bound, if_pos hb]
    exact ⟨h.door, h.door_ne⟩
  · rw [doorbell, if_neg hb, Ledger.bound, if_neg hb]
    exact ⟨h.dev, h.dev_ne⟩

/-- An instruction that others run does not count. -/
theorem ne_of_skips {i j : ℕ} (hi : skips prog b i = true) (hj : runs prog b j = true) : j ≠ i := by
  rintro rfl
  have hsteps := instrSteps_of_runs hj
  rw [instrSteps_of_skips hi] at hsteps
  cases hsteps

/-- A boundary is not an op that runs. -/
theorem ne_of_isCrossing {i j : ℕ} (hi : isCrossing prog i = true) (hj : runs prog b j = true) :
    j ≠ i := by
  rintro rfl
  rw [isCrossing_eq_false_of_runs hj] at hi
  cases hi

theorem lt_succ_iff_of_ne {i j : ℕ} (h : j ≠ i) : j < i + 1 ↔ j < i := by omega

/-- The end of a pass. -/
theorem Paced.next (h : Paced prog l b τ k) {a : Act} (ha : a = .publish ∨ a = .turn)
    (hpc : k.pc = .sampled 0) (hpass : k'.pass = k.pass + 1) (hpc' : k'.pc = .poll) :
    Paced prog l b (.blk b a :: τ) k' where
  pass := by
    rw [passOf_cons_next ha, hpass, h.pass]
    exact (BitVec.ofNat_add _ _).symm
  le := by
    rw [passOf_cons_next ha]
    exact Nat.succ_le_succ (h.busy (Or.inl (by rw [hpc]; trivial)))
  busy := by
    rw [hpc']
    rintro (hlive | ⟨v, hv | hv⟩)
    · cases hlive
    · cases hv
    · cases hv
  heard v hv := by
    rw [hpc'] at hv
    cases hv
  going := by
    rw [hpc']
    exact ⟨nofun, nofun, nofun, nofun⟩
  count i hi := by
    have hcount := h.count i hi
    have hne : a ≠ .finish i := by
      rintro rfl
      obtain ha | ha := ha <;> cases ha
    rw [hpc] at hcount
    rw [passOf_cons_next ha, finishes_cons_self, if_neg hne, hpc']
    exact hcount

/-- **A step of the block itself.** -/
theorem Paced.step (h : Paced prog l b τ k) (hc : l.Agrees c) (hwf : k.pc.Wf prog b)
    (herr : c.errDev = 0) (hquiet : k.raising = []) (hprog : ∀ i, badAt prog i = false) {a : Act}
    (ha : ∀ i code aux, a ≠ .raise i code aux) (hs : BlockStep n prog b c k a c' k') :
    Paced prog (l.next (.dev b a)) b (.blk b a :: τ) k' := by
  obtain ⟨hbell, hbell_ne⟩ := hc.bell b
  have hgoing := h.going
  cases hs with
  | poll hp =>
    exact h.move rfl rfl rfl rfl h.busy h.heard h.going fun i _ => by simp
  | @hear v hp hv ht =>
    have hle : passOf b τ ≤ l.bound b := by
      rw [← hv, hbell, h.pass] at ht
      exact le_of_accepted h.le (hbell ▸ hbell_ne) ht
    by_cases hb : b.val = 0
    · rw [if_pos hb]
      refine h.move rfl rfl rfl rfl (fun _ => hle) (fun u hu => ?_)
        ⟨by simp, by simp, by simp, by simp⟩
        fun i _ => by simp [hp, Pc.behind]
      rw [← Pc.forward.inj hu, ← hv, hbell, Ledger.bound, if_pos hb]
    · rw [if_neg hb]
      refine h.move rfl rfl rfl rfl (fun _ => hle) (by simp) ⟨?_, by simp, by simp, by simp⟩
        fun i _ => by simp [hp, Pc.behind]
      exact fun heq => hbell_ne (hv.trans (Pc.bell.inj heq))
  | @forward v hp =>
    have hb : b.val = 0 := by
      rw [hp] at hwf
      exact hwf
    have hbound : (l.next (.dev b (.forward v))).bound b = l.bound b := by
      rw [Ledger.bound, Ledger.bound, if_pos hb, if_pos hb]
      rfl
    refine h.move rfl rfl hbound rfl (fun _ => h.busy (Or.inr ⟨v, Or.inl hp⟩)) (by simp)
      ⟨?_, by simp, by simp, by simp⟩ fun i _ => by simp [hp, Pc.behind]
    intro heq
    rw [Pc.bell.inj heq] at hp
    exact hc.door_ne (hc.door.trans (h.heard _ hp).symm)
  | @start v hp hne =>
    exact h.move rfl rfl rfl rfl (fun _ => h.busy (Or.inr ⟨v, Or.inr hp⟩)) (by simp)
      ⟨by simp, by simp, by simp, by simp⟩ fun i _ => by simp [hp, Pc.behind]
  | stop hp => exact absurd hp hgoing.1
  | cross hp | begin hp | tick hp | arrive hp | spin hp =>
    refine h.move rfl rfl rfl rfl (fun _ => h.busy (Or.inl (by rw [hp]; trivial))) ?_ ?_
      fun i _ => by simp [hp, Pc.behind]
    · simp [hp]
    · simp [hp]
  | @skip i hp hi =>
    refine h.move rfl rfl rfl rfl (fun _ => h.busy (Or.inl (by rw [hp]; trivial))) (by simp)
      ⟨by simp, by simp, by simp, by simp⟩ fun j hj => ?_
    simp [hp, Pc.behind, lt_succ_iff_of_ne (ne_of_skips hi hj)]
  | bad hp hi =>
    rw [hprog] at hi
    cases hi
  | raise => exact absurd rfl (ha _ _ _)
  | store hr =>
    rw [hquiet] at hr
    cases hr
  | @finish i hp =>
    refine h.move rfl rfl rfl rfl (fun _ => h.busy (Or.inl (by rw [hp]; trivial))) (by simp)
      ⟨by simp, by simp, by simp, by simp⟩ fun j hj => ?_
    obtain rfl | hne := eq_or_ne j i
    · simp [hp, Pc.behind]
    · simp [hp, Pc.behind, lt_succ_iff_of_ne hne, hne.symm]
  | @leave i hp =>
    rw [hp] at hwf
    have hbusy := h.busy (Or.inl (by rw [hp]; trivial))
    by_cases hi : i < prog.length
    · rw [afterCross, if_pos hi]
      refine h.move rfl rfl rfl rfl (fun _ => hbusy) (by simp) ⟨by simp, by simp, by simp, by simp⟩
        fun j hj => ?_
      simp [hp, Pc.behind, lt_succ_iff_of_ne (ne_of_isCrossing hwf.2 hj)]
    · rw [afterCross, if_neg hi]
      refine h.move rfl rfl rfl rfl (fun _ => hbusy) (by simp) ⟨by simp, by simp, by simp, by simp⟩
        fun j hj => ?_
      have hlt := lt_length_of_runs hj
      have hji : j < i := by omega
      simp [hp, Pc.behind, hji]
  | sample hp =>
    refine h.move rfl rfl rfl rfl (fun _ => h.busy (Or.inl (by rw [hp]; trivial))) (by simp)
      ⟨by simp, ?_, by simp, by simp⟩ fun j hj => by simp [hp, Pc.behind]
    intro e heq
    rw [← Pc.sampled.inj heq, herr]
  | publish hp => exact h.next (Or.inl rfl) hp rfl rfl
  | turn hp => exact h.next (Or.inr rfl) hp rfl rfl
  | quit hp hne => exact absurd (hgoing.2.1 _ hp) hne
  | gone hp => exact absurd hp hgoing.2.2.1

end Paced

/-! ## The host -/

/-- Where the host stands, when block 0 is in pass `p`: the number it has issued, and the tokens of
the last call and of the device. -/
def HostPc.Paced (l : Ledger) (p : ℕ) (pass : U32) (last : Option U32) (token : U32) : HostPc → Prop
  | .idle | .check _ =>
    p = l.target + 1 ∧ l.target = l.base ∧ pass = BitVec.ofNat 32 (l.base + l.fails)
  | .copy t =>
    p = l.target + 1 ∧ l.target = l.base ∧ pass = BitVec.ofNat 32 (l.base + (l.fails + 1)) ∧
      last = some t
  | .bell =>
    p = l.target + 1 ∧ l.target = l.base ∧ pass = BitVec.ofNat 32 (l.base + (l.fails + 1)) ∧
      last = some token
  | .pollErr | .pollDone | .deadline =>
    l.target + 1 < p + 2 ^ 32 ∧ l.target = l.base + (l.fails + 1) % 2 ^ 32 ∧
      pass = BitVec.ofNat 32 l.target ∧ last = some token
  | .halted => False

/-- The numbers of the host, the bells and the blocks are those of the ledger. `z` is block 0. It is
an invariant as long as no bell comes to hold the halt value by wrapping. -/
structure Alive (prog : List (Instr π)) (z : Fin n) (τ : List (SEv n)) (s : Single n) : Prop where
  cells : (ledger τ).Agrees s.gpu.cells
  done : s.gpu.cells.done = BitVec.ofNat 32 (passOf z (events τ) - 1)
  block : ∀ b, Paced prog (ledger τ) b (events τ) (s.gpu.block b)
  place : s.host.pc.Paced (ledger τ) (passOf z (events τ)) s.host.pass (given τ).head?
    s.gpu.cells.token

/-- The host waits for the pass that it has rung. -/
def HostPc.Polls (pc : HostPc) : Prop := pc = .pollErr ∨ pc = .pollDone ∨ pc = .deadline

/-- The bell holds the halt value, and no call will return RUN_OK any more. This happens only by
coincidence, when the number of the pass that is rung wraps to it. -/
structure Stuck (z : Fin n) (s : Single n) : Prop where
  door : s.gpu.cells.doorbellHost = doorbellHalt
  zero : (s.gpu.block z).pc = .poll ∨ (s.gpu.block z).pc = .forward doorbellHalt ∨
    (s.gpu.block z).pc = .bell doorbellHalt ∨ (s.gpu.block z).pc = .ret
  place : s.host.pc = .halted ∨ s.host.pc.Polls ∧ s.gpu.cells.done ≠ s.host.pass

section Steps

variable {z : Fin n} {τ : List (SEv n)} {s : Single n}

/-- A block that is a pass ahead of its bell polls it. -/
theorem Paced.poll_of_lt {l : Ledger} {b : Fin n} {σ : List (Ev n)} {k : Block}
    (h : Paced prog l b σ k) (hlt : l.bound b < passOf b σ) : k.pc = .poll := by
  have hbusy : ¬ (k.pc.Live ∨ ∃ v, k.pc = .forward v ∨ k.pc = .bell v) := fun hb =>
    absurd (h.busy hb) (not_le.mpr hlt)
  obtain ⟨-, -, hexit, hret⟩ := h.going
  rcases hp : k.pc with _ | v | v | i | i | i | i | _ | e | _ | _
  · rfl
  · exact (hbusy (Or.inr ⟨v, Or.inl hp⟩)).elim
  · exact (hbusy (Or.inr ⟨v, Or.inr hp⟩)).elim
  iterate 6 exact (hbusy (Or.inl (by rw [hp]; trivial))).elim
  · exact absurd hp hexit
  · exact absurd hp hret

/-- The steps of the kernel are kept in the history of the kernel, as they are. -/
theorem events_dev (b : Fin n) (a : Act) (τ : List (SEv n)) :
    events (.dev b a :: τ) = .blk b a :: events τ := rfl

/-- The cells after a step of a block. -/
theorem Ledger.Agrees.step {l : Ledger} {b : Fin n} {c c' : Cells} {k k' : Block} {a : Act}
    (h : l.Agrees c) {σ : List (Ev n)} (hk : Paced prog l b σ k)
    (hs : BlockStep n prog b c k a c' k') : (l.next (.dev b a)).Agrees c' := by
  have hsame (ha : l.next (.dev b a) = l) (hdoor : c'.doorbellHost = c.doorbellHost)
      (hdev : c'.doorbellDev = c.doorbellDev) : (l.next (.dev b a)).Agrees c' := by
    rw [ha]
    exact ⟨hdoor ▸ h.door, hdoor ▸ h.door_ne, hdev ▸ h.dev, hdev ▸ h.dev_ne, h.sent_le⟩
  cases hs with
  | forward hp =>
    have hv := hk.heard _ hp
    exact ⟨h.door, h.door_ne, hv, hv ▸ h.door ▸ h.door_ne, le_rfl⟩
  | store hr => exact hsame rfl (Raise.write_doorbellHost _ _) (Raise.write_doorbellDev _ _)
  | _ => exact hsame rfl rfl rfl

/-- The bells only rise. -/
theorem Ledger.bound_mono {l : Ledger} (hle : l.sent ≤ l.target) (b : Fin n) (a : Act) (j : ℕ) :
    l.bound j ≤ (l.next (.dev b a)).bound j := by
  cases a with
  | forward v =>
    rw [Ledger.bound, Ledger.bound]
    split
    · exact le_rfl
    · exact hle
  | _ => exact le_rfl

/-- Block steps do not touch `done`, but for the last step of block 0 in a pass. -/
theorem BlockStep.done_eq {b : ℕ} {c c' : Cells} {k k' : Block} {a : Act}
    (hs : BlockStep n prog b c k a c' k') (ha : a ≠ .publish) : c'.done = c.done := by
  cases hs with
  | publish => exact absurd rfl ha
  | store hr => exact Raise.write_done _ _
  | _ => rfl

/-- Block 0 ends its passes by publishing them. -/
theorem BlockStep.passOf_zero {z b : Fin n} (hz : z.val = 0) {c c' : Cells} {k k' : Block} {a : Act}
    (hs : BlockStep n prog b c k a c' k') (σ : List (Ev n)) :
    passOf z (.blk b a :: σ) = passOf z σ + if a = .publish then 1 else 0 := by
  by_cases hb : b = z
  · subst hb
    rw [passOf_cons_blk]
    cases hs with
    | turn _ h0 => exact absurd hz h0
    | _ => rfl
  · rw [passOf_cons_other hb, if_neg, Nat.add_zero]
    rintro rfl
    cases hs with
    | publish _ h0 => exact hb (Fin.ext (h0.trans hz.symm))

/-- A later pass of block 0. -/
theorem HostPc.Paced.mono {l l' : Ledger} {p p' : ℕ} {pass : U32} {last : Option U32} {token : U32}
    {pc : HostPc} (h : pc.Paced l p pass last token) (hl : l'.target = l.target)
    (hb : l'.base = l.base) (hf : l'.fails = l.fails) (hle : p ≤ p')
    (hquiet : p = l.target + 1 → p' = p) : pc.Paced l' p' pass last token := by
  cases pc with
  | idle | check | copy | bell =>
    obtain ⟨h₁, h₂⟩ := h
    simp only [HostPc.Paced, hl, hb, hf]
    exact ⟨(hquiet h₁).trans h₁, h₂⟩
  | pollErr | pollDone | deadline =>
    obtain ⟨h₁, h₂⟩ := h
    simp only [HostPc.Paced, hl, hb, hf]
    exact ⟨by omega, h₂⟩
  | halted => exact h

/-- **Block steps keep the numbers.** -/
theorem Alive.dev (h : Alive prog z τ s) (hz : z.val = 0) (hfree : ErrorFree s.gpu)
    (hplaced : InPlace prog (events τ) s.gpu) (hprog : ∀ i, badAt prog i = false) {b : Fin n}
    {a : Act} (ha : ∀ i code aux, a ≠ .raise i code aux) {c : Cells} {k : Block}
    (hs : BlockStep n prog b s.gpu.cells (s.gpu.block b) a c k) :
    Alive prog z (.dev b a :: τ) { s with gpu := ⟨c, Function.update s.gpu.block b k⟩ } := by
  have hk := h.block b
  have hwf := (hplaced b).wf
  have hstep := hk.step h.cells hwf hfree.dev (hfree.quiet b) hprog ha hs
  obtain ⟨hdoor, htok⟩ := hs.host_cells
  have hpass := hs.passOf_zero hz (events τ)
  -- block 0 ends a pass by publishing it, and only if the pass was rung
  have hpub : a = .publish → c.done = BitVec.ofNat 32 (passOf z (events τ)) ∧
      passOf z (events τ) ≤ (ledger τ).target := by
    rintro rfl
    cases hs with
    | publish hp h0 =>
      obtain rfl : b = z := Fin.ext (h0.trans hz.symm)
      have hbusy := hk.busy (Or.inl (by rw [hp]; trivial))
      rw [h0] at hbusy
      exact ⟨hk.pass, hbusy⟩
  refine ⟨h.cells.step hk hs, ?_, fun j => ?_, ?_⟩
  · rw [events_dev, hpass]
    split
    · next heq =>
      rw [Nat.add_sub_cancel]
      exact (hpub heq).1
    · next hne => exact (hs.done_eq hne).trans h.done
  · obtain rfl | hne := eq_or_ne j b
    · rw [Gpu.block_self]
      exact hstep
    · have hforeign : (Ev.blk b a : Ev n).Foreign j := fun heq => hne heq.symm
      rw [Gpu.block_other hne, events_dev]
      refine (h.block j).ledger (passOf_cons_foreign hforeign)
        (fun i => finishes_cons_foreign hforeign i _) (Ledger.bound_mono h.cells.sent_le b a j) ?_
      intro v _
      cases a <;> rfl
  · have hfields : ((ledger τ).next (.dev b a)).target = (ledger τ).target ∧
        ((ledger τ).next (.dev b a)).base = (ledger τ).base ∧
          ((ledger τ).next (.dev b a)).fails = (ledger τ).fails := by
      cases a <;> exact ⟨rfl, rfl, rfl⟩
    have hplace := h.place
    rw [← htok] at hplace
    rw [events_dev, hpass]
    refine hplace.mono hfields.1 hfields.2.1 hfields.2.2 (Nat.le_add_right _ _) fun hq => ?_
    rw [if_neg, Nat.add_zero]
    intro heq
    have hrung := (hpub heq).2
    omega

/-- Host steps do not move the blocks. -/
theorem passOf_host (b : Fin n) (a : HostAct) (τ : List (SEv n)) :
    passOf b (events (.host a :: τ)) = passOf b (events τ) ∧
      ∀ i, finishes b i (events (.host a :: τ)) = finishes b i (events τ) := by
  rcases hx : (SEv.host a : SEv n).gpu with _ | e
  · rw [events, List.filterMap_cons_none hx]
    exact ⟨rfl, fun _ => rfl⟩
  · have hforeign : e.Foreign b := by cases a <;> cases hx <;> trivial
    rw [events, List.filterMap_cons_some hx]
    exact ⟨passOf_cons_foreign hforeign, fun i => finishes_cons_foreign hforeign i _⟩

/-- A step of the host that leaves the bell alone. -/
theorem Alive.think (h : Alive prog z τ s) {a : HostAct} {c : Cells} {k : Host}
    (htarget : ((ledger τ).next (.host a : SEv n)).target = (ledger τ).target)
    (hsent : ((ledger τ).next (.host a : SEv n)).sent = (ledger τ).sent)
    (hdoor : c.doorbellHost = s.gpu.cells.doorbellHost)
    (hdev : c.doorbellDev = s.gpu.cells.doorbellDev) (hdone : c.done = s.gpu.cells.done)
    (hplace : k.pc.Paced (ledger (.host a :: τ)) (passOf z (events τ)) k.pass
      (given (.host a :: τ)).head? c.token) : Alive prog z (.host a :: τ)
        ⟨⟨c, s.gpu.block⟩, k⟩ := by
  obtain ⟨h₁, h₂, h₃, h₄, h₅⟩ := h.cells
  refine ⟨⟨?_, ?_, ?_, ?_, ?_⟩, ?_, fun b => ?_, ?_⟩
  · rw [ledger_cons, htarget, hdoor, h₁]
  · rw [hdoor]
    exact h₂
  · rw [ledger_cons, hsent, hdev, h₃]
  · rw [hdev]
    exact h₄
  · rw [ledger_cons, hsent, htarget]
    exact h₅
  · rw [hdone, (passOf_host z a τ).1, h.done]
  · refine (h.block b).ledger (passOf_host b a τ).1 (passOf_host b a τ).2 ?_ fun _ _ => htarget
    rw [ledger_cons, Ledger.bound, Ledger.bound, htarget, hsent]
  · rw [(passOf_host z a τ).1]
    exact hplace

/-- When nothing is in flight block 0 polls. -/
theorem Alive.zero_poll (h : Alive prog z τ s) (hz : z.val = 0)
    (hp : passOf z (events τ) = (ledger τ).target + 1) : (s.gpu.block z).pc = .poll := by
  refine (h.block z).poll_of_lt ?_
  rw [hz, Ledger.bound_zero]
  omega

/-- **The host rings**: the next pass, or one further ahead, or by coincidence the halt value. -/
theorem Alive.ring (h : Alive prog z τ s) (hz : z.val = 0)
    (hplaced : InPlace prog (events τ) s.gpu) (hp : s.host.pc = .bell) :
    Alive prog z (.host .ring :: τ)
      ⟨⟨{ s.gpu.cells with doorbellHost := s.host.pass }, s.gpu.block⟩,
        { s.host with pc := .pollErr }⟩ ∨
      Stuck z ⟨⟨{ s.gpu.cells with doorbellHost := s.host.pass }, s.gpu.block⟩,
        { s.host with pc := .pollErr }⟩ := by
  have hplace := h.place
  rw [hp] at hplace
  obtain ⟨hquiet, hbase, hpass, hlast⟩ := hplace
  have hpoll := h.zero_poll hz hquiet
  obtain ⟨h₁, h₂, h₃, h₄, h₅⟩ := h.cells
  by_cases hhalt : s.host.pass = doorbellHalt
  · refine Or.inr ⟨hhalt, Or.inl hpoll, Or.inr ⟨Or.inl rfl, ?_⟩⟩
    have hdone := h.done
    rw [hquiet, Nat.add_sub_cancel, ← h₁] at hdone
    exact fun heq => h₂ (hdone.symm.trans (heq.trans hhalt))
  · left
    have hmod : BitVec.ofNat 32 ((ledger τ).base + ((ledger τ).fails + 1) % 2 ^ 32) =
        BitVec.ofNat 32 ((ledger τ).base + ((ledger τ).fails + 1)) := by
      refine BitVec.eq_of_toNat_eq ?_
      rw [BitVec.toNat_ofNat, BitVec.toNat_ofNat, Nat.add_mod_mod]
    have hmono : (ledger τ).target ≤ (ledger (.host .ring :: τ)).target :=
      hbase.le.trans (Nat.le_add_right _ _)
    have hlt := Nat.mod_lt ((ledger τ).fails + 1) (by decide : 0 < 2 ^ 32)
    refine ⟨⟨hpass.trans hmod.symm, hhalt, h₃, h₄, h₅.trans hmono⟩, ?_, fun b => ?_, ?_⟩
    · rw [(passOf_host z .ring τ).1]
      exact h.done
    · refine (h.block b).ledger (passOf_host b .ring τ).1 (passOf_host b .ring τ).2 ?_ ?_
      · rw [Ledger.bound, Ledger.bound]
        split
        · exact hmono
        · exact le_rfl
      · intro v hv
        have hwf := (hplaced b).wf
        rw [hv] at hwf
        obtain rfl : b = z := Fin.ext ((show b.val = 0 from hwf).trans hz.symm)
        rw [hpoll] at hv
        cases hv
    · rw [(passOf_host z .ring τ).1]
      refine ⟨?_, rfl, hpass.trans hmod.symm, hlast⟩
      simp only [ledger_cons, Ledger.next]
      omega

/-- When the done cell holds the number of the pass, nothing is in flight. -/
theorem Alive.quiet_of_done (h : Alive prog z τ s) (hz : z.val = 0) (hp : s.host.pc = .pollDone)
    (hd : s.gpu.cells.done = s.host.pass) : passOf z (events τ) = (ledger τ).target + 1 := by
  have hplace := h.place
  rw [hp] at hplace
  obtain ⟨h₁, -, h₃, -⟩ := hplace
  have hle := (h.block z).le
  rw [hz, Ledger.bound_zero] at hle
  have hpos := passOf_pos z (events τ)
  rw [h.done, h₃] at hd
  have hsub := Wrap.ofNat_inj (by omega) (by omega) hd
  omega

/-- **Host steps keep the numbers**, until the bell holds the halt value. -/
theorem Alive.host (h : Alive prog z τ s) (hz : z.val = 0) (hfree : ErrorFree s.gpu)
    (hplaced : InPlace prog (events τ) s.gpu) {a : HostAct} (ha : (SEv.host a : SEv n).sound = true)
    {c : Cells} {k : Host} (hs : HostStep s.gpu.cells s.host a c k) :
    Alive prog z (.host a :: τ) ⟨⟨c, s.gpu.block⟩, k⟩ ∨ Stuck z ⟨⟨c, s.gpu.block⟩, k⟩ := by
  have hplace := h.place
  cases hs with
  | ring hp => exact h.ring hz hplaced hp
  | refuse hp he => exact absurd hfree.host he
  | sawErr hp he => exact absurd hfree.host he
  | timeout hp => cases ha
  | shutdown hp =>
    rw [hp] at hplace
    exact Or.inr ⟨rfl, Or.inl (h.zero_poll hz hplace.1), Or.inl rfl⟩
  | call hp | noErr hp | notDone hp | again hp =>
    rw [hp] at hplace
    exact Or.inl (h.think rfl rfl rfl rfl rfl hplace)
  | begin hp =>
    rw [hp] at hplace
    obtain ⟨h₁, h₂, h₃⟩ := hplace
    refine Or.inl (h.think rfl rfl rfl rfl rfl ⟨h₁, h₂, ?_, rfl⟩)
    rw [h₃]
    exact (BitVec.ofNat_add _ _).symm
  | copy hp =>
    rw [hp] at hplace
    exact Or.inl (h.think rfl rfl rfl rfl rfl hplace)
  | copyFail hp =>
    rw [hp] at hplace
    obtain ⟨h₁, h₂, h₃, -⟩ := hplace
    exact Or.inl (h.think rfl rfl rfl rfl rfl ⟨h₁, h₂, h₃⟩)
  | sawDone hp hd =>
    have hquiet := h.quiet_of_done hz hp hd
    rw [hp] at hplace
    obtain ⟨-, -, h₃, -⟩ := hplace
    exact Or.inl (h.think rfl rfl rfl rfl rfl ⟨hquiet, rfl, h₃⟩)

/-- Nothing gets the kernel going again. -/
theorem Stuck.dev (h : Stuck z s) (hz : z.val = 0) {b : Fin n} {a : Act} {c : Cells} {k : Block}
    (hs : BlockStep n prog b s.gpu.cells (s.gpu.block b) a c k) :
    Stuck z { s with gpu := ⟨c, Function.update s.gpu.block b k⟩ } := by
  obtain ⟨hdoor, hzero, hplace⟩ := h
  have hdone : c.done = s.gpu.cells.done := by
    refine hs.done_eq ?_
    rintro rfl
    cases hs with
    | publish hp h0 =>
      obtain rfl : b = z := Fin.ext (h0.trans hz.symm)
      rw [hp] at hzero
      obtain hzero | hzero | hzero | hzero := hzero <;> cases hzero
  refine ⟨hs.host_cells.1.trans hdoor, ?_, hplace.imp_right fun hpoll => ⟨hpoll.1, hdone ▸ hpoll.2⟩⟩
  obtain hne | rfl := ne_or_eq z b
  · rw [Gpu.block_other hne]
    exact hzero
  · rw [Gpu.block_self]
    cases hs with
    | poll hp => exact Or.inl hp
    | hear hp hv =>
      rw [doorbell, if_pos hz, hdoor] at hv
      rw [if_pos hz, ← hv]
      exact Or.inr (Or.inl rfl)
    | forward hp =>
      rw [hp] at hzero
      obtain hzero | hzero | hzero | hzero := hzero <;> cases hzero
      exact Or.inr (Or.inr (Or.inl rfl))
    | start hp hne =>
      rw [hp] at hzero
      obtain hzero | hzero | hzero | hzero := hzero <;> cases hzero
      exact absurd rfl hne
    | stop => exact Or.inr (Or.inr (Or.inr rfl))
    | store => exact hzero
    | cross hp | begin hp | skip hp | bad hp | tick hp | raise hp | finish hp | arrive hp | spin hp
    | leave hp | sample hp | publish hp | turn hp | quit hp | gone hp =>
      rw [hp] at hzero
      obtain hzero | hzero | hzero | hzero := hzero <;> cases hzero

/-- The host polls for a pass that will not be done. -/
theorem Stuck.think (h : Stuck z s) (hfree : ErrorFree s.gpu) {a : HostAct}
    (ha : (SEv.host a : SEv n).sound = true) {c : Cells} {k : Host}
    (hs : HostStep s.gpu.cells s.host a c k) : Stuck z ⟨⟨c, s.gpu.block⟩, k⟩ := by
  obtain ⟨hdoor, hzero, hplace⟩ := h
  cases hs with
  | noErr hp =>
    rw [hp] at hplace
    obtain hplace | ⟨-, hdone⟩ := hplace
    · cases hplace
    · exact ⟨hdoor, hzero, Or.inr ⟨Or.inr (Or.inl rfl), hdone⟩⟩
  | notDone hp =>
    rw [hp] at hplace
    obtain hplace | ⟨-, hdone⟩ := hplace
    · cases hplace
    · exact ⟨hdoor, hzero, Or.inr ⟨Or.inr (Or.inr rfl), hdone⟩⟩
  | again hp =>
    rw [hp] at hplace
    obtain hplace | ⟨-, hdone⟩ := hplace
    · cases hplace
    · exact ⟨hdoor, hzero, Or.inr ⟨Or.inl rfl, hdone⟩⟩
  | sawErr hp he => exact absurd hfree.host he
  | timeout hp => cases ha
  | sawDone hp hd =>
    obtain hplace | ⟨-, hdone⟩ := hplace
    · rw [hp] at hplace
      cases hplace
    · exact absurd hd hdone
  | call hp | refuse hp | begin hp | copy hp | copyFail hp | ring hp | shutdown hp =>
    rw [hp] at hplace
    obtain hplace | ⟨hplace | hplace | hplace, -⟩ := hplace <;> cases hplace

/-- At the start everything is as it should be, and no pass has been rung. -/
theorem alive_zero (z : Fin n) : Alive prog z [] (Single.zero n) where
  cells := ⟨rfl, nofun, rfl, nofun, le_rfl⟩
  done := rfl
  block b := by
    refine ⟨rfl, Nat.le_add_left 1 _, ?_, nofun, ⟨nofun, nofun, nofun, nofun⟩, fun i _ => rfl⟩
    rintro (hlive | ⟨v, hv | hv⟩)
    · cases hlive
    · cases hv
    · cases hv
  place := ⟨rfl, rfl, rfl⟩

/-- **In every run without errors and timeouts** the numbers are those of the ledger, or the bell
holds the halt value. -/
theorem Single.run_alive (hprog : ∀ i, badAt prog i = false) (hz : z.val = 0)
    (h : (Single.lts n prog).Run τ s) (hsound : ∀ e ∈ τ, e.sound = true) :
    ErrorFree s.gpu ∧ (Alive prog z τ s ∨ Stuck z s) := by
  revert hsound
  refine Lts.Run.inv (I := fun τ s => (∀ e ∈ τ, e.sound = true) →
    ErrorFree s.gpu ∧ (Alive prog z τ s ∨ Stuck z s)) ?_ ?_ h
  · rintro s rfl -
    exact ⟨⟨rfl, rfl, fun _ => rfl⟩, Or.inl (alive_zero z)⟩
  · intro τ s e s' hrun ih hs hsound
    obtain ⟨hfree, hstate⟩ := ih fun e he => hsound e (List.mem_cons_of_mem _ he)
    have he : e.sound = true := hsound e List.mem_cons_self
    have hplaced := Gpu.anyHost_placed (Single.run_anyHost hrun)
    cases e with
    | dev b a =>
      obtain ⟨g, hg, rfl⟩ := step_dev.mp hs
      obtain ⟨c, k, hstep, rfl⟩ := Gpu.step_blk.mp hg
      have ha : ∀ i code aux, a ≠ .raise i code aux := by
        rintro i code aux rfl
        cases he
      refine ⟨hfree.blk hprog ha hstep, ?_⟩
      obtain halive | hstuck := hstate
      · exact Or.inl (halive.dev hz hfree hplaced hprog ha hstep)
      · exact Or.inr (hstuck.dev hz hstep)
    | host a =>
      obtain ⟨c, k, hstep, rfl⟩ := step_host.mp hs
      refine ⟨?_, ?_⟩
      · obtain ⟨h₁, h₂, h₃⟩ := hfree
        cases hstep <;> exact ⟨h₁, h₂, h₃⟩
      · obtain halive | hstuck := hstate
        · exact halive.host hz hfree hplaced he hstep
        · exact Or.inr (hstuck.think hfree he hstep)

/-- **When nothing is in flight**, a block polls for the next pass or is in the epilogue of the
last. -/
theorem Alive.settled (h : Alive prog z τ s) (hz : z.val = 0)
    (hinv : Grid.Inv ((events τ).filterMap Ev.cross) s.gpu.grid)
    (hplaced : InPlace prog (events τ) s.gpu) (hp : passOf z (events τ) = (ledger τ).target + 1)
    (b : Fin n) :
    (s.gpu.block b).pc = .poll ∧ passOf b (events τ) = (ledger τ).target + 1 ∨
      passOf b (events τ) = (ledger τ).target ∧ ((s.gpu.block b).pc = .spin prog.length ∨
        (s.gpu.block b).pc = .sample ∨ ∃ e, (s.gpu.block b).pc = .sampled e) := by
  have hk := h.block b
  have hbound : (ledger τ).bound b ≤ (ledger τ).target := by
    rw [Ledger.bound]
    split
    · exact le_rfl
    · exact h.cells.sent_le
  obtain hnext | hlast := Nat.lt_or_ge (ledger τ).target (passOf b (events τ))
  · have hle := hk.le
    exact Or.inl ⟨hk.poll_of_lt (by omega), by omega⟩
  -- the block has arrived at the epilogue that block 0 has left
  have hzero := (hplaced z).place
  rw [h.zero_poll hz hp, hp] at hzero
  simp only [Pc.At, Nat.add_sub_cancel] at hzero
  have harr : (ledger τ).target * stride prog ≤ arrived b (events τ) :=
    hzero.ge.trans (hinv.sound z b)
  have hmul : passOf b (events τ) * stride prog ≤ (ledger τ).target * stride prog :=
    Nat.mul_le_mul_right _ hlast
  have hpos := passOf_pos b (events τ)
  have hstart := sub_one_mul_add (m := stride prog) hpos
  have hstride : 0 < stride prog := Nat.succ_pos _
  have hat := (hplaced b).place
  have hwf := (hplaced b).wf
  have hout := arrived_eq_left hinv (b := b)
  have heq (hge : arrived b (events τ) ≤ passOf b (events τ) * stride prog) :
      passOf b (events τ) = (ledger τ).target :=
    hlast.antisymm (Nat.le_of_mul_le_mul_right (harr.trans hge) hstride)
  obtain ⟨-, -, hexit, hret⟩ := hk.going
  right
  rcases hpc : (s.gpu.block b).pc with _ | v | v | i | i | i | i | _ | e | _ | _ <;>
    rw [hpc] at hat hwf hout
  · have hthis := hout (by simp [Pc.phase])
    simp only [Pc.At] at hat
    omega
  · have hthis := hout (by simp [Pc.phase])
    simp only [Pc.At] at hat
    omega
  · have hthis := hout (by simp [Pc.phase])
    simp only [Pc.At] at hat
    omega
  iterate 3
    have hthis := hout (by simp [Pc.phase])
    have hlt := place_lt prog i hpos
    simp only [Pc.At] at hat
    omega
  · have hthis : arrived b (events τ) = left b (events τ) + 1 := by
      have hspin := hinv.arrived b
      rwa [if_pos (show s.gpu.grid.phase b = .spinning from congrArg Pc.phase hpc)] at hspin
    simp only [Pc.At] at hat
    obtain hlt | hge := Nat.lt_or_ge i prog.length
    · have hlt' := place_lt prog (i + 1) hpos
      rw [bnd_succ_of_isCrossing hwf.2 hlt] at hlt'
      omega
    · obtain rfl : i = prog.length := hwf.1.antisymm hge
      have hbnd : bnd prog prog.length + 1 = stride prog := bnd_length
      exact ⟨heq (by omega), Or.inl rfl⟩
  · have hthis := hout (by simp [Pc.phase])
    simp only [Pc.At] at hat
    exact ⟨heq (by omega), Or.inr (Or.inl rfl)⟩
  · have hthis := hout (by simp [Pc.phase])
    simp only [Pc.At] at hat
    exact ⟨heq (by omega), Or.inr (Or.inr ⟨e, rfl⟩)⟩
  · exact absurd hpc hexit
  · exact absurd hpc hret

/-- When nothing is in flight, every instruction has been finished once in every pass. -/
theorem Alive.finishes_eq (h : Alive prog z τ s) (hz : z.val = 0)
    (hinv : Grid.Inv ((events τ).filterMap Ev.cross) s.gpu.grid)
    (hplaced : InPlace prog (events τ) s.gpu) (hp : passOf z (events τ) = (ledger τ).target + 1)
    {b : Fin n} {i : ℕ} (hi : runs prog b i = true) :
    finishes b i (events τ) = (ledger τ).target := by
  have hcount := (h.block b).count i hi
  have hlt := lt_length_of_runs hi
  obtain ⟨hpc, hpass⟩ | ⟨hpass, hpc | hpc | ⟨e, hpc⟩⟩ := h.settled hz hinv hplaced hp b <;>
    rw [hpc, hpass] at hcount
  · simpa [Pc.behind] using hcount
  · simpa [Pc.behind, hlt] using hcount
  · simpa [Pc.behind] using hcount
  · simpa [Pc.behind] using hcount

/-- **A block executes instructions only while the host polls.** -/
theorem Alive.polling (h : Alive prog z τ s) (hz : z.val = 0)
    (hinv : Grid.Inv ((events τ).filterMap Ev.cross) s.gpu.grid)
    (hplaced : InPlace prog (events τ) s.gpu) {b : Fin n} (he : (s.gpu.block b).pc.Executing prog) :
    s.host.pc.Polls ∧ (given τ).head? = some s.gpu.cells.token := by
  have hbusy : passOf z (events τ) ≠ (ledger τ).target + 1 := by
    intro hp
    obtain ⟨hpc, -⟩ | ⟨-, hpc | hpc | ⟨e, hpc⟩⟩ := h.settled hz hinv hplaced hp b <;>
      rw [hpc] at he
    · cases he
    · exact lt_irrefl _ he
    · cases he
    · cases he
  have hplace := h.place
  rcases hp : s.host.pc with _ | t | t | _ | _ | _ | _ | _ <;> rw [hp] at hplace
  · exact absurd hplace.1 hbusy
  · exact absurd hplace.1 hbusy
  · exact absurd hplace.1 hbusy
  · exact absurd hplace.1 hbusy
  · exact ⟨Or.inl rfl, hplace.2.2.2⟩
  · exact ⟨Or.inr (Or.inl rfl), hplace.2.2.2⟩
  · exact ⟨Or.inr (Or.inr rfl), hplace.2.2.2⟩
  · exact hplace.elim

end Steps

/-! ## Calls -/

/-- How many calls have failed before they rang. -/
def copyFails (τ : List (SEv n)) : ℕ :=
  τ.countP fun
    | .host (.copyFail _) => true
    | _ => false

/-- What the events `τ₁` after `τ₀` make of the kernel: `m` passes, in each of which every
instruction is executed once, all with the token of the last call. The claim about failed calls is
about this `m`. -/
structure Advanced (prog : List (Instr π)) (τ₀ τ₁ : List (SEv n)) (m : ℕ) : Prop where
  passes : ∀ z : Fin n, z.val = 0 →
    passOf z (events (τ₁ ++ τ₀)) = passOf z (events τ₀) + m
  instrs : ∀ (b : Fin n) i, runs prog b i = true → finishes b i (events τ₁) = m
  token : ∀ τ₃ b a τ₂, τ₁ = τ₃ ++ .dev b a :: τ₂ → a.Executes prog →
    ∀ s, (Single.lts n prog).Run (τ₂ ++ τ₀) s → (given (τ₁ ++ τ₀)).head? = some s.gpu.cells.token

/-- The events `τ₁` are those since the last call that has returned RUN_OK, or since the launch. -/
structure SinceOk (τ₀ τ₁ : List (SEv n)) : Prop where
  none : .host .sawDone ∉ τ₁
  last : τ₀ = [] ∨ τ₀.head? = some (.host .sawDone)

section Calls

variable {z : Fin n} {τ τ₀ τ₁ : List (SEv n)} {s s₀ : Single n}

/-- The ledger of the events since the last RUN_OK. -/
theorem SinceOk.ledger_eq (h : SinceOk τ₀ τ₁) : (ledger (τ₁ ++ τ₀)).base = (ledger τ₀).target ∧
    (ledger (τ₁ ++ τ₀)).fails = copyFails τ₁ := by
  obtain ⟨hnone, hlast⟩ := h
  induction τ₁ with
  | nil =>
    cases τ₀ with
    | nil => exact ⟨rfl, rfl⟩
    | cons e τ =>
      obtain hlast | hlast := hlast
      · cases hlast
      · obtain rfl := Option.some.inj hlast
        exact ⟨rfl, rfl⟩
  | cons e τ₁ ih =>
    obtain ⟨hbase, hfails⟩ := ih fun hmem => hnone (List.mem_cons_of_mem _ hmem)
    have hne : e ≠ .host .sawDone := fun heq => hnone (heq ▸ List.mem_cons_self)
    rw [List.cons_append, ledger_cons, copyFails, List.countP_cons, ← copyFails, ← hbase, ← hfails]
    cases e with
    | dev b a => cases a <;> exact ⟨rfl, rfl⟩
    | host a =>
      cases a with
      | sawDone => exact absurd rfl hne
      | _ => exact ⟨rfl, rfl⟩

/-- A host that polls goes on until the call returns, and a kernel that is sent home does not come
back. -/
theorem Single.run_append (hprog : ∀ i, badAt prog i = false) (hz : z.val = 0) {τ₂ : List (SEv n)}
    (h : (Single.lts n prog).Run (τ₂ ++ τ) s) (h₀ : (Single.lts n prog).Run τ s₀)
    (hsound : ∀ e ∈ τ₂ ++ τ, e.sound = true) (hnone : .host .sawDone ∉ τ₂) :
    (Stuck z s₀ → Stuck z s) ∧
      (s₀.host.pc.Polls → s.host.pc.Polls ∧ given (τ₂ ++ τ) = given τ) := by
  induction τ₂ generalizing s with
  | nil =>
    obtain rfl := Lts.Run.unique h₀ h
    exact ⟨id, fun hpoll => ⟨hpoll, rfl⟩⟩
  | cons e τ₂ ih =>
    obtain ⟨s₁, hr, hs⟩ := Lts.Run.of_cons h
    have hsound' : ∀ e ∈ τ₂ ++ τ, e.sound = true := fun e he =>
      hsound e (List.mem_cons_of_mem _ he)
    have he : e.sound = true := hsound e List.mem_cons_self
    obtain ⟨hstuck, hpolls⟩ := ih hr hsound' fun hmem => hnone (List.mem_cons_of_mem _ hmem)
    have hfree := (Single.run_alive hprog hz hr hsound').1
    cases e with
    | dev b a =>
      obtain ⟨g, hg, rfl⟩ := step_dev.mp hs
      obtain ⟨c, k, hstep, rfl⟩ := Gpu.step_blk.mp hg
      exact ⟨fun h₁ => (hstuck h₁).dev hz hstep, hpolls⟩
    | host a =>
      obtain ⟨c, k, hstep, rfl⟩ := step_host.mp hs
      refine ⟨fun h₁ => (hstuck h₁).think hfree he hstep, fun h₁ => ?_⟩
      obtain ⟨hpc, hgiven⟩ := hpolls h₁
      cases hstep with
      | noErr hp => exact ⟨Or.inr (Or.inl rfl), hgiven⟩
      | notDone hp => exact ⟨Or.inr (Or.inr rfl), hgiven⟩
      | again hp => exact ⟨Or.inl rfl, hgiven⟩
      | sawErr hp herr => exact absurd hfree.host herr
      | timeout hp => cases he
      | sawDone hp hd => exact absurd List.mem_cons_self hnone
      | call hp | refuse hp | begin hp | copy hp | copyFail hp | ring hp | shutdown hp =>
        rw [hp] at hpc
        obtain hpc | hpc | hpc := hpc <;> cases hpc

/-- After a call that has returned RUN_OK, and before the first, the host is between two calls. -/
theorem idle_of_last (hlast : τ₀ = [] ∨ τ₀.head? = some (.host .sawDone))
    (h : (Single.lts n prog).Run τ₀ s) : s.host.pc = .idle := by
  cases τ₀ with
  | nil =>
    cases h with
    | start hs =>
      obtain rfl : s = Single.zero n := hs
      rfl
  | cons e τ =>
    obtain hlast | hlast := hlast
    · cases hlast
    · obtain rfl := Option.some.inj hlast
      obtain ⟨s₁, -, hs⟩ := Lts.Run.of_cons h
      obtain ⟨c, k, hstep, rfl⟩ := Single.step_host.mp hs
      cases hstep with
      | sawDone => rfl

/-- **What a call that returns RUN_OK makes of the kernel**: a pass for itself and one for every
call that has failed before it rang, modulo the range of the counters. -/
theorem Single.run_advanced (hn : n < 2 ^ 31) (hn0 : 0 < n) (hprog : ∀ i, badAt prog i = false)
    (h : (Single.lts n prog).Run (.host .sawDone :: (τ₁ ++ τ₀)) s)
    (hsound : ∀ e ∈ τ₁ ++ τ₀, e.sound = true) (hsince : SinceOk τ₀ τ₁) :
    Advanced prog τ₀ τ₁ ((copyFails τ₁ + 1) % 2 ^ 32) := by
  obtain ⟨s₁, hr₁, hs⟩ := Lts.Run.of_cons h
  obtain ⟨c, k, hstep, -⟩ := step_host.mp hs
  obtain ⟨z, hz⟩ : ∃ z : Fin n, z.val = 0 := ⟨⟨0, hn0⟩, rfl⟩
  cases hstep with
  | sawDone hp hd =>
    have hnot : ¬ Stuck z s₁ := by
      rintro ⟨-, -, hplace | ⟨-, hne⟩⟩
      · rw [hp] at hplace
        cases hplace
      · exact hne hd
    obtain ⟨s₀, hr₀⟩ := Lts.Run.of_append hr₁
    have h₁ := (Single.run_alive hprog hz hr₁ hsound).2.resolve_right hnot
    have hidle := idle_of_last hsince.last hr₀
    have h₀ : Alive prog z τ₀ s₀ := by
      have hsound₀ : ∀ e ∈ τ₀, e.sound = true := fun e he => hsound e (List.mem_append_right _ he)
      refine (Single.run_alive hprog hz hr₀ hsound₀).2.resolve_right ?_
      rintro ⟨-, -, hplace | ⟨hpoll | hpoll | hpoll, -⟩⟩
      · rw [hidle] at hplace
        cases hplace
      all_goals
        rw [hidle] at hpoll
        cases hpoll
    have hquiet₁ := h₁.quiet_of_done hz hp hd
    have hplace₀ := h₀.place
    rw [hidle] at hplace₀
    have hplace₁ := h₁.place
    rw [hp] at hplace₁
    obtain ⟨hbase, hfails⟩ := hsince.ledger_eq
    have htarget : (ledger (τ₁ ++ τ₀)).target =
        (ledger τ₀).target + (copyFails τ₁ + 1) % 2 ^ 32 := by
      rw [hplace₁.2.1, hbase, hfails]
    have hany₁ := Single.run_anyHost hr₁
    have hany₀ := Single.run_anyHost hr₀
    refine ⟨fun z' hz' => ?_, fun b i hi => ?_, ?_⟩
    · obtain rfl : z' = z := Fin.ext (hz'.trans hz.symm)
      rw [hquiet₁, hplace₀.1, htarget]
      omega
    · have hfin₁ := h₁.finishes_eq hz (Gpu.anyHost_inv hn hany₁)
        (Gpu.anyHost_placed hany₁) hquiet₁ hi
      have hfin₀ := h₀.finishes_eq hz (Gpu.anyHost_inv hn hany₀) (Gpu.anyHost_placed hany₀)
        hplace₀.1 hi
      rw [events, List.filterMap_append, finishes, List.count_append, ← finishes, ← finishes,
        ← events, ← events, hfin₀, htarget] at hfin₁
      omega
    · rintro τ₃ b a τ₂ rfl ha s₂ hr₂
      rw [List.append_assoc, List.cons_append] at hr₁ hsound
      obtain ⟨s₃, hr₃⟩ := Lts.Run.of_append hr₁
      obtain ⟨s₂', hr₂', hs₂⟩ := Lts.Run.of_cons hr₃
      obtain rfl := Lts.Run.unique hr₂ hr₂'
      have hsound₂ : ∀ e ∈ τ₂ ++ τ₀, e.sound = true := fun e he =>
        hsound e (List.mem_append_right _ (List.mem_cons_of_mem _ he))
      have hnone : .host .sawDone ∉ τ₃ ++ [.dev b a] := by
        intro hmem
        obtain hmem | hmem := List.mem_append.mp hmem
        · exact hsince.none (List.mem_append_left _ hmem)
        · cases List.mem_singleton.mp hmem
      rw [List.append_cons] at hr₁ hsound
      obtain ⟨hstuck, hpolls⟩ := Single.run_append hprog hz hr₁ hr₂ hsound hnone
      -- the kernel has not been sent home, and so it executes only what has been rung
      have h₂ := (Single.run_alive hprog hz hr₂ hsound₂).2.resolve_right fun h₂ => hnot (hstuck h₂)
      obtain ⟨g, hg, -⟩ := step_dev.mp hs₂
      obtain ⟨c, k, hstep, -⟩ := Gpu.step_blk.mp hg
      have hany₂ := Single.run_anyHost hr₂
      obtain ⟨hpoll, htoken⟩ := h₂.polling hz (Gpu.anyHost_inv hn hany₂)
        (Gpu.anyHost_placed hany₂) (hstep.executing ha)
      rw [List.append_assoc, List.cons_append, List.append_cons, (hpolls hpoll).2, htoken]

end Calls

/-- **A failed call is not without effect.** Take any run without errors and timeouts, whose last
call returns RUN_OK. It makes the kernel execute exactly one pass, with the token of that call, if
and only if the calls that have failed before they rang since the last RUN_OK are a multiple of
2^32: so after one failed call it does not. -/
theorem one_pass_iff (hn : n < 2 ^ 31) (hn0 : 0 < n) (hprog : ∀ ins ∈ prog, ins.isBad = false)
    {τ₀ τ₁ : List (SEv n)} {s : Single n}
    (h : (Single.lts n prog).Run (.host .sawDone :: (τ₁ ++ τ₀)) s)
    (hsound : ∀ e ∈ τ₁ ++ τ₀, e.sound = true) (hsince : SinceOk τ₀ τ₁) :
    Advanced prog τ₀ τ₁ 1 ↔ 2 ^ 32 ∣ copyFails τ₁ := by
  have hadv := Single.run_advanced hn hn0 (badAt_eq_false hprog) h hsound hsince
  constructor
  · intro h₁
    have hpasses := h₁.passes ⟨0, hn0⟩ rfl
    have hpasses' := hadv.passes ⟨0, hn0⟩ rfl
    have hm : (copyFails τ₁ + 1) % 2 ^ 32 = 1 := by omega
    omega
  · intro hdvd
    have hm : (copyFails τ₁ + 1) % 2 ^ 32 = 1 := by omega
    rwa [hm] at hadv

/-- One block goes through a program of one instruction. -/
def onePass (v : U32) : List (SEv 1) :=
  [.dev 0 .publish, .dev 0 .sample, .dev 0 (.leave 1), .dev 0 (.arrive 1), .dev 0 (.cross 1),
    .dev 0 (.finish 0), .dev 0 (.begin 0), .dev 0 (.start v), .dev 0 (.forward v), .dev 0 (.hear v)]

/-- A call with token 8 returns RUN_OK: the pass is rung, executed and reported. -/
def rungOnce : List (SEv 1) :=
  [.host .noErr] ++ onePass 1 ++
    [.host .ring, .host (.copy 8), .host (.begin 8), .host (.call 8)]

theorem one_pass_iff_rungOnce :
    ∃ s, (Single.lts 1 [⟨MacroKind.rmsnorm.code, 0, 1, ()⟩]).Run (.host .sawDone :: rungOnce) s ∧
      Advanced [⟨MacroKind.rmsnorm.code, 0, 1, ()⟩] [] rungOnce 1 := by
  obtain ⟨s, -, hr⟩ := Lts.exists_run_of_isSome
    (Single.step [⟨MacroKind.rmsnorm.code, 0, 1, ()⟩]) (Single.zero 1)
    (.host .sawDone :: (rungOnce ++ [])) (by decide)
  have hfails : copyFails rungOnce = 0 := by decide
  have hsince : SinceOk [] rungOnce := ⟨by decide, Or.inl rfl⟩
  refine ⟨s, hr, ?_⟩
  exact (one_pass_iff (by decide) (by decide) (by decide) hr (by decide) hsince).mpr
    (hfails ▸ dvd_zero _)

/-- The call with token 7 fails to copy it, the call with token 8 returns RUN_OK. -/
def rungTwice : List (SEv 1) :=
  [.host .noErr] ++ onePass 2 ++ onePass 2 ++
    [.host .ring, .host (.copy 8), .host (.begin 8), .host (.call 8), .host (.copyFail 7),
      .host (.begin 7), .host (.call 7)]

/-- **The failed call costs a pass**: the kernel executes two of them for the one call that returns
RUN_OK, both with its token. -/
theorem rungTwice_two_passes :
    (∃ s, (Single.lts 1 [⟨MacroKind.rmsnorm.code, 0, 1, ()⟩]).Run (.host .sawDone :: rungTwice) s) ∧
      (∀ e ∈ rungTwice, e.sound = true) ∧ copyFails rungTwice = 1 ∧
      given rungTwice = [8, 7] ∧ finishes 0 0 (events rungTwice) = 2 ∧
      ¬ Advanced [⟨MacroKind.rmsnorm.code, 0, 1, ()⟩] [] rungTwice 1 := by
  have hfin : finishes 0 0 (events rungTwice) = 2 := by decide
  refine ⟨?_, by decide, by decide, by decide, hfin, fun h => ?_⟩
  · obtain ⟨s, -, hr⟩ := Lts.exists_run_of_isSome
      (Single.step [⟨MacroKind.rmsnorm.code, 0, 1, ()⟩]) (Single.zero 1)
      (.host .sawDone :: rungTwice) (by decide)
    exact ⟨s, hr⟩
  · have hone := h.instrs 0 0 (by decide)
    omega

end Megakernel
