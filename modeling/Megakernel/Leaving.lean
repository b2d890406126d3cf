import Megakernel.Environment

/-!
# How blocks leave the kernel

A block returns from `mk_interp` for one of three reasons: it has heard the halt
value at the top of a pass, it has met a bad kind, or it has sampled an error at
the end of a pass. For each reason the history says which pass the block was in,
which boundaries it has crossed and which instructions it has done
(`Exits`, `run_exits`).

A grid of blocks hangs when somebody waits in a boundary that a block has left
the kernel in front of. For the halt value this cannot happen (`HaltOk`): block 0
forwards it instead of its next pass number, so that nobody has begun that pass.
For a bad kind it cannot happen because all decode the same program
(`InFront`). For an error it depends on who samples what (`Uniform`).

`exists_pollWaits` is the common part of what follows: without such a hang, a
grid in which nobody can move and somebody has not returned is waiting for a
doorbell.

The last part is about grids that cannot move. It does not speak of a particular exit: from the
absence of a hang it follows that whoever has not returned waits for a doorbell, and for which one
is decided where the exit is known (`Shutdown`, `Uniform`).
-/

namespace Megakernel

variable {π : Type*} {n : ℕ} {prog : List (Instr π)}

/-- What is known of every state a GPU can reach: the invariants of the chapters before, gathered so
that a lemma about leaving names one hypothesis. -/
structure Reached (prog : List (Instr π)) (τ : List (Ev n)) (s : Gpu n) : Prop where
  lock : Lock prog τ s
  inv : Grid.Inv (τ.filterMap Ev.cross) s.grid
  log : ∀ b, Logged prog b τ (s.block b)

/-- How far every block has come, in every run. -/
theorem run_reached (hn : n < 2 ^ 31) {τ : List (Ev n)} {s : Gpu n} (h : (Gpu.lts n prog).Run τ s) :
    Reached prog τ s :=
  ⟨run_lock hn h, Gpu.run_inv hn h, run_logged hn h⟩

section Reached

variable {τ : List (Ev n)} {s : Gpu n}

/-- The place of a block is given by how many boundaries it has left and by the pass it is in. -/
theorem Reached.place (h : Reached prog τ s) (b : Fin n) :
    (s.block b).pc.At prog (passOf b τ) (left b τ) := by
  rw [← (h.log b).pass]
  exact (h.lock.block b).place

/-- Nobody is more than one pass ahead in crossings: who has come to the top of a pass has been
waited for. -/
theorem Reached.passOf_le (h : Reached prog τ s) {b j : Fin n}
    (hb : (s.block b).pc.phase ≠ .spinning) {q : ℕ} (hq : left b τ ≤ q * stride prog) :
    passOf j τ - 1 ≤ q := by
  have hj := (h.place j).le
  have hsound : left j τ ≤ arrived b τ := h.inv.sound j b
  rw [arrived_eq_left h.inv hb] at hsound
  exact Nat.le_of_mul_le_mul_right (hj.trans (hsound.trans hq)) (Nat.succ_pos _)

end Reached

/-! ## The halt value -/

/-- Once the halt value is forwarded, nobody is in the pass that block 0 has ended with. So whoever
still executes is in an earlier pass, and will find the halt value at its end. -/
structure HaltOk (prog : List (Instr π)) (τ : List (Ev n)) (s : Gpu n) : Prop where
  /-- block 0 is at the top of its pass -/
  zero : s.cells.doorbellDev = doorbellHalt →
    ∀ z : Fin n, z.val = 0 → left z τ = (passOf z τ - 1) * stride prog
  /-- whoever executes is in an earlier pass -/
  behind : s.cells.doorbellDev = doorbellHalt → ∀ z : Fin n, z.val = 0 →
    ∀ j, ((s.block j).pc.Live ∨ ∃ v, v ≠ doorbellHalt ∧ (s.block j).pc = .bell v) →
      passOf j τ < passOf z τ
  /-- whoever has heard it is at the top of the same pass -/
  heard : ∀ b, (s.block b).pc = .bell doorbellHalt →
    s.cells.doorbellDev = doorbellHalt ∧ ∀ z : Fin n, z.val = 0 → passOf b τ = passOf z τ

section Halt

variable {τ : List (Ev n)} {s : Gpu n}

/-- Block 0 behind the halt value does nothing but return. -/
theorem Reached.zero_halted (h : Reached prog τ s) (hd : s.cells.doorbellDev = doorbellHalt)
    {z : Fin n} (hz : z.val = 0) {a : Act} {c : Cells} {k : Block}
    (hs : BlockStep n prog z s.cells (s.block z) a c k) : a = .stop ∨ ∃ j, a = .store j := by
  have hpc := (h.lock.zero z hz).halted hd
  cases hs with
  | stop => exact Or.inl rfl
  | @store j => exact Or.inr ⟨j, rfl⟩
  | poll hp | hear hp | forward hp | cross hp | begin hp | skip hp | bad hp | tick hp
  | raise hp | finish hp | arrive hp | spin hp | leave hp | sample hp | publish hp | turn hp
  | quit hp | gone hp =>
    obtain hpc | hpc := hpc <;> rw [hp] at hpc <;> cases hpc
  | start hp hne =>
    obtain hpc | hpc := hpc <;> rw [hp] at hpc
    · exact absurd (Pc.bell.inj hpc) hne
    · cases hpc

/-- The forward cell never holds the halt value before block 0 has forwarded it. -/
theorem Reached.dev_ne_halt (h : Reached prog τ s) {z : Fin n} (hz : z.val = 0)
    (hp : (s.block z).pc = .poll ∨ ∃ v, (s.block z).pc = .forward v) :
    s.cells.doorbellDev ≠ doorbellHalt := by
  intro hd
  have hpc := (h.lock.zero z hz).halted hd
  obtain hp | ⟨v, hp⟩ := hp <;> rw [hp] at hpc <;> obtain hpc | hpc := hpc <;> cases hpc

/-- Before block 0 forwards, everybody who executes is in an earlier pass. -/
theorem Reached.lt_of_forward (h : Reached prog τ s) {z : Fin n} (hz : z.val = 0)
    (hp : (s.block z).pc = .poll ∨ ∃ v, (s.block z).pc = .forward v) {j : Fin n}
    (hj : (s.block j).pc.Live ∨ ∃ v, v ≠ doorbellHalt ∧ (s.block j).pc = .bell v) :
    passOf j τ < passOf z τ := by
  have hdev : DevAtLeast s.cells (s.block j).pass.toNat := by
    obtain hlive | ⟨v, hne, hv⟩ := hj
    · exact ((h.lock.block j).live hlive).2.2
    · exact (h.lock.block j).belled v hv hne
  have hle := hdev.resolve_left (h.dev_ne_halt hz hp)
  have hbefore := (h.lock.zero z hz).before hp
  rw [← (h.log j).pass, ← (h.log z).pass]
  omega

/-- A block that hears the halt value from the forward cell is at the top of block 0's pass. -/
theorem HaltOk.hear (ih : HaltOk prog τ s) (h : Reached prog τ s) {b : Fin n}
    (hp : (s.block b).pc = .poll) (hd : s.cells.doorbellDev = doorbellHalt) {z : Fin n}
    (hz : z.val = 0) : passOf b τ = passOf z τ := by
  have hle := h.lock.pass_le_of_poll h.inv hp z
  rw [(h.log z).pass, (h.log b).pass] at hle
  have hout : (s.block z).pc.phase ≠ .spinning := by
    obtain hpc | hpc := (h.lock.zero z hz).halted hd <;> rw [hpc] <;> nofun
  have hge := h.passOf_le (j := b) hout (ih.zero hd z hz).le
  have hb := passOf_pos b τ
  have hz := passOf_pos z τ
  omega

/-- A block step keeps what is known of the halt value. -/
theorem HaltOk.blk (ih : HaltOk prog τ s) (h : Reached prog τ s) {b : Fin n} {a : Act} {c : Cells}
    {k : Block} (hs : BlockStep n prog b s.cells (s.block b) a c k) :
    HaltOk prog (.blk b a :: τ) (⟨c, Function.update s.block b k⟩ : Gpu n) := by
  have hfor : ∀ i, i ≠ b → (Ev.blk b a : Ev n).Foreign i := fun i hi heq => hi heq.symm
  by_cases hfwd : ∃ v, a = .forward v
  · obtain ⟨v, rfl⟩ := hfwd
    cases hs with
    | forward hp =>
      have hz : b.val = 0 := by
        have hwf := (h.lock.block b).wf
        rw [hp] at hwf
        exact hwf
      have huniq : ∀ z : Fin n, z.val = 0 → z = b := fun z hz' => Fin.ext (hz'.trans hz.symm)
      have hstage : (s.block b).pc = .poll ∨ ∃ v, (s.block b).pc = .forward v := Or.inr ⟨v, hp⟩
      have hpass : passOf b (.blk b (.forward v) :: τ) = passOf b τ := passOf_cons_blk b _ τ
      refine ⟨fun _ z hz' => ?_, fun hd z hz' j hj => ?_, fun j hj => ?_⟩
      · obtain rfl := huniq z hz'
        have hat := h.place z
        rw [hp] at hat
        rw [hpass, left_cons_self]
        exact hat
      · obtain rfl := huniq z hz'
        obtain rfl | hne := eq_or_ne j z
        · rw [Gpu.block_self] at hj
          obtain hj | ⟨u, hu, hj⟩ := hj
          · exact hj.elim
          · exact absurd ((Pc.bell.inj hj).symm.trans hd) hu
        · rw [Gpu.block_other hne] at hj
          rw [hpass, passOf_cons_foreign (hfor j hne)]
          exact h.lt_of_forward hz hstage hj
      · obtain rfl | hne := eq_or_ne j b
        · rw [Gpu.block_self] at hj
          exact ⟨Pc.bell.inj hj, fun z hz' => by rw [huniq z hz']⟩
        · rw [Gpu.block_other hne] at hj
          exact absurd (ih.heard j hj).1 (h.dev_ne_halt hz hstage)
  · -- every other step leaves the forward cell alone
    have hdev : c.doorbellDev = s.cells.doorbellDev := by
      cases hs with
      | forward => exact absurd ⟨_, rfl⟩ hfwd
      | store hr => exact Raise.write_doorbellDev _ _
      | _ => rfl
    have hzpass : s.cells.doorbellDev = doorbellHalt → ∀ z : Fin n, z.val = 0 →
        passOf z (.blk b a :: τ) = passOf z τ ∧ left z (.blk b a :: τ) = left z τ := by
      intro hd z hz
      obtain rfl | hne := eq_or_ne z b
      · rw [passOf_cons_blk, left_cons_self]
        obtain rfl | ⟨j, rfl⟩ := h.zero_halted hd hz hs <;> exact ⟨rfl, rfl⟩
      · exact ⟨passOf_cons_foreign (hfor z hne), left_cons_foreign (hfor z hne)⟩
    refine ⟨fun hd z hz => ?_, fun hd z hz j hj => ?_, fun j hj => ?_⟩
    · rw [hdev] at hd
      rw [(hzpass hd z hz).1, (hzpass hd z hz).2]
      exact ih.zero hd z hz
    · rw [hdev] at hd
      rw [(hzpass hd z hz).1]
      have hold := ih.behind hd z hz j
      obtain rfl | hne := eq_or_ne j b
      · rw [Gpu.block_self] at hj
        rw [passOf_cons_blk]
        cases hs with
        | hear hp hv =>
          simp only at hj
          split at hj
          · obtain hj | ⟨u, -, hj⟩ := hj
            · exact hj.elim
            · cases hj
          next h0 =>
            obtain hj | ⟨u, hu, hj⟩ := hj
            · exact hj.elim
            · rw [doorbell, if_neg h0] at hv
              exact absurd ((Pc.bell.inj hj).symm.trans (hv.symm.trans hd)) hu
        | start hp hne => exact hold (Or.inr ⟨_, hne, hp⟩)
        | store => exact hold hj
        | poll | tick => exact hold hj
        | spin => exact hold hj
        | raise => exact hold hj
        | forward => exact absurd ⟨_, rfl⟩ hfwd
        | cross hp | begin hp | skip hp | finish hp | arrive hp | leave hp | sample hp =>
          exact hold (Or.inl (by rw [hp]; trivial))
        | bad hp => exact hold (Or.inl (by rw [hp]; trivial))
        | publish | turn | stop | quit | gone =>
          obtain hj | ⟨u, -, hj⟩ := hj
          · exact hj.elim
          · cases hj
      · rw [Gpu.block_other hne] at hj
        rw [passOf_cons_foreign (hfor j hne)]
        exact hold hj
    · obtain rfl | hne := eq_or_ne j b
      · rw [Gpu.block_self] at hj
        have hd : s.cells.doorbellDev = doorbellHalt ∧
            ∀ z : Fin n, z.val = 0 → passOf j τ = passOf z τ := by
          cases hs with
          | hear hp hv =>
            simp only at hj
            split at hj
            · cases hj
            next h0 =>
              rw [doorbell, if_neg h0] at hv
              have hd := hv.trans (Pc.bell.inj hj)
              exact ⟨hd, fun z hz => ih.hear h hp hd hz⟩
          | forward => exact absurd ⟨_, rfl⟩ hfwd
          | store => exact ih.heard j hj
          | poll | tick => exact ih.heard j hj
          | spin => exact ih.heard j hj
          | raise => exact ih.heard j hj
          | bad =>
            split at hj <;> cases hj
          | leave =>
            simp only [afterCross] at hj
            split at hj <;> cases hj
          | _ => cases hj
        refine ⟨hdev.trans hd.1, fun z hz => ?_⟩
        have hturn : a.turns = 0 := by
          cases hs with
          | publish => cases hj
          | turn => cases hj
          | _ => rfl
        rw [(hzpass hd.1 z hz).1, passOf_cons_blk, hturn]
        exact hd.2 z hz
      · rw [Gpu.block_other hne] at hj
        obtain ⟨hd, heq⟩ := ih.heard j hj
        refine ⟨hdev.trans hd, fun z hz => ?_⟩
        rw [(hzpass hd z hz).1, passOf_cons_foreign (hfor j hne)]
        exact heq z hz

/-- The steps of the host leave it alone. -/
theorem HaltOk.foreign (ih : HaltOk prog τ s) {e : Ev n} (he : ∀ b, e.Foreign b) {c : Cells}
    (hdev : c.doorbellDev = s.cells.doorbellDev) : HaltOk prog (e :: τ) ⟨c, s.block⟩ where
  zero hd z hz := by
    rw [passOf_cons_foreign (he z), left_cons_foreign (he z)]
    exact ih.zero (hdev.symm.trans hd) z hz
  behind hd z hz j hj := by
    rw [passOf_cons_foreign (he z), passOf_cons_foreign (he j)]
    exact ih.behind (hdev.symm.trans hd) z hz j hj
  heard b hb := by
    obtain ⟨hd, heq⟩ := ih.heard b hb
    refine ⟨hdev.trans hd, fun z hz => ?_⟩
    rw [passOf_cons_foreign (he z), passOf_cons_foreign (he b)]
    exact heq z hz

end Halt

/-- A step of the GPU: of a block, or of its host. -/
theorem Gpu.step_cases {s s' : Gpu n} {e : Ev n} (h : Gpu.step prog s e = some s') :
    (∃ b a c k, e = .blk b a ∧ BlockStep n prog b s.cells (s.block b) a c k ∧
      s' = ⟨c, Function.update s.block b k⟩) ∨
    ((∀ b, e.Foreign b) ∧ ∃ d t, s' = ⟨s.cells.hostWrite d t, s.block⟩) := by
  cases e with
  | blk b a =>
    obtain ⟨c, k, hstep, rfl⟩ := Gpu.step_blk.mp h
    exact Or.inl ⟨b, a, c, k, rfl, hstep, rfl⟩
  | ring =>
    obtain ⟨-, rfl⟩ := Gpu.step_ring.mp h
    exact Or.inr ⟨fun _ => trivial, _, _, rfl⟩
  | halt =>
    obtain rfl := Gpu.step_halt.mp h
    exact Or.inr ⟨fun _ => trivial, _, _, rfl⟩
  | token t =>
    obtain ⟨-, rfl⟩ := Gpu.step_token.mp h
    exact Or.inr ⟨fun _ => trivial, _, _, rfl⟩

/-- What is known of the halt value, in every run. -/
theorem run_haltOk (hn : n < 2 ^ 31) {τ : List (Ev n)} {s : Gpu n} (h : (Gpu.lts n prog).Run τ s) :
    HaltOk prog τ s := by
  refine Lts.Run.inv (I := HaltOk prog) ?_ ?_ h
  · rintro s rfl
    have hne : (0 : U32) ≠ doorbellHalt := by decide
    exact ⟨fun hd => absurd hd hne, fun hd => absurd hd hne, nofun⟩
  · intro τ s e s' hr ih hs
    obtain ⟨b, a, c, k, rfl, hstep, rfl⟩ | ⟨hf, d, t, rfl⟩ := Gpu.step_cases hs
    · exact ih.blk (run_reached hn hr) hstep
    · exact ih.foreign hf rfl

/-! ## Bad kinds -/

/-- The first instruction with a bad or unwired kind. All blocks decode the same program, hence all
of them stop there. -/
def FirstBad (prog : List (Instr π)) (i : ℕ) : Prop :=
  badAt prog i = true ∧ ∀ k < i, badAt prog k = false

/-- In front of instruction `i`, in the first pass. -/
def Pc.InFront (i : ℕ) : Pc → Prop
  | .fetch k => k ≤ i
  | .op k | .arrive k | .spin k => k < i
  | .sample | .sampled _ => False
  | _ => True

/-- If there is a bad instruction there is a first one, -/
theorem exists_firstBad {i : ℕ} (h : badAt prog i = true) : ∃ i₀, i₀ ≤ i ∧ FirstBad prog i₀ := by
  have hex : ∃ i, badAt prog i = true := ⟨i, h⟩
  refine ⟨Nat.find hex, Nat.find_min' hex h, Nat.find_spec hex, fun k hk => ?_⟩
  exact Bool.eq_false_iff.mpr (Nat.find_min hex hk)

/-- and only one is the first. -/
theorem FirstBad.unique {i k : ℕ} (hi : FirstBad prog i) (hk : FirstBad prog k) : i = k := by
  obtain hlt | heq | hgt := lt_trichotomy i k
  · exact absurd hi.1 (by rw [hk.2 i hlt]; nofun)
  · exact heq
  · exact absurd hk.1 (by rw [hi.2 k hgt]; nofun)

/-- A bad instruction is one of the program. -/
theorem lt_length_of_badAt {i : ℕ} (h : badAt prog i = true) : i < prog.length := by
  rw [badAt] at h
  rcases hi : prog[i]? with _ | ins
  · rw [hi] at h
    cases h
  · exact (List.getElem?_eq_some_iff.mp hi).1

/-- An instruction that is decoded otherwise is not bad. -/
theorem ne_of_badAt {b i k : ℕ} (h : badAt prog i = true)
    (hk : isCrossing prog k = true ∨ runs prog b k = true ∨ skips prog b k = true) : k ≠ i := by
  rintro rfl
  rw [badAt] at h
  rw [isCrossing, runs, skips] at hk
  rcases hi : prog[k]? with _ | ins
  · rw [hi] at h
    cases h
  · rw [hi] at h hk
    simp only [Bool.and_eq_true, Bool.not_eq_true'] at h hk
    rw [h.1, h.2] at hk
    obtain hk | ⟨⟨-, hk⟩, -⟩ | ⟨⟨-, hk⟩, -⟩ := hk <;> cases hk

/-- **Nobody gets beyond the first bad kind**, nor beyond the first pass. -/
theorem run_inFront {i : ℕ} (hi : FirstBad prog i) {τ : List (Ev n)} {s : Gpu n}
    (h : (Gpu.lts n prog).Run τ s) (b : Fin n) : (s.block b).pc.InFront i ∧ passOf b τ = 1 := by
  refine Lts.Run.inv (I := fun τ s => (s.block b).pc.InFront i ∧ passOf b τ = 1) ?_ ?_ h
  · rintro s rfl
    exact ⟨trivial, rfl⟩
  · intro τ s e s' _ ih hs
    obtain ⟨j, a, c, k, rfl, hstep, rfl⟩ | ⟨hf, d, t, rfl⟩ := Gpu.step_cases hs
    · obtain rfl | hne := eq_or_ne b j
      · rw [Gpu.block_self, passOf_cons_blk]
        obtain ⟨hpc, hpass⟩ := ih
        cases hstep with
        | poll | tick | raise | store => exact ⟨hpc, hpass⟩
        | spin => exact ⟨hpc, hpass⟩
        | hear =>
          refine ⟨?_, hpass⟩
          simp only
          split <;> trivial
        | cross hp hx =>
          rw [hp] at hpc
          exact ⟨lt_of_le_of_ne hpc (ne_of_badAt (b := 0) hi.1 (Or.inl hx)), hpass⟩
        | begin hp hx =>
          rw [hp] at hpc
          exact ⟨lt_of_le_of_ne hpc (ne_of_badAt hi.1 (Or.inr (Or.inl hx))), hpass⟩
        | skip hp hx =>
          rw [hp] at hpc
          exact ⟨lt_of_le_of_ne hpc (ne_of_badAt hi.1 (Or.inr (Or.inr hx))), hpass⟩
        | finish hp =>
          rw [hp] at hpc
          exact ⟨hpc, hpass⟩
        | arrive hp =>
          rw [hp] at hpc
          exact ⟨hpc, hpass⟩
        | leave hp =>
          rw [hp] at hpc
          refine ⟨?_, hpass⟩
          rw [afterCross, if_pos (lt_trans hpc (lt_length_of_badAt hi.1))]
          exact hpc
        | bad =>
          refine ⟨?_, hpass⟩
          split <;> trivial
        | sample hp | publish hp | turn hp | quit hp =>
          rw [hp] at hpc
          exact hpc.elim
        | start => exact ⟨Nat.zero_le _, hpass⟩
        | forward | stop | gone => exact ⟨trivial, hpass⟩
      · rw [Gpu.block_other hne, passOf_cons_other (Ne.symm hne)]
        exact ih
    · rw [passOf_cons_foreign (hf b)]
      exact ih

/-- Everybody crosses at most the boundaries in front of the first bad kind. -/
theorem left_le_firstBad (hn : n < 2 ^ 31) {i : ℕ} (hi : FirstBad prog i) {τ : List (Ev n)}
    {s : Gpu n} (h : (Gpu.lts n prog).Run τ s) (b : Fin n) : left b τ ≤ bnd prog i := by
  refine Lts.Run.inv (I := fun τ _ => left b τ ≤ bnd prog i) ?_ ?_ h
  · intro s _
    exact Nat.zero_le _
  · intro τ s e s' hr ih hs
    obtain ⟨j, a, c, k, rfl, hstep, rfl⟩ | ⟨hf, d, t, rfl⟩ := Gpu.step_cases hs
    · obtain rfl | hne := eq_or_ne b j
      · rw [left_cons_self]
        cases hstep with
        | @leave i' hp =>
          obtain ⟨hfront, hpass⟩ := run_inFront hi hr b
          have hat := (run_reached hn hr).place b
          have hwf := ((run_reached hn hr).lock.block b).wf
          rw [hp] at hfront hat hwf
          have hlt : i' < prog.length := lt_trans hfront (lt_length_of_badAt hi.1)
          have hbnd := bnd_succ_of_isCrossing hwf.2 hlt
          have hmono : bnd prog (i' + 1) ≤ bnd prog i := bnd_mono hfront
          have hL : left b τ = (passOf b τ - 1) * stride prog + bnd prog i' := hat
          rw [hpass, Nat.sub_self, Nat.zero_mul, Nat.zero_add] at hL
          simp only [Act.crossed]
          omega
        | _ => exact ih
      · rw [left_cons_other (Ne.symm hne)]
        exact ih
    · rw [left_cons_foreign (hf b)]
      exact ih

/-! ## The three reasons -/

/-- Block `b` has left at the top of its pass, which is that of block 0. -/
structure ByHalt (prog : List (Instr π)) (τ : List (Ev n)) (s : Gpu n) (b : Fin n) : Prop where
  dev : s.cells.doorbellDev = doorbellHalt
  passOf_eq : ∀ z : Fin n, z.val = 0 → passOf b τ = passOf z τ
  left_eq : left b τ = (passOf b τ - 1) * stride prog
  log : stepsIn prog b (passOf b τ) τ = []

/-- Block `b` has left at the first bad kind, which is at `i`. -/
structure ByBad (prog : List (Instr π)) (τ : List (Ev n)) (s : Gpu n) (b : Fin n) (i : ℕ) :
    Prop where
  bad : FirstBad prog i
  dev : DevAtLeast s.cells (passOf b τ)
  left_eq : left b τ = (passOf b τ - 1) * stride prog + bnd prog i
  log : stepsIn prog b (passOf b τ) τ = walk prog b i

/-- Block `b` has left at the end of its pass. -/
structure ByError (prog : List (Instr π)) (τ : List (Ev n)) (s : Gpu n) (b : Fin n) : Prop where
  err : s.cells.errDev ≠ 0
  dev : DevAtLeast s.cells (passOf b τ)
  rung : passOf b τ ≤ rings τ
  left_eq : left b τ = passOf b τ * stride prog
  log : stepsIn prog b (passOf b τ) τ = passSteps prog b

/-- Why blocks have left, and what a block that is about to leave knows. The reasons exclude each
other by the places they name. -/
structure Exits (prog : List (Instr π)) (τ : List (Ev n)) (s : Gpu n) : Prop where
  ret : ∀ b, (s.block b).pc = .ret →
    ByHalt prog τ s b ∨ (∃ i, ByBad prog τ s b i) ∨ ByError prog τ s b
  exit : ∀ b, (s.block b).pc = .exit → ∃ i, ByBad prog τ s b i
  sampled : ∀ b e, (s.block b).pc = .sampled e → e ≠ 0 → s.cells.errDev ≠ 0
  quit : ∀ b e, .blk b (.quit e) ∈ τ → (s.block b).pc = .ret ∧ ByError prog τ s b

section Exits

variable {τ : List (Ev n)} {s s' : Gpu n} {b : Fin n} {e : Ev n}

/-- The step `e` from `s` to `s'` leaves what the history says of block `b` alone, and takes back
neither a forwarded bell nor an error. What is known of a block that does not move survives such a
step. -/
structure Frame (prog : List (Instr π)) (τ : List (Ev n)) (s s' : Gpu n) (e : Ev n) (b : Fin n) :
    Prop where
  passOf : passOf b (e :: τ) = passOf b τ
  left : left b (e :: τ) = left b τ
  log : ∀ N, stepsIn prog b N (e :: τ) = stepsIn prog b N τ
  dev : ∀ m, DevAtLeast s.cells m → DevAtLeast s'.cells m
  halt : s.cells.doorbellDev = doorbellHalt → s'.cells.doorbellDev = doorbellHalt ∧
    ∀ z : Fin n, z.val = 0 → Megakernel.passOf z (e :: τ) = Megakernel.passOf z τ
  err : s.cells.errDev ≠ 0 → s'.cells.errDev ≠ 0

/-- A block that leaves, or has left, because of the halt value is not affected by what others do.
-/
theorem ByHalt.frame (h : ByHalt prog τ s b) (hf : Frame prog τ s s' e b) :
    ByHalt prog (e :: τ) s' b where
  dev := (hf.halt h.dev).1
  passOf_eq z hz := by
    rw [hf.passOf, (hf.halt h.dev).2 z hz]
    exact h.passOf_eq z hz
  left_eq := by
    rw [hf.passOf, hf.left]
    exact h.left_eq
  log := by
    rw [hf.passOf, hf.log]
    exact h.log

/-- Nor is one that leaves because of a bad kind, -/
theorem ByBad.frame {i : ℕ} (h : ByBad prog τ s b i) (hf : Frame prog τ s s' e b) :
    ByBad prog (e :: τ) s' b i where
  bad := h.bad
  dev := by
    rw [hf.passOf]
    exact hf.dev _ h.dev
  left_eq := by
    rw [hf.passOf, hf.left]
    exact h.left_eq
  log := by
    rw [hf.passOf, hf.log]
    exact h.log

/-- nor one that leaves because of an error, as errors are never taken back. -/
theorem ByError.frame (h : ByError prog τ s b) (hf : Frame prog τ s s' e b) :
    ByError prog (e :: τ) s' b where
  err := hf.err h.err
  dev := by
    rw [hf.passOf]
    exact hf.dev _ h.dev
  rung := by
    rw [hf.passOf]
    exact h.rung.trans (rings_le_cons e τ)
  left_eq := by
    rw [hf.passOf, hf.left]
    exact h.left_eq
  log := by
    rw [hf.passOf, hf.log]
    exact h.log

/-- The steps of others leave a block alone. -/
theorem Reached.frame_other (h : Reached prog τ s) {j : Fin n} (hne : b ≠ j) {a : Act} {c : Cells}
    {k : Block} (hs : BlockStep n prog j s.cells (s.block j) a c k) :
    Frame prog τ s (⟨c, Function.update s.block j k⟩ : Gpu n) (.blk j a) b := by
  have hfor : ∀ i, i ≠ j → (Ev.blk j a : Ev n).Foreign i := fun i hi heq => hi heq.symm
  refine ⟨passOf_cons_foreign (hfor b hne), left_cons_foreign (hfor b hne),
    stepsIn_cons_foreign (hfor b hne), fun m => DevAtLeast.step h.lock hs, fun hd => ⟨?_, ?_⟩,
    hs.errDev_mono⟩
  · cases hs with
    | @forward v hp =>
      have hz : j.val = 0 := by
        have hwf := (h.lock.block j).wf
        rw [hp] at hwf
        exact hwf
      exact absurd hd (h.dev_ne_halt hz (Or.inr ⟨v, hp⟩))
    | store hr => exact (Raise.write_doorbellDev _ _).trans hd
    | _ => exact hd
  · intro z hz
    obtain rfl | hzj := eq_or_ne z j
    · rw [passOf_cons_blk]
      obtain rfl | ⟨i, rfl⟩ := h.zero_halted hd hz hs <;> rfl
    · exact passOf_cons_foreign (hfor z hzj)

/-- The stores of a raise leave what the history says of the raising block alone. -/
theorem Reached.frame_store (h : Reached prog τ s) {j : ℕ} {c : Cells} {k : Block}
    (hs : BlockStep n prog b s.cells (s.block b) (.store j) c k) :
    Frame prog τ s (⟨c, Function.update s.block b k⟩ : Gpu n) (.blk b (.store j)) b := by
  have hpass : ∀ z : Fin n, Megakernel.passOf z (.blk b (.store j) :: τ) =
      Megakernel.passOf z τ := by
    intro z
    obtain rfl | hzb := eq_or_ne z b
    · exact passOf_cons_blk z _ τ
    · exact passOf_cons_other (Ne.symm hzb)
  refine ⟨hpass b, left_cons_self b _ τ, fun N => ?_, fun m => DevAtLeast.step h.lock hs,
    fun hd => ⟨?_, fun z _ => hpass z⟩, hs.errDev_mono⟩
  · rw [stepsIn_cons_self, if_neg (fun hlog => nomatch hlog.2), List.append_nil]
  · cases hs with
    | store hr => exact (Raise.write_doorbellDev _ _).trans hd

/-- The steps of the host leave every block alone. -/
theorem frame_host (he : ∀ b, e.Foreign b) (b : Fin n) {d t : U32} :
    Frame prog τ s (⟨s.cells.hostWrite d t, s.block⟩ : Gpu n) e b where
  passOf := passOf_cons_foreign (he b)
  left := left_cons_foreign (he b)
  log := stepsIn_cons_foreign (he b)
  dev _ hm := hm
  halt hd := ⟨hd, fun z _ => passOf_cons_foreign (he z)⟩
  err herr := herr

/-- What a frame keeps of the reasons. -/
theorem Exits.frame (ih : Exits prog τ s) (hf : Frame prog τ s s' e b)
    (hpc : (s'.block b).pc = (s.block b).pc) :
    ((s'.block b).pc = .ret → ByHalt prog (e :: τ) s' b ∨ (∃ i, ByBad prog (e :: τ) s' b i) ∨
      ByError prog (e :: τ) s' b) ∧
    ((s'.block b).pc = .exit → ∃ i, ByBad prog (e :: τ) s' b i) ∧
    (∀ v, (s'.block b).pc = .sampled v → v ≠ 0 → s'.cells.errDev ≠ 0) ∧
    ∀ v, .blk b (.quit v) ∈ τ → (s'.block b).pc = .ret ∧ ByError prog (e :: τ) s' b := by
  rw [hpc]
  refine ⟨fun hr => ?_, fun hx => ?_, fun v hv hne => hf.err (ih.sampled b v hv hne),
    fun v hv => ?_⟩
  · exact (ih.ret b hr).imp (fun h => h.frame hf)
      (Or.imp (fun ⟨i, h⟩ => ⟨i, h.frame hf⟩) fun h => h.frame hf)
  · obtain ⟨i, h⟩ := ih.exit b hx
    exact ⟨i, h.frame hf⟩
  · obtain ⟨hr, h⟩ := ih.quit b v hv
    exact ⟨hr, h.frame hf⟩

/-- What a block knows that takes a step of its own, other than a store of a raise. -/
theorem Exits.moved (ih : Exits prog τ s) (hhalt : HaltOk prog τ s) (h : Reached prog τ s)
    (hfront : ∀ i, FirstBad prog i → ∀ b, (s.block b).pc.InFront i) {a : Act}
    {c : Cells} {k : Block} (hs : BlockStep n prog b s.cells (s.block b) a c k)
    (ha : ∀ j, a ≠ .store j) (s' : Gpu n) (hs' : s' = ⟨c, Function.update s.block b k⟩) :
    (k.pc = .ret → ByHalt prog (.blk b a :: τ) s' b ∨ (∃ i, ByBad prog (.blk b a :: τ) s' b i) ∨
      ByError prog (.blk b a :: τ) s' b) ∧
    (k.pc = .exit → ∃ i, ByBad prog (.blk b a :: τ) s' b i) ∧
    (∀ v, k.pc = .sampled v → v ≠ 0 → c.errDev ≠ 0) ∧
    ∀ v, Ev.blk b (.quit v) ∈ Ev.blk b a :: τ →
      k.pc = .ret ∧ ByError prog (.blk b a :: τ) s' b := by
  have hpass := passOf_cons_blk b a τ
  have hleft := left_cons_self b a τ
  have hcur := (h.log b).current
  have hplace := h.place b
  have hsam := ih.sampled b
  -- a block that has quit takes no more steps but stores
  have hnoquit : ∀ v, (s.block b).pc ≠ .ret → Ev.blk b (.quit v) ∉ τ := fun v hne hmem =>
    hne (ih.quit b v hmem).1
  have hlog : a.logged prog = false →
      ∀ N, stepsIn prog b N (.blk b a :: τ) = stepsIn prog b N τ := fun hnot N => by
    rw [stepsIn_cons_self, hnot, if_neg (by simp), List.append_nil]
  subst hs'
  have hsnd : ∀ {P : Prop} {v : U32}, (s.block b).pc ≠ .ret → (∀ v, a ≠ .quit v) →
      Ev.blk b (.quit v) ∈ Ev.blk b a :: τ → P := fun hne hq hmem => by
    obtain heq | hmem := List.mem_cons.mp hmem
    · exact absurd (Ev.blk.inj heq).2.symm (hq _)
    · exact absurd hmem (hnoquit _ hne)
  cases hs with
  | store => exact absurd rfl (ha _)
  | @stop hp =>
    obtain ⟨hd, heq⟩ := hhalt.heard b hp
    rw [hp] at hcur hplace
    refine ⟨fun _ => Or.inl ⟨hd, fun z hz => ?_, ?_, ?_⟩, by simp, by simp, fun v =>
      hsnd (by rw [hp]; simp) (by simp)⟩
    · rw [hpass]
      obtain rfl | hne := eq_or_ne z b
      · exact hpass.symm
      · rw [passOf_cons_other (Ne.symm hne)]
        exact heq z hz
    · rw [hpass, hleft]
      exact hplace
    · rw [hpass, hlog rfl]
      exact hcur
  | @bad i hp hi =>
    rw [hp] at hcur hplace
    have hlive := (h.lock.block b).live (by rw [hp]; trivial)
    have hbad : ∃ i', ByBad prog (.blk b (.bad i) :: τ)
        (⟨s.cells, Function.update s.block b (if b.val = 0 then
          { s.block b with pc := .exit, raising := [⟨badCode prog i, BitVec.ofNat 32 i, .hostAux⟩] }
          else { s.block b with pc := .ret })⟩ : Gpu n) b i' := by
      obtain ⟨i₀, hle, hfirst⟩ := exists_firstBad hi
      obtain rfl : i = i₀ := by
        have hpc := hfront i₀ hfirst b
        rw [hp] at hpc
        exact le_antisymm hpc hle
      refine ⟨i, hfirst, ?_, ?_, ?_⟩
      · rw [hpass]
        have hdev := hlive.2.2
        rw [(h.log b).pass] at hdev
        exact hdev
      · rw [hpass, hleft]
        exact hplace
      · rw [hpass, hlog rfl]
        exact hcur
    refine ⟨fun _ => Or.inr (Or.inl hbad), fun _ => hbad, fun v hv => ?_, fun v =>
      hsnd (by rw [hp]; simp) (by simp)⟩
    split at hv <;> cases hv
  | @quit v hp hne =>
    rw [hp] at hcur hplace
    have hlive := (h.lock.block b).live (by rw [hp]; trivial)
    rw [(h.log b).pass] at hlive
    have herr : ByError prog (.blk b (.quit v) :: τ)
        (⟨s.cells, Function.update s.block b { s.block b with pc := .ret }⟩ : Gpu n) b := by
      refine ⟨hsam v hp hne, ?_, ?_, ?_, ?_⟩
      · rw [hpass]
        exact hlive.2.2
      · rw [hpass]
        exact hlive.1.trans (rings_le_cons _ τ)
      · rw [hpass, hleft]
        exact (show left b τ = _ from hplace).trans (sub_one_mul_add (passOf_pos b τ))
      · rw [hpass, hlog rfl]
        exact hcur
    exact ⟨fun _ => Or.inr (Or.inr herr), by simp, by simp, fun _ _ => ⟨rfl, herr⟩⟩
  | @gone hp hq =>
    obtain ⟨i, hbad⟩ := ih.exit b hp
    refine ⟨fun _ => Or.inr (Or.inl ⟨i, hbad.bad, ?_, ?_, ?_⟩), by simp, by simp, fun v =>
      hsnd (by rw [hp]; simp) (by simp)⟩
    · rw [hpass]
      exact hbad.dev
    · rw [hpass, hleft]
      exact hbad.left_eq
    · rw [hpass, hlog rfl]
      exact hbad.log
  | sample hp =>
    exact ⟨by simp, by simp, fun v hv hne => (Pc.sampled.inj hv).symm ▸ hne, fun v =>
      hsnd (by rw [hp]; simp) (by simp)⟩
  | poll hp | tick hp | raise hp =>
    refine ⟨fun hr => ?_, fun hx => ?_, fun v hv => ?_, fun v => hsnd (by rw [hp]; simp) (by simp)⟩
    · rw [hp] at hr
      cases hr
    · rw [hp] at hx
      cases hx
    · rw [hp] at hv
      cases hv
  | spin hp =>
    refine ⟨fun hr => ?_, fun hx => ?_, fun v hv => ?_, fun v => hsnd (by rw [hp]; simp) (by simp)⟩
    · rw [hp] at hr
      cases hr
    · rw [hp] at hx
      cases hx
    · rw [hp] at hv
      cases hv
  | hear hp =>
    refine ⟨fun hr => ?_, fun hx => ?_, fun v hv => ?_, fun v => hsnd (by rw [hp]; simp) (by simp)⟩
    · simp only at hr
      split at hr <;> cases hr
    · simp only at hx
      split at hx <;> cases hx
    · simp only at hv
      split at hv <;> cases hv
  | leave hp =>
    refine ⟨fun hr => ?_, fun hx => ?_, fun v hv => ?_, fun v => hsnd (by rw [hp]; simp) (by simp)⟩
    · simp only [afterCross] at hr
      split at hr <;> cases hr
    · simp only [afterCross] at hx
      split at hx <;> cases hx
    · simp only [afterCross] at hv
      split at hv <;> cases hv
  | forward hp | start hp | cross hp | begin hp | skip hp | finish hp | arrive hp | publish hp
  | turn hp =>
    exact ⟨by simp, by simp, by simp, fun v => hsnd (by rw [hp]; simp) (by simp)⟩

/-- A block step keeps the reasons. -/
theorem Exits.blk (ih : Exits prog τ s) (hhalt : HaltOk prog τ s) (h : Reached prog τ s)
    (hfront : ∀ i, FirstBad prog i → ∀ b, (s.block b).pc.InFront i) {j : Fin n} {a : Act}
    {c : Cells} {k : Block} (hs : BlockStep n prog j s.cells (s.block j) a c k) :
    Exits prog (.blk j a :: τ) (⟨c, Function.update s.block j k⟩ : Gpu n) := by
  have key : ∀ b, _ := fun b => by
    by_cases hb : b ≠ j
    · exact ih.frame (h.frame_other hb hs) (congrArg Block.pc (Gpu.block_other hb _ _ _))
    · obtain rfl := not_not.mp hb
      by_cases ha : ∃ i, a = .store i
      · obtain ⟨i, rfl⟩ := ha
        refine ih.frame (h.frame_store hs) ?_
        rw [Gpu.block_self]
        cases hs with
        | store => rfl
      · have hm := ih.moved hhalt h hfront hs (fun i hi => ha ⟨i, hi⟩) _ rfl
        rw [Gpu.block_self]
        exact ⟨hm.1, hm.2.1, hm.2.2.1, fun v hv => hm.2.2.2 v (List.mem_cons_of_mem _ hv)⟩
  refine ⟨fun b => (key b).1, fun b => (key b).2.1, fun b => (key b).2.2.1, fun b v hv => ?_⟩
  obtain heq | hv := List.mem_cons.mp hv
  · obtain ⟨rfl, rfl⟩ := Ev.blk.inj heq
    have hm := ih.moved hhalt h hfront hs nofun _ rfl
    rw [Gpu.block_self]
    exact hm.2.2.2 v List.mem_cons_self
  · exact (key b).2.2.2 v hv

end Exits

/-- **Whoever has left has left for one of the three reasons**, in every run. -/
theorem run_exits (hn : n < 2 ^ 31) {τ : List (Ev n)} {s : Gpu n} (h : (Gpu.lts n prog).Run τ s) :
    Exits prog τ s := by
  refine Lts.Run.inv (I := Exits prog) ?_ ?_ h
  · rintro s rfl
    exact ⟨nofun, nofun, nofun, nofun⟩
  · intro τ s e s' hr ih hs
    obtain ⟨b, a, c, k, rfl, hstep, rfl⟩ | ⟨hf, d, t, rfl⟩ := Gpu.step_cases hs
    · exact ih.blk (run_haltOk hn hr) (run_reached hn hr)
        (fun i hi b => (run_inFront hi hr b).1) hstep
    · have key : ∀ b, _ := fun b => ih.frame (frame_host (d := d) (t := t) hf b) rfl
      refine ⟨fun b => (key b).1, fun b => (key b).2.1, fun b => (key b).2.2.1, fun b v hv => ?_⟩
      obtain rfl | hv := List.mem_cons.mp hv
      · exact absurd rfl (hf b)
      · exact (key b).2.2.2 v hv

/-! ## Nobody is left behind -/

/-- No block has counted itself in at a boundary that a block has left in front of. Where it fails,
the one in the boundary spins for ever. -/
def NoHang (τ : List (Ev n)) (s : Gpu n) : Prop :=
  ∀ b, (s.block b).pc = .ret → ∀ j, arrived j τ ≤ arrived b τ

/-- **Halt values and bad kinds leave nobody behind**, and errors do not either if nobody is ahead
of a block that has left with an error. -/
theorem noHang_of_error (hn : n < 2 ^ 31) {τ : List (Ev n)} {s : Gpu n}
    (h : (Gpu.lts n prog).Run τ s)
    (herr : ∀ b, (s.block b).pc = .ret → ByError prog τ s b → ∀ j, passOf j τ ≤ passOf b τ) :
    NoHang τ s := by
  have hr := run_reached hn h
  have hhalt := run_haltOk hn h
  intro b hb j
  have hbout : (s.block b).pc.phase ≠ .spinning := by rw [hb]; nofun
  have hsound : left j τ ≤ arrived b τ := hr.inv.sound j b
  have hB := arrived_eq_left hr.inv hbout
  by_cases hj : ∃ i, (s.block j).pc = .spin i
  · obtain ⟨i, hi⟩ := hj
    have hat := hr.place j
    have hwf := (hr.lock.block j).wf
    rw [hi] at hat hwf
    have hL : left j τ = (passOf j τ - 1) * stride prog + bnd prog i := hat
    have hlt := place_lt prog i (passOf_pos j τ)
    have harr : arrived j τ = left j τ + 1 := by
      have := hr.inv.arrived j
      rwa [if_pos (show s.grid.phase j = .spinning from congrArg Pc.phase hi)] at this
    obtain hby | ⟨k, hby⟩ | hby := (run_exits hn h).ret b hb
    · -- `j` is in an earlier pass than the one `b` has not begun
      let z : Fin n := ⟨0, b.pos⟩
      have hbehind := hhalt.behind hby.dev z rfl j (Or.inl (by rw [hi]; trivial))
      rw [← hby.passOf_eq z rfl] at hbehind
      have hmul : passOf j τ * stride prog ≤ (passOf b τ - 1) * stride prog :=
        Nat.mul_le_mul_right _ (by omega)
      rw [hB, hby.left_eq, harr, hL]
      omega
    · -- both are in the first pass, and the boundary stands before the bad kind
      obtain ⟨hfront, hpj⟩ := run_inFront hby.bad h j
      obtain ⟨-, hpb⟩ := run_inFront hby.bad h b
      rw [hi] at hfront
      have hik : i + 1 ≤ k := hfront
      have hbnd := bnd_succ_of_isCrossing hwf.2 (lt_trans hik (lt_length_of_badAt hby.bad.1))
      have hmono : bnd prog (i + 1) ≤ bnd prog k := bnd_mono hik
      rw [hB, hby.left_eq, harr, hL, hpj, hpb]
      omega
    · have hmul : passOf j τ * stride prog ≤ passOf b τ * stride prog :=
        Nat.mul_le_mul_right _ (herr b hb hby j)
      rw [hB, hby.left_eq, harr, hL]
      omega
  · have hjout : (s.block j).pc.phase ≠ .spinning := by
      intro hphase
      rcases hp : (s.block j).pc with _ | v | v | i | i | i | i | _ | e | _ | _ <;>
        rw [hp] at hphase <;> first | exact hj ⟨i, hp⟩ | cases hphase
    rw [arrived_eq_left hr.inv hjout]
    exact hsound

/-! ## Nobody can move -/

/-- No block can make progress. Another round of a poll or of a spin is none. -/
def Gpu.Stuck (prog : List (Instr π)) (s : Gpu n) : Prop :=
  ∀ b a s', Gpu.step prog s (.blk b a) = some s' → a.idles = true

section Stuck

variable {τ : List (Ev n)} {s : Gpu n}

/-- A block that cannot move waits for a doorbell or for a boundary, or has returned. -/
theorem Gpu.Stuck.cases (h : s.Stuck prog) (b : Fin n) :
    PollWaits s b ∨ SpinWaits s b ∨ (s.block b).pc = .ret := by
  have hmove : ∀ {P : Prop} {a : Act} {c : Cells} {k : Block},
      BlockStep n prog b s.cells (s.block b) a c k → a.idles = false → P := fun hs ha => by
    have hidle := h b _ _ (Gpu.step_blk.mpr ⟨_, _, hs, rfl⟩)
    rw [ha] at hidle
    cases hidle
  rcases hp : (s.block b).pc with _ | v | v | i | i | i | i | _ | e | _ | _
  · by_cases hk : keepPolling (doorbell b s.cells) (s.block b).pass = true
    · exact Or.inl ⟨hp, hk⟩
    · exact hmove (.hear hp rfl (Bool.not_eq_true _ ▸ hk)) rfl
  · exact hmove (.forward hp) rfl
  · by_cases hv : v = doorbellHalt
    · exact hmove (.stop (hv ▸ hp)) rfl
    · exact hmove (.start hp hv) rfl
  · obtain hd | hd | hd | hd := decode_cases prog b i
    · exact hmove (.cross hp hd) rfl
    · exact hmove (.begin hp hd) rfl
    · exact hmove (.skip hp hd) rfl
    · exact hmove (.bad hp hd) rfl
  · rcases hq : (s.block b).raising with _ | ⟨r, q⟩
    · exact hmove (.finish hp hq) rfl
    · exact hmove (.store (j := 0) (r := r) (by rw [hq]; rfl)) rfl
  · exact hmove (.arrive hp) rfl
  · by_cases ht : spinTest n s.cells.counter (s.block b).epoch = true
    · exact Or.inr (Or.inl ⟨⟨i, hp⟩, ht⟩)
    · exact hmove (.leave hp (Bool.not_eq_true _ ▸ ht)) rfl
  · exact hmove (.sample hp) rfl
  · by_cases he : e = 0
    · subst he
      by_cases h0 : b.val = 0
      · exact hmove (.publish hp h0) rfl
      · exact hmove (.turn hp h0) rfl
    · exact hmove (.quit hp he) rfl
  · rcases hq : (s.block b).raising with _ | ⟨r, q⟩
    · exact hmove (.gone hp hq) rfl
    · exact hmove (.store (j := 0) (r := r) (by rw [hq]; rfl)) rfl
  · exact Or.inr (Or.inr rfl)

/-- **If nobody is left behind, a grid that cannot move waits for a doorbell**: among the blocks
that have not returned, one that has left fewest crossings does. -/
theorem exists_pollWaits (hn : n < 2 ^ 31) (h : Reached prog τ s) (hnh : NoHang τ s)
    (hst : s.Stuck prog) {b : Fin n} (hb : (s.block b).pc ≠ .ret) :
    ∃ k, (s.block k).pc ≠ .ret ∧ PollWaits s k ∧
      ∀ j, (s.block j).pc ≠ .ret → left k τ ≤ left j τ := by
  -- a block that has left fewest crossings of those that have not returned
  obtain ⟨m, hm, hmin⟩ : ∃ m, (s.block m).pc ≠ .ret ∧
      ∀ j, (s.block j).pc ≠ .ret → left m τ ≤ left j τ := by
    have : Nonempty {b // (s.block b).pc ≠ .ret} := ⟨⟨b, hb⟩⟩
    obtain ⟨⟨m, hm⟩, hmin⟩ :=
      Finite.exists_min fun b : {b // (s.block b).pc ≠ .ret} => left b.val τ
    exact ⟨m, hm, fun j hj => hmin ⟨j, hj⟩⟩
  obtain hw | ⟨⟨i, hi⟩, htest⟩ | hr := hst.cases m
  · exact ⟨m, hm, hw, hmin⟩
  · -- whoever `m` waits for has not returned, has left as few crossings and is not at the boundary
    have hspin : s.grid.phase m = .spinning := congrArg Pc.phase hi
    obtain ⟨k, hk⟩ := (h.inv.waits_iff hn hspin).mp htest
    obtain ⟨henter, -⟩ := h.inv.spinning_counts hspin
    have hk' : arrived k τ < left m τ + 1 := by
      rw [show left m τ + 1 = enters m (τ.filterMap Ev.cross) from henter.symm]
      exact hk
    have harr : ∀ b i, (s.block b).pc = .spin i → arrived b τ = left b τ + 1 := fun b i hb => by
      have := h.inv.arrived b
      rwa [if_pos (show s.grid.phase b = .spinning from congrArg Pc.phase hb)] at this
    have hkret : (s.block k).pc ≠ .ret := by
      intro hr
      have hle := hnh k hr m
      have hm := harr m i hi
      omega
    have hkk : left k τ ≤ arrived k τ := h.inv.sound k k
    have hkm := hmin k hkret
    refine ⟨k, hkret, ?_, fun j hj => (show left k τ ≤ left m τ by omega).trans (hmin j hj)⟩
    obtain hw | ⟨⟨i', hi'⟩, -⟩ | hr := hst.cases k
    · exact hw
    · have := harr k i' hi'
      omega
    · exact absurd hr hkret
  · exact absurd hr hm

/-- Block 0 does not wait for a bell that has been rung, nor for the halt value. -/
theorem Reached.not_pollWaits_zero (h : Reached prog τ s) {z : Fin n} (hz : z.val = 0)
    (hrung : s.cells.doorbellHost = doorbellHalt ∨ passOf z τ ≤ rings τ) : ¬ PollWaits s z := by
  rintro ⟨-, hkeep⟩
  rw [doorbell, if_pos hz] at hkeep
  by_cases hd : s.cells.doorbellHost = doorbellHalt
  · rw [hd] at hkeep
    simp [keepPolling] at hkeep
  · have hR := h.lock.door.resolve_left hd
    have hle := h.lock.rings_le
    have hdone := (h.lock.zero z hz).done
    have hpass := (h.log z).pass
    have hge := hrung.resolve_left hd
    rw [show s.cells.doorbellHost = (s.block z).pass from
      BitVec.eq_of_toNat_eq (by omega), not_keepPolling_self] at hkeep
    cases hkeep

/-- Another block waits only for a pass that has not been forwarded. -/
theorem Reached.lt_of_pollWaits (h : Reached prog τ s) {k : Fin n} (hk : k.val ≠ 0)
    (hw : PollWaits s k) :
    s.cells.doorbellDev ≠ doorbellHalt ∧ s.cells.doorbellDev.toNat < passOf k τ := by
  obtain ⟨hp, hkeep⟩ := hw
  rw [doorbell, if_neg hk] at hkeep
  have hne : s.cells.doorbellDev ≠ doorbellHalt := by
    intro hd
    rw [hd] at hkeep
    simp [keepPolling] at hkeep
  refine ⟨hne, ?_⟩
  by_contra hge
  have hpass := (h.log k).pass
  have hle := ((h.lock.zero ⟨0, k.pos⟩ rfl).dev_le hne).1
  have hbehind := h.lock.pass_le_of_poll h.inv hp ⟨0, k.pos⟩
  rw [show s.cells.doorbellDev = (s.block k).pass from
    BitVec.eq_of_toNat_eq (by omega), not_keepPolling_self] at hkeep
  cases hkeep

end Stuck

end Megakernel
