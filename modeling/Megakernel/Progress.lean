import Mathlib.Data.Fintype.Lattice
import Megakernel.Passes

/-!
# Why a block stops or waits

Two facts about the control skeleton that deadlock arguments need. A block
leaves the kernel only after an error that the host can see or after the halt
value (`Stops`). And while a pass is in flight, not everybody can be waiting for
the doorbell or for a boundary: if every block is waiting or inside an op, then
a block that has left fewest crossings is inside an op
(`exists_in_op`).

Both facts are about a GPU whose host only rings, as that of the pair does. With the halt value, and
with a host that gives up, the reasons for leaving are those of `Leaving`.
-/

namespace Megakernel

variable {π : Type*} {n : ℕ} {prog : List (Instr π)}

/-! ## Stopping -/

/-- What stands behind a stop: the halt value is the number of a pass that does not exist, and an
error on the device has been mirrored to the host before. So a block that has left the kernel can
always be accounted for by something the host has done or can see. -/
structure Stops (τ : List (Ev n)) (s : Gpu n) : Prop where
  door : s.cells.doorbellHost.toNat = rings τ
  dev : s.cells.errDev ≠ 0 → s.cells.errHostCode ≠ 0
  raising : ∀ b, ∀ r ∈ (s.block b).raising, r.stage = .dev → s.cells.errHostCode ≠ 0
  sampled : ∀ b e, (s.block b).pc = .sampled e → e ≠ 0 → s.cells.errHostCode ≠ 0
  fwd : s.cells.doorbellDev = doorbellHalt → 2 ^ 32 - 1 ≤ rings τ
  heard : ∀ b, (s.block b).pc = .forward doorbellHalt ∨ (s.block b).pc = .bell doorbellHalt →
    2 ^ 32 - 1 ≤ rings τ
  stopped : ∀ b, (s.block b).pc = .ret ∨ (s.block b).pc = .exit →
    s.cells.errHostCode ≠ 0 ∨ 2 ^ 32 - 1 ≤ rings τ

/-- The error mirror is never cleared. -/
theorem BlockStep.errHost_mono {b : ℕ} {c c' : Cells} {k k' : Block} {a : Act}
    (hs : BlockStep n prog b c k a c' k') (h : c.errHostCode ≠ 0) : c'.errHostCode ≠ 0 := by
  cases hs with
  | @store j r hr =>
    rw [Raise.write]
    cases r.stage with
    | hostCode => exact ErrCode.toU32_ne_zero _
    | _ => exact h
  | _ => exact h

/-- What is known of the stepping block and the cells after its step. -/
theorem Stops.block_step {τ : List (Ev n)} {s : Gpu n} (h : Stops τ s)
    (hprog : ∀ i, badAt prog i = false) {b : Fin n} {a : Act} {c : Cells} {k : Block}
    (hs : BlockStep n prog b s.cells (s.block b) a c k) :
    (c.errDev ≠ 0 → c.errHostCode ≠ 0) ∧
    (∀ r ∈ k.raising, r.stage = .dev → c.errHostCode ≠ 0) ∧
    (∀ e, k.pc = .sampled e → e ≠ 0 → c.errHostCode ≠ 0) ∧
    (c.doorbellDev = doorbellHalt → 2 ^ 32 - 1 ≤ rings τ) ∧
    (k.pc = .forward doorbellHalt ∨ k.pc = .bell doorbellHalt → 2 ^ 32 - 1 ≤ rings τ) ∧
    (k.pc = .ret ∨ k.pc = .exit → c.errHostCode ≠ 0 ∨ 2 ^ 32 - 1 ≤ rings τ) := by
  have hdev := h.dev
  have hraise := h.raising b
  have hsam := h.sampled b
  have hfwd := h.fwd
  have hheard := h.heard b
  have hstop := h.stopped b
  cases hs with
  | poll | tick | spin => exact ⟨hdev, hraise, hsam, hfwd, hheard, hstop⟩
  | @hear v hp hv =>
    -- block 0 reads the host cell, the others the forward cell
    have hhalt : v = doorbellHalt → 2 ^ 32 - 1 ≤ rings τ := by
      rintro rfl
      by_cases h0 : b.val = 0
      · rw [doorbell, if_pos h0] at hv
        rw [← h.door, hv, doorbellHalt_toNat]
      · rw [doorbell, if_neg h0] at hv
        exact hfwd hv
    refine ⟨hdev, hraise, fun e he => ?_, hfwd, fun he => ?_, fun he => ?_⟩
    · simp only at he
      split at he <;> cases he
    · simp only at he
      split at he <;> rcases he with he | he <;> cases he <;> exact hhalt rfl
    · simp only at he
      split at he <;> rcases he with he | he <;> cases he
  | @forward v hp =>
    have hhalt : v = doorbellHalt → 2 ^ 32 - 1 ≤ rings τ := by
      rintro rfl
      exact hheard (Or.inl hp)
    refine ⟨hdev, hraise, by simp, hhalt, fun he => ?_, fun he => ?_⟩
    · rcases he with he | he <;> cases he
      exact hhalt rfl
    · rcases he with he | he <;> cases he
  | stop hp => exact ⟨hdev, hraise, by simp, hfwd, by simp, fun _ => Or.inr (hheard (Or.inr hp))⟩
  | bad hp hi =>
    rw [hprog] at hi
    cases hi
  | raise hp =>
    refine ⟨hdev, fun r hr hst => ?_, hsam, hfwd, hheard, hstop⟩
    rcases List.mem_cons.mp hr with rfl | hr
    · cases hst
    · exact hraise r hr hst
  | @store j r hr =>
    have hmem : r ∈ (s.block b).raising := List.mem_of_getElem? hr
    have hmono : s.cells.errHostCode ≠ 0 → (r.write s.cells).errHostCode ≠ 0 := by
      rw [Raise.write]
      cases r.stage with
      | hostCode => exact fun _ => ErrCode.toU32_ne_zero _
      | _ => exact id
    refine ⟨fun he => ?_, fun r' hr' hst => ?_, fun e he hne => hmono (hsam e he hne), ?_, hheard,
      fun he => (hstop he).imp_left hmono⟩
    · rw [Raise.write] at he ⊢
      rcases hst : r.stage with _ | _ | _ <;> rw [hst] at he
      · exact hdev he
      · exact ErrCode.toU32_ne_zero _
      · exact hraise r hmem hst
    · -- the raise itself is at `dev` only behind the store of the mirror
      simp only [List.mem_append] at hr'
      rcases hr' with (hr' | hr') | hr'
      · exact hmono (hraise r' (List.mem_of_mem_take hr') hst)
      · rw [Raise.next] at hr'
        rw [Raise.write]
        rcases hstage : r.stage with _ | _ | _ <;> rw [hstage] at hr'
        · obtain rfl := List.mem_singleton.mp hr'
          cases hst
        · exact ErrCode.toU32_ne_zero _
        · cases hr'
      · exact hmono (hraise r' (List.mem_of_mem_drop hr') hst)
    · rw [Raise.write_doorbellDev]
      exact hfwd
  | @leave i hp =>
    refine ⟨hdev, hraise, fun e he => ?_, hfwd, fun he => ?_, fun he => ?_⟩
    · simp only [afterCross] at he
      split at he <;> cases he
    · simp only [afterCross] at he
      split at he <;> rcases he with he | he <;> cases he
    · simp only [afterCross] at he
      split at he <;> rcases he with he | he <;> cases he
  | sample hp =>
    refine ⟨hdev, hraise, fun e he hne => ?_, hfwd, by simp, by simp⟩
    cases he
    exact hdev hne
  | quit hp hne => exact ⟨hdev, hraise, by simp, hfwd, by simp, fun _ => Or.inl (hsam _ hp hne)⟩
  | gone hp => exact ⟨hdev, hraise, by simp, hfwd, by simp, fun _ => hstop (Or.inr hp)⟩
  | start hp | cross hp | begin hp | skip hp | finish hp | arrive hp | publish hp | turn hp =>
    exact ⟨hdev, hraise, by simp, hfwd, by simp, by simp⟩

/-- **In a run without the halt value, blocks stop only for a reason the host can see.** -/
theorem run_stops (hn : n < 2 ^ 31) (hprog : ∀ i, badAt prog i = false) {τ : List (Ev n)}
    {s : Gpu n} (h : (Gpu.lts n prog).Run τ s) (hhalt : .halt ∉ τ) : Stops τ s := by
  revert hhalt
  refine Lts.Run.inv (I := fun τ s => Ev.halt ∉ τ → Stops τ s) ?_ ?_ h
  · rintro s rfl -
    have hne : (0 : U32) ≠ doorbellHalt := by decide
    exact ⟨rfl, fun h => absurd rfl h, nofun, nofun, fun h => absurd h hne, nofun, nofun⟩
  · intro τ s e s' hr ih hs hhalt
    have ih := ih fun hmem => hhalt (List.mem_cons_of_mem _ hmem)
    cases e with
    | blk b a =>
      obtain ⟨c, k, hstep, rfl⟩ := Gpu.step_blk.mp hs
      obtain ⟨h₁, h₂, h₃, h₄, h₅, h₆⟩ := ih.block_step hprog hstep
      have hmono := hstep.errHost_mono
      have hdoor := hstep.host_cells.1
      have hother : ∀ j, j ≠ b → Function.update s.block b k j = s.block j := fun j hne =>
        Function.update_of_ne hne _ _
      refine ⟨?_, h₁, fun j => ?_, fun j => ?_, ?_, fun j => ?_, fun j => ?_⟩
      · rw [rings_cons_blk, hdoor]
        exact ih.door
      · rcases eq_or_ne j b with rfl | hne
        · simpa only [Function.update_self] using h₂
        · simp only [hother j hne]
          exact fun r hr hst => hmono (ih.raising j r hr hst)
      · rcases eq_or_ne j b with rfl | hne
        · simpa only [Function.update_self] using h₃
        · simp only [hother j hne]
          exact fun e he hne => hmono (ih.sampled j e he hne)
      · rw [rings_cons_blk]
        exact h₄
      · rw [rings_cons_blk]
        rcases eq_or_ne j b with rfl | hne
        · simpa only [Function.update_self] using h₅
        · simp only [hother j hne]
          exact ih.heard j
      · rw [rings_cons_blk]
        rcases eq_or_ne j b with rfl | hne
        · simpa only [Function.update_self] using h₆
        · simp only [hother j hne]
          exact fun he => (ih.stopped j he).imp_left hmono
    | ring =>
      have hl := run_lock hn hr
      obtain ⟨hq, rfl⟩ := Gpu.step_ring.mp hs
      have hrings : rings (.ring :: τ) = rings τ + 1 := by simp [rings]
      have hdone := hl.done_of_quiet hq
      have hlt := hl.done_lt
      have hdoor := ih.door
      refine ⟨?_, ih.dev, ih.raising, ih.sampled, fun he => ?_, fun j he => ?_, fun j he => ?_⟩
      · rw [hrings, ← hdoor]
        exact Wrap.toNat_add_one (by omega)
      · have := ih.fwd he
        omega
      · have := ih.heard j he
        omega
      · exact (ih.stopped j he).imp_right fun hle => by omega
    | halt => exact absurd List.mem_cons_self hhalt
    | token t =>
      obtain ⟨-, rfl⟩ := Gpu.step_token.mp hs
      exact ⟨ih.door, ih.dev, ih.raising, ih.sampled, ih.fwd, ih.heard, ih.stopped⟩

/-! ## Waiting -/

/-- The block is polling a doorbell that has not reached its pass. Another look at the doorbell does
not help; somebody else has to write it. -/
def PollWaits (s : Gpu n) (b : Fin n) : Prop :=
  (s.block b).pc = .poll ∧ keepPolling (doorbell b s.cells) (s.block b).pass = true

/-- The block is spinning at a boundary that somebody has not arrived at, and stays there until they
have. -/
def SpinWaits (s : Gpu n) (b : Fin n) : Prop :=
  (∃ i, (s.block b).pc = .spin i) ∧ spinTest n s.cells.counter (s.block b).epoch = true

/-- Waiting, or inside an op. Where every block is so, the skeleton itself has nothing left to do,
and what happens next is up to an op. -/
def IdleOrOp (s : Gpu n) (b : Fin n) : Prop :=
  PollWaits s b ∨ SpinWaits s b ∨ ∃ i, (s.block b).pc = .op i

theorem not_keepPolling_self (v : U32) : keepPolling v v = false := by
  simp [keepPolling, Wrap.behind]

section Waiting

variable {τ : List (Ev n)} {s : Gpu n}

/-- Block 0 hears a pass in flight. -/
theorem not_pollWaits_zero (hl : Lock prog τ s) (hst : Stops τ s)
    (hR : s.cells.done.toNat + 1 = rings τ) {b : Fin n} (h0 : b.val = 0) : ¬ PollWaits s b := by
  rintro ⟨-, hkeep⟩
  have hpass : s.cells.doorbellHost = (s.block b).pass :=
    BitVec.eq_of_toNat_eq (by rw [hst.door, ← hR, (hl.zero b h0).done])
  rw [doorbell, if_pos h0, hpass, not_keepPolling_self] at hkeep
  cases hkeep

/-- While a pass is in flight, a block that has left fewest crossings is not waiting for the
doorbell: block 0 has forwarded it. -/
theorem not_pollWaits (hl : Lock prog τ s) (hinv : Grid.Inv (τ.filterMap Ev.cross) s.grid)
    (hst : Stops τ s) (hR : s.cells.done.toNat + 1 = rings τ) (hlt : rings τ < 2 ^ 32 - 1)
    (hidle : ∀ b, IdleOrOp s b) {b : Fin n} (hmin : ∀ j, left b τ ≤ left j τ) :
    ¬ PollWaits s b := by
  by_cases h0 : b.val = 0
  · exact not_pollWaits_zero hl hst hR h0
  rintro ⟨hp, hkeep⟩
  -- block 0 is behind the doorbell and in front of the epilogue
  let b₀ : Fin n := ⟨0, b.pos⟩
  have hz := hl.zero b₀ rfl
  have hb₀ := hl.block b₀
  have hplace : (s.block b₀).pc.Live ∧
      ∃ i, left b₀ τ = ((s.block b₀).pass.toNat - 1) * stride prog + bnd prog i := by
    have hat := hb₀.place
    rcases hidle b₀ with hw | ⟨⟨i, hi⟩, -⟩ | ⟨i, hi⟩
    · exact absurd hw (not_pollWaits_zero hl hst hR rfl)
    · rw [hi] at hat ⊢
      exact ⟨trivial, i, hat⟩
    · rw [hi] at hat ⊢
      exact ⟨trivial, i, hat⟩
  obtain ⟨hlive, i, hleft⟩ := hplace
  have hne : s.cells.doorbellDev ≠ doorbellHalt := fun hd => absurd (hst.fwd hd) (not_le.mpr hlt)
  have hge := (hb₀.live hlive).2.2.resolve_left hne
  have hle := (hz.dev_le hne).2
  -- and `b` is in the pass in flight
  have hat := (hl.block b).place
  rw [hp] at hat
  have hL : left b τ = ((s.block b).pass.toNat - 1) * stride prog := hat
  have hstride : 0 < stride prog := Nat.succ_pos _
  have hb0 := hmin b₀
  have hsound : left b₀ τ ≤ arrived b τ := hinv.sound b₀ b
  have harr : arrived b τ = left b τ := arrived_eq_left hinv (by rw [hp]; nofun)
  have hlt₀ := place_lt prog i hb₀.pass_pos
  have hpass : (s.block b).pass.toNat = (s.block b₀).pass.toNat := by
    have h₁ : ((s.block b₀).pass.toNat - 1) * stride prog ≤
        ((s.block b).pass.toNat - 1) * stride prog := by omega
    have h₂ : ((s.block b).pass.toNat - 1) * stride prog <
        (s.block b₀).pass.toNat * stride prog := by omega
    have h₃ := Nat.le_of_mul_le_mul_right h₁ hstride
    have h₄ := Nat.lt_of_mul_lt_mul_right h₂
    have := hb₀.pass_pos
    have := (hl.block b).pass_pos
    omega
  have hdev : s.cells.doorbellDev = (s.block b).pass :=
    BitVec.eq_of_toNat_eq (by rw [hpass]; have := hz.done; omega)
  rw [doorbell, if_neg h0, hdev, not_keepPolling_self] at hkeep
  cases hkeep

/-- **Not everybody waits.** If a pass is in flight and every block is waiting for the
doorbell, waiting for a boundary or inside an op, then some block that has left fewest
crossings is inside an op. -/
theorem exists_in_op (hn : n < 2 ^ 31) (hpos : 0 < n) (hl : Lock prog τ s)
    (hinv : Grid.Inv (τ.filterMap Ev.cross) s.grid) (hst : Stops τ s)
    (hR : s.cells.done.toNat + 1 = rings τ) (hlt : rings τ < 2 ^ 32 - 1)
    (hidle : ∀ b, IdleOrOp s b) :
    ∃ b i, (s.block b).pc = .op i ∧ ∀ j, left b τ ≤ left j τ := by
  have : Nonempty (Fin n) := ⟨⟨0, hpos⟩⟩
  obtain ⟨b, hmin⟩ := Finite.exists_min fun b => left b τ
  rcases hidle b with hw | ⟨⟨i, hi⟩, htest⟩ | ⟨i, hi⟩
  · exact absurd hw (not_pollWaits hl hinv hst hR hlt hidle hmin)
  · -- whoever `b` waits for has left as few crossings and is not at the boundary
    have hspin : s.grid.phase b = .spinning := congrArg Pc.phase hi
    obtain ⟨k, hk⟩ := (hinv.waits_iff hn hspin).mp htest
    obtain ⟨henter, -⟩ := hinv.spinning_counts hspin
    have hkk : left k τ ≤ arrived k τ := hinv.sound k k
    have hbk := hmin k
    have hk' : arrived k τ < left b τ + 1 := by
      rw [show left b τ + 1 = enters b (τ.filterMap Ev.cross) from henter.symm]
      exact hk
    have hmin' : ∀ j, left k τ ≤ left j τ := fun j => (show left k τ ≤ left b τ by omega).trans
      (hmin j)
    rcases hidle k with hw | ⟨⟨i', hi'⟩, -⟩ | ⟨i', hi'⟩
    · exact absurd hw (not_pollWaits hl hinv hst hR hlt hidle hmin')
    · have harr : arrived k τ = left k τ + 1 := by
        have := hinv.arrived k
        rwa [if_pos (show s.grid.phase k = .spinning from congrArg Pc.phase hi')] at this
      omega
    · exact ⟨k, i', hi', hmin'⟩
  · exact ⟨b, i, hi, hmin⟩

end Waiting

/-! ## Moving -/

/-- The steps that do not count as progress: another load of a poll, and what the skeleton allows
inside any op. -/
def Act.idles : Act → Bool
  | .poll | .spin _ | .tick _ | .raise _ _ _ => true
  | _ => false

/-- Every instruction index is decoded in one of four ways. -/
theorem decode_cases (prog : List (Instr π)) (b i : ℕ) :
    isCrossing prog i = true ∨ runs prog b i = true ∨ skips prog b i = true ∨
      badAt prog i = true := by
  rw [isCrossing, runs, skips, badAt]
  rcases prog[i]? with _ | ins
  · exact Or.inl rfl
  · simp only
    rcases ins.isBoundary with _ | _ <;> rcases ins.isBad with _ | _ <;>
      rcases ins.participates b with _ | _ <;> simp

/-- **A block that is not waiting and not inside an op can move**, unless an error is visible to the
host or the halt value has been reached. The step it takes is one that counts as progress
(`Act.idles`). -/
theorem Gpu.exists_step {τ : List (Ev n)} {s : Gpu n} (hst : Stops τ s)
    (herr : s.cells.errHostCode = 0) (hlt : rings τ < 2 ^ 32 - 1) (b : Fin n) :
    IdleOrOp s b ∨ ∃ a s', Gpu.step prog s (.blk b a) = some s' ∧ a.idles = false ∧
      ∀ i, a ≠ .finish i := by
  have hstopped : ¬ ((s.block b).pc = .ret ∨ (s.block b).pc = .exit) := by
    intro hpc
    rcases hst.stopped b hpc with he | hle
    · exact he herr
    · exact absurd hlt (not_lt.mpr hle)
  have hmove : ∀ {a : Act} {c : Cells} {k : Block}, BlockStep n prog b s.cells (s.block b) a c k →
      a.idles = false → (∀ i, a ≠ .finish i) → ∃ a s', Gpu.step prog s (.blk b a) = some s' ∧
        a.idles = false ∧ ∀ i, a ≠ .finish i := fun hstep h₁ h₂ =>
    ⟨_, _, Gpu.step_blk.mpr ⟨_, _, hstep, rfl⟩, h₁, h₂⟩
  rcases hp : (s.block b).pc with _ | v | v | i | i | i | i | _ | e | _ | _
  · by_cases hk : keepPolling (doorbell b s.cells) (s.block b).pass = true
    · exact Or.inl (Or.inl ⟨hp, hk⟩)
    · exact Or.inr (hmove (.hear hp rfl (Bool.not_eq_true _ ▸ hk)) rfl nofun)
  · exact Or.inr (hmove (.forward hp) rfl nofun)
  · by_cases hv : v = doorbellHalt
    · exact Or.inr (hmove (.stop (hv ▸ hp)) rfl nofun)
    · exact Or.inr (hmove (.start hp hv) rfl nofun)
  · rcases decode_cases prog b i with h | h | h | h
    · exact Or.inr (hmove (.cross hp h) rfl nofun)
    · exact Or.inr (hmove (.begin hp h) rfl nofun)
    · exact Or.inr (hmove (.skip hp h) rfl nofun)
    · exact Or.inr (hmove (.bad hp h) rfl nofun)
  · exact Or.inl (Or.inr (Or.inr ⟨i, hp⟩))
  · exact Or.inr (hmove (.arrive hp) rfl nofun)
  · by_cases ht : spinTest n s.cells.counter (s.block b).epoch = true
    · exact Or.inl (Or.inr (Or.inl ⟨⟨i, hp⟩, ht⟩))
    · exact Or.inr (hmove (.leave hp (Bool.not_eq_true _ ▸ ht)) rfl nofun)
  · exact Or.inr (hmove (.sample hp) rfl nofun)
  · by_cases he : e = 0
    · subst he
      by_cases h0 : b.val = 0
      · exact Or.inr (hmove (.publish hp h0) rfl nofun)
      · exact Or.inr (hmove (.turn hp h0) rfl nofun)
    · exact Or.inr (hmove (.quit hp he) rfl nofun)
  · exact absurd (Or.inr hp) hstopped
  · exact absurd (Or.inl hp) hstopped

end Megakernel
