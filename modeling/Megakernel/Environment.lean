import Megakernel.Dual

/-!
# A GPU under any host

`Gpu.lts` assumes a host that rings only when the last rung pass is done. A host
that has given up on a pass (a failed copy, a timeout) may ring again while the
pass is in flight, so what is said about errors has to hold without that
assumption. Here the host writes its doorbell cell and the token cell whenever
and whatever it likes (`Gpu.anyHost`).

Two things survive. The boundary is still the boundary of `Boundary`, since no
host can touch its counter. And the place of a block in its program still counts
its crossings: `InPlace` is the part of `Lock` that does not speak of the bells.

An op that raises in pass `N` is in front of the epilogue of pass `N`, which no
block passes without it, and it does not return before the device error cell is
set. `Gpu.anyHost_stained` carries this to the error sample: no block gets beyond pass
`N` (`Stained.passOf_le`).

The invariants that are used elsewhere for a GPU with a legal host are not assumed here. What is
needed of them is proved again in its weaker form, which is why the two developments meet only in
`Errored` and `SkippedPass`.
-/

namespace Megakernel

variable {π : Type*} {n : ℕ} {prog : List (Instr π)}

@[simp] theorem Gpu.block_self (c : Cells) (f : Fin n → Block) (b : Fin n) (k : Block) :
    (⟨c, Function.update f b k⟩ : Gpu n).block b = k :=
  Function.update_self b k f

theorem Gpu.block_other {b j : Fin n} (h : j ≠ b) (c : Cells) (f : Fin n → Block) (k : Block) :
    (⟨c, Function.update f b k⟩ : Gpu n).block j = f j :=
  Function.update_of_ne h k f

/-- The two cells a host writes besides the error mirror it never resets. -/
def Cells.hostWrite (c : Cells) (door token : U32) : Cells :=
  { c with doorbellHost := door, token := token }

/-- A GPU under a host that writes its cells at will. No guard is left on the side of the host, so
that every host, also one that has lost count, is an instance. -/
def Gpu.anyHost (n : ℕ) (prog : List (Instr π)) : Lts (Gpu n) (Ev n) where
  init s := s = Gpu.zero n
  step s e s' :=
    match e with
    | .blk _ _ => Gpu.step prog s e = some s'
    | _ => ∃ d t, s' = { s with cells := s.cells.hostWrite d t }

/-- A step under any host: of a block, or a write of the host. -/
theorem Gpu.anyHost_cases {s s' : Gpu n} {e : Ev n} (h : (Gpu.anyHost n prog).step s e s') :
    (∃ b a c k, e = .blk b a ∧ BlockStep n prog b s.cells (s.block b) a c k ∧
      s' = ⟨c, Function.update s.block b k⟩) ∨
    (e.cross = none ∧ (∀ b, e.Foreign b) ∧
      ∃ d t, s' = { s with cells := s.cells.hostWrite d t }) := by
  cases e with
  | blk b a =>
    obtain ⟨c, k, hstep, rfl⟩ := Gpu.step_blk.mp h
    exact Or.inl ⟨b, a, c, k, rfl, hstep, rfl⟩
  | ring | halt | token => exact Or.inr ⟨rfl, fun _ => trivial, h⟩

/-- No host disturbs the boundary. -/
theorem Gpu.anyHost_grid {τ : List (Ev n)} {s : Gpu n} (h : (Gpu.anyHost n prog).Run τ s) :
    (Grid.lts n).Run (τ.filterMap Ev.cross) s.grid := by
  refine Lts.Run.project Gpu.grid Ev.cross ?_ ?_ h
  · rintro s rfl
    rfl
  · intro τ s e s' _ _ hs
    obtain ⟨b, a, c, k, rfl, hstep, rfl⟩ | ⟨hx, -, d, t, rfl⟩ := Gpu.anyHost_cases hs
    · have key := grid_blk hstep
      rcases hx : (Ev.blk b a).cross with _ | l <;> rw [hx] at key <;> exact key
    · rw [hx]
      rfl

theorem Gpu.anyHost_inv (hn : n < 2 ^ 31) {τ : List (Ev n)} {s : Gpu n}
    (h : (Gpu.anyHost n prog).Run τ s) : Grid.Inv (τ.filterMap Ev.cross) s.grid :=
  Grid.run_inv hn (Gpu.anyHost_grid h)

/-! ## Places -/

/-- A block in pass `p` that has returned from `L` crossings is where these numbers say. This much
of the lockstep does not depend on what the bells hold. -/
structure InPlaceAt (prog : List (Instr π)) (b p L : ℕ) (k : Block) : Prop where
  wf : k.pc.Wf prog b
  place : k.pc.At prog p L

/-- Every block is where its history says. -/
def InPlace (prog : List (Instr π)) (τ : List (Ev n)) (s : Gpu n) : Prop :=
  ∀ b : Fin n, InPlaceAt prog b (passOf b τ) (left b τ) (s.block b)

/-- The pass of a block after a step: the ends of passes count. -/
def Act.turns : Act → ℕ
  | .publish | .turn => 1
  | _ => 0

theorem passOf_cons_blk (b : Fin n) (a : Act) (τ : List (Ev n)) :
    passOf b (.blk b a :: τ) = passOf b τ + a.turns := by
  by_cases h : a = .publish ∨ a = .turn
  · rw [passOf_cons_next h]
    obtain rfl | rfl := h <;> rfl
  · obtain ⟨h₁, h₂⟩ := not_or.mp h
    rw [passOf_cons_self h₁ h₂]
    cases a <;> first | rfl | contradiction

/-- A block step moves the block to a place that fits. -/
theorem InPlaceAt.step {b p L : ℕ} {c c' : Cells} {k k' : Block} {a : Act}
    (h : InPlaceAt prog b p L k) (hpos : 1 ≤ p) (hs : BlockStep n prog b c k a c' k') :
    InPlaceAt prog b (p + a.turns) (L + a.crossed) k' := by
  obtain ⟨hwf, hat⟩ := h
  cases hs with
  | poll | tick | raise | store => exact ⟨hwf, hat⟩
  | spin hp => exact ⟨hwf, hat⟩
  | hear hp =>
    rw [hp] at hat
    rcases Decidable.em (b = 0) with h0 | h0
    · rw [if_pos h0]
      exact ⟨h0, hat⟩
    · rw [if_neg h0]
      exact ⟨trivial, hat⟩
  | forward hp =>
    rw [hp] at hat
    exact ⟨trivial, hat⟩
  | start hp =>
    rw [hp] at hat
    refine ⟨Nat.zero_le _, ?_⟩
    simpa [Pc.At, Act.crossed, Act.turns] using hat
  | stop hp =>
    rw [hp] at hat
    exact ⟨trivial, hat.ge⟩
  | cross hp hi =>
    rw [hp] at hwf hat
    exact ⟨⟨hwf, hi⟩, hat⟩
  | begin hp hi =>
    rw [hp] at hat
    exact ⟨hi, hat⟩
  | skip hp hi =>
    rw [hp] at hat
    obtain ⟨hlt, hbnd⟩ := bnd_succ_of_skips hi
    refine ⟨hlt, ?_⟩
    simp only [Pc.At, hbnd]
    exact hat
  | bad hp hi =>
    have hle := hat.le
    split
    next h0 => exact ⟨h0, hle⟩
    · exact ⟨trivial, hle⟩
  | finish hp =>
    rw [hp] at hwf hat
    obtain ⟨hlt, hbnd⟩ := bnd_succ_of_runs hwf
    refine ⟨hlt, ?_⟩
    simp only [Pc.At, hbnd]
    exact hat
  | arrive hp =>
    rw [hp] at hwf hat
    exact ⟨hwf, hat⟩
  | @leave i hp =>
    rw [hp] at hwf hat
    have hL : L = (p - 1) * stride prog + bnd prog i := hat
    simp only [afterCross]
    split
    next hlt =>
      have hbnd := bnd_succ_of_isCrossing hwf.2 hlt
      refine ⟨hlt, ?_⟩
      simp only [Pc.At, Act.crossed, Act.turns, Nat.add_zero]
      omega
    next hge =>
      obtain rfl : i = prog.length := le_antisymm hwf.1 (not_lt.mp hge)
      have hlen : bnd prog prog.length + 1 = stride prog := bnd_length
      refine ⟨trivial, ?_⟩
      simp only [Pc.At, Act.crossed, Act.turns, Nat.add_zero]
      omega
  | sample hp =>
    rw [hp] at hat
    exact ⟨trivial, hat⟩
  | publish hp | turn hp =>
    rw [hp] at hat
    refine ⟨trivial, ?_⟩
    have hL : L = (p - 1) * stride prog + stride prog := hat
    simp only [Pc.At, Act.crossed, Act.turns, Nat.add_sub_cancel]
    rw [Nat.add_zero, hL, sub_one_mul_add hpos]
  | quit hp =>
    have hle := hat.le
    exact ⟨trivial, hle⟩
  | gone hp =>
    rw [hp] at hat
    exact ⟨trivial, hat⟩

/-- **Every block is in its place**, whatever the host does. -/
theorem Gpu.anyHost_placed {τ : List (Ev n)} {s : Gpu n} (h : (Gpu.anyHost n prog).Run τ s) :
    InPlace prog τ s := by
  refine Lts.Run.inv (I := InPlace prog) ?_ ?_ h
  · rintro s rfl b
    exact ⟨trivial, (Nat.zero_mul _).symm⟩
  · intro τ s e s' _ ih hs j
    obtain ⟨b, a, c, k, rfl, hstep, rfl⟩ | ⟨-, hf, d, t, rfl⟩ := Gpu.anyHost_cases hs
    · obtain rfl | hne := eq_or_ne j b
      · rw [block_self, passOf_cons_blk, left_cons_self]
        exact (ih j).step (passOf_pos j τ) hstep
      · have hother : (Ev.blk b a : Ev n).Foreign j := fun heq => hne heq.symm
        rw [block_other hne, passOf_cons_foreign hother, left_cons_foreign hother]
        exact ih j
    · rw [passOf_cons_foreign (hf j), left_cons_foreign (hf j)]
      exact ih j

/-! ## Errors -/

/-- The step calls `raise_error` in an op, or meets a bad kind. Both kinds of errors keep their
block from the epilogue of the pass, which is all that matters here. -/
def Act.errs : Act → Bool
  | .raise _ _ _ | .bad _ => true
  | _ => false

/-- The passes in which block `b` has raised an error or met a bad kind, read off the history. -/
def erredIn (b : Fin n) : List (Ev n) → List ℕ
  | [] => []
  | .blk j a :: τ =>
    if j = b ∧ a.errs = true then passOf b τ :: erredIn b τ else erredIn b τ
  | _ :: τ => erredIn b τ

theorem erredIn_cons_self (b : Fin n) {a : Act} (h : a.errs = true) (τ : List (Ev n)) :
    erredIn b (.blk b a :: τ) = passOf b τ :: erredIn b τ := by
  rw [erredIn, if_pos ⟨rfl, h⟩]

/-- Other steps add no error of the block. -/
theorem erredIn_cons_of {b : Fin n} {e : Ev n} (h : ∀ a, e = .blk b a → a.errs = false)
    (τ : List (Ev n)) : erredIn b (e :: τ) = erredIn b τ := by
  cases e with
  | blk j a =>
    rw [erredIn, if_neg]
    rintro ⟨rfl, ha⟩
    rw [h a rfl] at ha
    cases ha
  | _ => rfl

/-- The device error cell is never cleared. -/
theorem BlockStep.errDev_mono {b : ℕ} {c c' : Cells} {k k' : Block} {a : Act}
    (hs : BlockStep n prog b c k a c' k') (h : c.errDev ≠ 0) : c'.errDev ≠ 0 := by
  cases hs with
  | @store j r hr =>
    rw [Raise.write]
    cases r.stage with
    | dev => exact ErrCode.toU32_ne_zero _
    | _ => exact h
  | _ => exact h

/-- The block that erred in pass `N` has not come to the epilogue of that pass: it is still in the
op, with a raise to be completed, or it has met a bad kind. -/
def Short (prog : List (Instr π)) (τ : List (Ev n)) (s : Gpu n) (b : Fin n) (N : ℕ) : Prop :=
  passOf b τ = N ∧ left b τ < N * stride prog ∧
    ((∃ i, (s.block b).pc = .op i ∧ (s.block b).raising ≠ []) ∨ (s.block b).pc = .exit ∨
      (s.block b).pc = .ret)

/-- A block that is short of the epilogue has not counted itself in there. -/
theorem Short.arrived_lt {τ : List (Ev n)} {s : Gpu n} {b : Fin n} {N : ℕ}
    (h : Short prog τ s b N) (hinv : Grid.Inv (τ.filterMap Ev.cross) s.grid) :
    arrived b τ < N * stride prog := by
  obtain ⟨-, hlt, hpc⟩ := h
  rw [arrived_eq_left hinv]
  · exact hlt
  · obtain ⟨i, hi, -⟩ | hi | hi := hpc <;> rw [hi] <;> nofun

/-- Nobody is behind the epilogue that a block is short of. -/
theorem Short.lt_of_left {τ : List (Ev n)} {s : Gpu n} {b : Fin n} {N : ℕ}
    (h : Short prog τ s b N) (hinv : Grid.Inv (τ.filterMap Ev.cross) s.grid) {j : Fin n} {q : ℕ}
    (hq : q * stride prog ≤ left j τ) : q < N := by
  have hsound : left j τ ≤ arrived b τ := hinv.sound j b
  have hlt := h.arrived_lt hinv
  exact Nat.lt_of_mul_lt_mul_right (hq.trans_lt (hsound.trans_lt hlt))

/-- A raise sees to it that the op does not return before the error cell is set. -/
theorem Short.step {τ : List (Ev n)} {s : Gpu n} {b : Fin n} {N : ℕ} (h : Short prog τ s b N)
    {a : Act} {c : Cells} {k : Block} (hs : BlockStep n prog b s.cells (s.block b) a c k) :
    c.errDev ≠ 0 ∨
      Short prog (.blk b a :: τ) (⟨c, Function.update s.block b k⟩ : Gpu n) b N := by
  obtain ⟨hN, hlt, hpc⟩ := h
  -- a step from such a place that leaves the error cell clear stays at such a place
  have hkeep : a.turns = 0 → a.crossed = 0 →
      ((∃ i, k.pc = .op i ∧ k.raising ≠ []) ∨ k.pc = .exit ∨ k.pc = .ret) →
      Short prog (.blk b a :: τ) (⟨c, Function.update s.block b k⟩ : Gpu n) b N :=
    fun h₁ h₂ h₃ => ⟨by rw [passOf_cons_blk, h₁, Nat.add_zero, hN],
      by rw [left_cons_self, h₂]; exact hlt,
      by rwa [Gpu.block_self]⟩
  cases hs with
  | tick => exact Or.inr (hkeep rfl rfl hpc)
  | raise hp => exact Or.inr (hkeep rfl rfl (Or.inl ⟨_, hp, List.cons_ne_nil _ _⟩))
  | @store j r hr =>
    rcases hstage : r.stage with _ | _ | _
    iterate 2
      refine Or.inr (hkeep rfl rfl (hpc.imp_left ?_))
      rintro ⟨i, hi, -⟩
      exact ⟨i, hi, by simp [Raise.next, hstage]⟩
    refine Or.inl ?_
    rw [Raise.write, hstage]
    exact ErrCode.toU32_ne_zero _
  | finish hp hq =>
    obtain ⟨i, -, hne⟩ | hi | hi := hpc
    · exact absurd hq hne
    · rw [hp] at hi
      cases hi
    · rw [hp] at hi
      cases hi
  | gone hp => exact Or.inr (hkeep rfl rfl (Or.inr (Or.inr rfl)))
  | poll hp | hear hp | forward hp | start hp | stop hp | cross hp | begin hp | skip hp | bad hp
  | arrive hp | spin hp | leave hp | sample hp | publish hp | turn hp | quit hp =>
    obtain ⟨i, hi, -⟩ | hi | hi := hpc <;> rw [hp] at hi <;> cases hi

/-- A block that errs is short of the epilogue of its pass. -/
theorem short_of_errs {τ : List (Ev n)} {s : Gpu n} (hpl : InPlace prog τ s) {b : Fin n} {a : Act}
    (ha : a.errs = true) {c : Cells} {k : Block}
    (hs : BlockStep n prog b s.cells (s.block b) a c k) :
    Short prog (.blk b a :: τ) (⟨c, Function.update s.block b k⟩ : Gpu n) b (passOf b τ) := by
  have hat := (hpl b).place
  have hpos := passOf_pos b τ
  cases hs with
  | @raise i code aux hp =>
    rw [hp] at hat
    refine ⟨passOf_cons_blk b _ τ, ?_, Or.inl ⟨i, ?_, ?_⟩⟩
    · rw [left_cons_self, show left b τ = _ from hat]
      exact place_lt prog i hpos
    · rw [Gpu.block_self]
      exact hp
    · rw [Gpu.block_self]
      exact List.cons_ne_nil _ _
  | @bad i hp hi =>
    rw [hp] at hat
    refine ⟨passOf_cons_blk b _ τ, ?_, Or.inr ?_⟩
    · rw [left_cons_self, show left b τ = _ from hat]
      exact place_lt prog i hpos
    · rw [Gpu.block_self]
      split
      · exact Or.inl rfl
      · exact Or.inr rfl
  | _ => cases ha

/-- What an error of pass `N` leaves behind: either its block is still short of the epilogue, where
all others have to wait for it, or the device error cell is set, and whoever comes to sample it
leaves. -/
structure Stained (prog : List (Instr π)) (τ : List (Ev n)) (s : Gpu n) (b : Fin n) (N : ℕ) :
    Prop where
  /-- the error cell is set, or the block is still short of the epilogue -/
  stain : s.cells.errDev ≠ 0 ∨ Short prog τ s b N
  /-- nobody is beyond pass `N` -/
  passOf_le : ∀ j, passOf j τ ≤ N
  /-- nobody has sampled a clear error cell at the end of pass `N` -/
  sampled : ∀ j, (s.block j).pc = .sampled 0 → passOf j τ < N

section Stain

variable {τ : List (Ev n)} {s : Gpu n} {b : Fin n} {N : ℕ}

/-- The steps of the host do not touch an error. -/
theorem Stained.hostWrite (h : Stained prog τ s b N) {e : Ev n}
    (he : ∀ j, e.Foreign j) {d t : U32} :
    Stained prog (e :: τ) { s with cells := s.cells.hostWrite d t } b N where
  stain := h.stain.imp_right fun ⟨h₁, h₂, h₃⟩ =>
    ⟨by rw [passOf_cons_foreign (he b), h₁], by rwa [left_cons_foreign (he b)], h₃⟩
  passOf_le j := by
    rw [passOf_cons_foreign (he j)]
    exact h.passOf_le j
  sampled j hj := by
    rw [passOf_cons_foreign (he j)]
    exact h.sampled j hj

/-- Nobody gets past the end of pass `N`: whoever samples there sees the error. -/
theorem Stained.blk (h : Stained prog τ s b N) (hpl : InPlace prog τ s)
    (hinv : Grid.Inv (τ.filterMap Ev.cross) s.grid) {j : Fin n} {a : Act} {c : Cells} {k : Block}
    (hs : BlockStep n prog j s.cells (s.block j) a c k) :
    Stained prog (.blk j a :: τ) (⟨c, Function.update s.block j k⟩ : Gpu n) b N := by
  have hfor : ∀ i, i ≠ j → (Ev.blk j a : Ev n).Foreign i := fun i hi heq => hi heq.symm
  have hstain : c.errDev ≠ 0 ∨
      Short prog (.blk j a :: τ) (⟨c, Function.update s.block j k⟩ : Gpu n) b N := by
    obtain herr | hshort := h.stain
    · exact Or.inl (hs.errDev_mono herr)
    · obtain rfl | hne := eq_or_ne b j
      · exact hshort.step hs
      · obtain ⟨h₁, h₂, h₃⟩ := hshort
        exact Or.inr ⟨by rw [passOf_cons_foreign (hfor b hne), h₁],
          by rwa [left_cons_foreign (hfor b hne)], by rwa [Gpu.block_other hne]⟩
  refine ⟨hstain, fun i => ?_, fun i hi => ?_⟩
  · obtain rfl | hne := eq_or_ne i j
    · have hle := h.passOf_le i
      have hsam := h.sampled i
      rw [passOf_cons_blk]
      cases hs with
      | publish hp | turn hp => exact hsam hp
      | _ => exact hle
    · rw [passOf_cons_foreign (hfor i hne)]
      exact h.passOf_le i
  · obtain rfl | hne := eq_or_ne i j
    · rw [Gpu.block_self] at hi
      rw [passOf_cons_blk]
      have hat := (hpl i).place
      have hsam := h.sampled i
      cases hs with
      | sample hp =>
        -- the cell was clear, so the block that erred has not come to this epilogue
        have hclear : s.cells.errDev = 0 := Pc.sampled.inj hi
        have hshort := h.stain.resolve_left fun hne => hne hclear
        rw [hp] at hat
        refine hshort.lt_of_left hinv (j := i) (le_of_eq ?_)
        rw [show left i τ = _ from hat, sub_one_mul_add (passOf_pos i τ)]
        rfl
      | poll hp | tick hp | spin hp | raise hp =>
        rw [hp] at hi
        cases hi
      | store hr => exact hsam hi
      | hear =>
        simp only at hi
        split at hi <;> cases hi
      | bad =>
        split at hi <;> cases hi
      | leave =>
        simp only [afterCross] at hi
        split at hi <;> cases hi
      | _ => cases hi
    · rw [Gpu.block_other hne] at hi
      rw [passOf_cons_foreign (hfor i hne)]
      exact h.sampled i hi

/-- An error stains the run from the moment it is made. -/
theorem stained_of_errs (hpl : InPlace prog τ s) {a : Act} (ha : a.errs = true)
    {c : Cells} {k : Block}
    (hs : BlockStep n prog b s.cells (s.block b) a c k)
    (hinv' : Grid.Inv ((Ev.blk b a :: τ).filterMap Ev.cross)
      (⟨c, Function.update s.block b k⟩ : Gpu n).grid)
    (hpl' : InPlace prog (.blk b a :: τ) (⟨c, Function.update s.block b k⟩ : Gpu n)) :
    Stained prog (.blk b a :: τ) (⟨c, Function.update s.block b k⟩ : Gpu n) b (passOf b τ) := by
  have hshort := short_of_errs hpl ha hs
  refine ⟨Or.inr hshort, fun j => ?_, fun j hj => ?_⟩
  · have hle := hshort.lt_of_left hinv' (hpl' j).place.le
    omega
  · have hat := (hpl' j).place
    rw [hj] at hat
    refine hshort.lt_of_left hinv' (j := j) (le_of_eq ?_)
    rw [show left j _ = _ from hat, sub_one_mul_add (passOf_pos j _)]

end Stain

/-- **Every error stains its pass**, whatever the host does. By `Stained.passOf_le` no block then
ever gets beyond that pass. -/
theorem Gpu.anyHost_stained (hn : n < 2 ^ 31) {τ : List (Ev n)} {s : Gpu n}
    (h : (Gpu.anyHost n prog).Run τ s) : ∀ b, ∀ N ∈ erredIn b τ, Stained prog τ s b N := by
  refine Lts.Run.inv (I := fun τ s => ∀ b, ∀ N ∈ erredIn b τ, Stained prog τ s b N) ?_ ?_ h
  · intro s _ b N hN
    cases hN
  · intro τ s e s' hr ih hs b N hN
    have hpl := anyHost_placed hr
    have hinv := anyHost_inv hn hr
    have hpl' := anyHost_placed (hr.snoc hs)
    have hinv' := anyHost_inv hn (hr.snoc hs)
    obtain ⟨j, a, c, k, rfl, hstep, rfl⟩ | ⟨-, hf, d, t, rfl⟩ := Gpu.anyHost_cases hs
    · by_cases hnew : j = b ∧ a.errs = true
      · obtain ⟨rfl, ha⟩ := hnew
        rw [erredIn_cons_self j ha] at hN
        obtain rfl | hold := List.mem_cons.mp hN
        · exact stained_of_errs hpl ha hstep hinv' hpl'
        · exact (ih j N hold).blk hpl hinv hstep
      · rw [erredIn_cons_of] at hN
        · exact (ih b N hN).blk hpl hinv hstep
        · intro a' heq
          cases heq
          exact Bool.eq_false_iff.mpr fun ha => hnew ⟨rfl, ha⟩
    · rw [erredIn_cons_of] at hN
      · exact (ih b N hN).hostWrite hf
      · rintro a rfl
        exact absurd rfl (hf b)

end Megakernel
