import Megakernel.Shutdown

/-!
# The error sample at the end of a pass

Every block loads the device error cell behind the epilogue boundary, and the
comments of `core/interp.cu` have it that all blocks load the same: a raise comes
before the raiser's arrival at the boundary. That holds of the raises of the pass
that ends. But a block that has sampled goes on, block 0 publishes `done`, the
host rings the next pass, and a raise in that pass sets the same cell while a
slow block has not sampled yet (`secondRaise`). The slow block then leaves at the
end of a pass that everybody else has completed, and the others wait for it in
the next boundary (`not_leave_together`).

`leave_together` is what holds: if every raise reaches the device cell only after
all blocks have sampled the pass before, all leave together.

`SEv.Timely` is a condition on the state in front of a store: nobody is still in an earlier pass
with the sample before it. It says nothing of who samples what afterwards, which is what has to be
proved.
-/

namespace Megakernel

variable {π : Type*} {n : ℕ} {prog : List (Instr π)}

/-! ## Callers that heed a failure -/

/-- The step returns something else than RUN_OK from `host_run_pass`. -/
def SEv.fails : SEv n → Bool
  | .host a => decide (a.returns = some .err ∨ a.returns = some .timeout)
  | _ => false

/-- `host_run_pass` is not called again after a call has failed, as in all its callers. The kernel
may have left then, and a further pass would be rung to nobody. -/
def Heeded : List (SEv n) → Prop
  | [] => True
  | .host (.call _) :: τ => Heeded τ ∧ ∀ e ∈ τ, e.fails = false
  | _ :: τ => Heeded τ

/-- Where the host stands when its callers heed failures: before it rings, the last rung pass is
done. -/
def HostPc.Legal (R B : ℕ) (failed : Prop) (c : Cells) : HostPc → Prop
  | .idle => failed ∨ B = R ∧ c.done.toNat = R ∧ c.doorbellHost.toNat = R
  | .check _ => B = R ∧ c.done.toNat = R ∧ c.doorbellHost.toNat = R
  | .copy _ | .bell => B = R + 1 ∧ c.done.toNat = R ∧ c.doorbellHost.toNat = R
  | .pollErr | .pollDone | .deadline => B = R ∧ c.doorbellHost.toNat = R
  | .halted => True

/-- The invariant of a host whose callers heed failures. -/
structure HostLegal (τ : List (SEv n)) (s : Single n) : Prop where
  pass : s.host.pass.toNat = (given τ).length
  place : s.host.pc.Legal (rings (events τ)) (given τ).length (∃ e ∈ τ, e.fails = true)
    s.gpu.cells

theorem Heeded.of_cons {e : SEv n} {τ : List (SEv n)} (h : Heeded (e :: τ)) : Heeded τ := by
  cases e with
  | dev => exact h
  | host a =>
    cases a with
    | call t => exact h.1
    | _ => exact h

/-- Where no call has failed there is nothing to heed. -/
theorem Heeded.of_forall : ∀ {τ : List (SEv n)}, (∀ e ∈ τ, e.fails = false) → Heeded τ
  | [], _ => trivial
  | e :: τ, h => by
    have hτ : ∀ e' ∈ τ, e'.fails = false := fun e' he' => h e' (List.mem_cons_of_mem e he')
    have ih : Heeded τ := Heeded.of_forall hτ
    cases e with
    | dev => exact ih
    | host a =>
      cases a with
      | call t => exact ⟨ih, hτ⟩
      | _ => exact ih

/-- The place of the host depends on the doorbell and, while nothing is in flight, on `done`. -/
theorem HostPc.Legal.mono {R B : ℕ} {f f' : Prop} {c c' : Cells} {pc : HostPc}
    (h : pc.Legal R B f c) (hf : f → f') (hdoor : c'.doorbellHost = c.doorbellHost)
    (hdone : c.done.toNat = R → c'.done = c.done) : pc.Legal R B f' c' := by
  cases pc with
  | idle =>
    refine h.imp hf fun ⟨h₁, h₂, h₃⟩ => ⟨h₁, ?_, ?_⟩
    · rw [hdone h₂, h₂]
    · rw [hdoor, h₃]
  | check | copy | bell =>
    obtain ⟨h₁, h₂, h₃⟩ := h
    refine ⟨h₁, ?_, ?_⟩
    · rw [hdone h₂, h₂]
    · rw [hdoor, h₃]
  | pollErr | pollDone | deadline =>
    obtain ⟨h₁, h₂⟩ := h
    exact ⟨h₁, by rw [hdoor, h₂]⟩
  | halted => trivial

section Legal

variable {τ : List (SEv n)} {s : Single n}

/-- A host step that neither rings nor begins a pass. -/
theorem HostLegal.think (h : HostLegal τ s) {a : HostAct} {c : Cells} {k : Host}
    (hring : a ≠ .ring) (hgiven : given (.host a :: τ) = given τ) (hpass : k.pass = s.host.pass)
    (hplace : k.pc.Legal (rings (events τ)) (given τ).length
      (∃ e ∈ (.host a :: τ : List (SEv n)), e.fails = true) c) :
    HostLegal (.host a :: τ) ⟨⟨c, s.gpu.block⟩, k⟩ := by
  have hR : rings (events (.host a :: τ)) = rings (events τ) := by
    cases a <;> first | exact absurd rfl hring | rfl
  refine ⟨?_, ?_⟩
  · rw [hgiven]
    exact (congrArg BitVec.toNat hpass).trans h.pass
  · rw [hR, hgiven]
    exact hplace

/-- A failure stays on record. -/
theorem fails_cons {e : SEv n} (h : ∃ e' ∈ τ, e'.fails = true) :
    ∃ e' ∈ e :: τ, e'.fails = true := by
  obtain ⟨e', hmem, hf⟩ := h
  exact ⟨e', List.mem_cons_of_mem _ hmem, hf⟩

/-- Host steps keep the host's invariant. -/
theorem HostLegal.host (h : HostLegal τ s) (hl : Lock prog (events τ) s.gpu) {a : HostAct}
    (hheed : Heeded (.host a :: τ)) {c : Cells} {k : Host}
    (hs : HostStep s.gpu.cells s.host a c k) :
    HostLegal (.host a :: τ) ⟨⟨c, s.gpu.block⟩, k⟩ := by
  have hplace := h.place
  cases hs with
  | call hp =>
    rw [hp] at hplace
    refine h.think (by simp) rfl rfl (hplace.resolve_left ?_)
    rintro ⟨e, hmem, hf⟩
    rw [hheed.2 e hmem] at hf
    cases hf
  | refuse hp | copyFail hp | sawErr hp | timeout hp =>
    exact h.think (by simp) rfl rfl (Or.inl ⟨_, List.mem_cons_self, rfl⟩)
  | @begin t hp =>
    rw [hp] at hplace
    obtain ⟨h₁, h₂, h₃⟩ := hplace
    have hlen : (given (.host (.begin t) :: τ)).length = (given τ).length + 1 := rfl
    have hlt := hl.done_lt
    refine ⟨?_, ?_⟩
    · rw [hlen, ← h.pass]
      refine Wrap.toNat_add_one ?_
      rw [h.pass]
      omega
    · rw [hlen]
      exact ⟨congrArg (· + 1) h₁, h₂, h₃⟩
  | copy hp =>
    rw [hp] at hplace
    exact h.think (by simp) rfl rfl hplace
  | ring hp =>
    rw [hp] at hplace
    have hR : rings (events (.host .ring :: τ)) = rings (events τ) + 1 := by
      simp [events, SEv.gpu, rings]
    have hgiven : (given (.host .ring :: τ)).length = (given τ).length := rfl
    refine ⟨h.pass, ?_⟩
    rw [hR]
    exact ⟨hgiven.trans hplace.1, h.pass.trans hplace.1⟩
  | noErr hp | notDone hp =>
    rw [hp] at hplace
    exact h.think (by simp) rfl rfl hplace
  | again hp =>
    rw [hp] at hplace
    exact h.think (by simp) rfl rfl hplace
  | sawDone hp hd =>
    rw [hp] at hplace
    refine h.think (by simp) rfl rfl (Or.inr ⟨hplace.1, ?_, hplace.2⟩)
    rw [hd, h.pass]
    exact hplace.1
  | shutdown hp => exact h.think (by simp) rfl rfl trivial

/-- Block steps do not move the host. -/
theorem HostLegal.dev (h : HostLegal τ s) (hl : Lock prog (events τ) s.gpu) {b : Fin n} {a : Act}
    {c : Cells} {k : Block} (hs : BlockStep n prog b s.gpu.cells (s.gpu.block b) a c k) :
    HostLegal (.dev b a :: τ) { s with gpu := ⟨c, Function.update s.gpu.block b k⟩ } where
  pass := h.pass
  place := by
    have hR : rings (events (.dev b a :: τ)) = rings (events τ) := rings_cons_blk b a (events τ)
    rw [hR]
    exact h.place.mono fails_cons hs.host_cells.1 fun hq => hl.done_eq_of_quiet hq hs

/-- **A host whose callers heed failures rings only when the last rung pass is done.** -/
theorem HostLegal.gpu_step (prog : List (Instr π)) (h : HostLegal τ s) {a : HostAct} {c : Cells}
    {k : Host} (hs : HostStep s.gpu.cells s.host a c k) :
    match (SEv.host a : SEv n).gpu with
    | some e => s.gpu.step prog e = some ⟨c, s.gpu.block⟩
    | none => c = s.gpu.cells := by
  have hplace := h.place
  cases hs with
  | copy hp =>
    rw [hp] at hplace
    exact Gpu.step_token.mpr ⟨quiet_of_toNat hplace.2.1 hplace.2.2, rfl⟩
  | ring hp =>
    rw [hp] at hplace
    obtain ⟨h₁, h₂, h₃⟩ := hplace
    refine Gpu.step_ring.mpr ⟨quiet_of_toNat h₂ h₃, ?_⟩
    have hlt := s.host.pass.isLt
    have hpass := h.pass
    have hadd : (s.gpu.cells.doorbellHost + 1).toNat = s.gpu.cells.doorbellHost.toNat + 1 :=
      Wrap.toNat_add_one (by omega)
    rw [show s.host.pass = s.gpu.cells.doorbellHost + 1 from
      BitVec.eq_of_toNat_eq (by rw [hadd, h₃, hpass, h₁])]
  | shutdown => exact Gpu.step_halt.mpr rfl
  | _ => rfl

end Legal

/-! ## Raises that come in time -/

/-- A raise reaches the device error cell only when every block that is still in an earlier pass has
sampled the cell. -/
def Ev.Timely (s : Gpu n) : Ev n → Prop
  | .blk b (.store j) => ∀ r, (s.block b).raising[j]? = some r → r.stage = .dev →
      ∀ k, (s.block k).pass.toNat < (s.block b).pass.toNat → ∃ e, (s.block k).pc = .sampled e
  | _ => True

/-- The same for a step of a GPU or its host. -/
def SEv.Timely (s : Single n) (e : SEv n) : Prop := ∀ e', e.gpu = some e' → e'.Timely s.gpu

instance (pc : Pc) : Decidable (∃ e, pc = .sampled e) :=
  match pc with
  | .sampled e => isTrue ⟨e, rfl⟩
  | .poll | .forward _ | .bell _ | .fetch _ | .op _ | .arrive _ | .spin _ | .sample | .exit
  | .ret => isFalse fun ⟨_, h⟩ => nomatch h

/-- The raise whose next store the event is. -/
def Ev.storeAt : Ev n → Option (Fin n × ℕ)
  | .blk b (.store j) => some (b, j)
  | _ => none

theorem Ev.timely_iff {s : Gpu n} {e : Ev n} :
    (∀ x ∈ e.storeAt, ∀ r ∈ (s.block x.1).raising[x.2]?, r.stage = .dev →
      ∀ k, (s.block k).pass.toNat < (s.block x.1).pass.toNat →
        ∃ v, (s.block k).pc = .sampled v) ↔ e.Timely s := by
  cases e with
  | blk b a =>
    cases a with
    | store j => simp [Ev.storeAt, Ev.Timely]
    | _ => simp [Ev.storeAt, Ev.Timely]
  | _ => simp [Ev.storeAt, Ev.Timely]

instance (s : Gpu n) (e : Ev n) : Decidable (e.Timely s) :=
  decidable_of_iff _ Ev.timely_iff

instance (s : Single n) (e : SEv n) : Decidable (e.Timely s) :=
  inferInstanceAs (Decidable (∀ e' ∈ e.gpu, e'.Timely s.gpu))

/-- Who raises is inside an op or at a bad kind. -/
def Raising (s : Gpu n) : Prop :=
  ∀ b, (s.block b).raising ≠ [] → (∃ i, (s.block b).pc = .op i) ∨ (s.block b).pc = .exit

/-- Once the error cell is set, everybody leaves at the end of the same pass `q`: whoever is not in
it yet has sampled a clear cell, and nobody in it has. It begins to hold with the first store to the
cell. -/
def Uniform (τ : List (Ev n)) (s : Gpu n) : Prop :=
  s.cells.errDev ≠ 0 → ∃ q, ∀ j, (passOf j τ = q ∧ (s.block j).pc ≠ .sampled 0) ∨
    (passOf j τ + 1 = q ∧ (s.block j).pc = .sampled 0)

section Timely

variable {τ : List (Ev n)} {s : Gpu n} {b : Fin n}

/-- A block step keeps the places where raises are in progress. -/
theorem Raising.blk (ih : Raising s) {a : Act} {c : Cells} {k : Block}
    (hs : BlockStep n prog b s.cells (s.block b) a c k) :
    Raising (⟨c, Function.update s.block b k⟩ : Gpu n) := by
  intro j hj
  obtain rfl | hne := eq_or_ne j b
  · rw [Gpu.block_self] at hj ⊢
    have hold := ih j
    cases hs with
    | poll | tick => exact hold hj
    | spin => exact hold hj
    | raise hp => exact Or.inl ⟨_, hp⟩
    | store hr =>
      refine hold ?_
      intro hnil
      rw [hnil] at hr
      cases hr
    | bad =>
      split at hj
      next h0 =>
        rw [if_pos h0]
        exact Or.inr rfl
      next h0 =>
        obtain ⟨i, hi⟩ | hi := hold hj <;> simp_all
    | begin => exact Or.inl ⟨_, rfl⟩
    | finish _ hq | gone _ hq => exact absurd hq hj
    | hear hp | forward hp | start hp | stop hp | cross hp | skip hp | arrive hp | leave hp
    | sample hp | publish hp | turn hp | quit hp =>
      obtain ⟨i, hi⟩ | hi := hold hj <;> rw [hp] at hi <;> cases hi
  · rw [Gpu.block_other hne] at hj ⊢
    exact ih j hj

/-- A block with a raise in progress has not come to the epilogue of its pass. -/
theorem Reached.left_lt_of_raising (h : Reached prog τ s) (hx : Exits prog τ s) (hraise : Raising s)
    (hb : (s.block b).raising ≠ []) :
    (s.block b).pc.phase ≠ .spinning ∧ left b τ < passOf b τ * stride prog := by
  have hat := h.place b
  have hpos := passOf_pos b τ
  obtain ⟨i, hi⟩ | hi := hraise b hb
  · rw [hi] at hat ⊢
    refine ⟨nofun, ?_⟩
    rw [show left b τ = _ from hat]
    exact place_lt prog i hpos
  · obtain ⟨i, hbad⟩ := hx.exit b hi
    rw [hi]
    refine ⟨nofun, ?_⟩
    rw [hbad.left_eq]
    exact place_lt prog i hpos

/-- **The first store to the error cell decides for everybody.** When it comes in time, all blocks
have sampled the pass before, and none of them can have come to the end of this one. -/
theorem uniform_of_store (h : Reached prog τ s) (hx : Exits prog τ s) (hraise : Raising s)
    (hclear : s.cells.errDev = 0) (hb : (s.block b).raising ≠ [])
    (htimely : ∀ k, (s.block k).pass.toNat < (s.block b).pass.toNat →
      ∃ e, (s.block k).pc = .sampled e) (j : Fin n) :
    (passOf j τ = passOf b τ ∧ (s.block j).pc ≠ .sampled 0) ∨
      (passOf j τ + 1 = passOf b τ ∧ (s.block j).pc = .sampled 0) := by
  obtain ⟨hout, hlt⟩ := h.left_lt_of_raising hx hraise hb
  have hsound : left j τ ≤ arrived b τ := h.inv.sound j b
  rw [arrived_eq_left h.inv hout] at hsound
  have hle : passOf j τ ≤ passOf b τ := by
    have := Nat.lt_of_mul_lt_mul_right ((h.place j).le.trans_lt (hsound.trans_lt hlt))
    omega
  have hatj := h.place j
  obtain hlt' | heq := lt_or_eq_of_le hle
  · -- `j` is in an earlier pass, and has sampled a clear cell
    obtain ⟨e, he⟩ := htimely j (by rw [(h.log j).pass, (h.log b).pass]; exact hlt')
    have he0 : e = 0 := by
      by_contra hne
      exact hx.sampled j e he hne hclear
    subst he0
    refine Or.inr ⟨?_, he⟩
    rw [he] at hatj
    have hL : left j τ = (passOf j τ - 1) * stride prog + stride prog := hatj
    rw [sub_one_mul_add (passOf_pos j τ)] at hL
    have hback := h.passOf_le (j := b) (b := j) (by rw [he]; nofun) hL.le
    omega
  · refine Or.inl ⟨heq, fun he => ?_⟩
    rw [he] at hatj
    have hL : left j τ = (passOf j τ - 1) * stride prog + stride prog := hatj
    rw [sub_one_mul_add (passOf_pos j τ), heq] at hL
    omega

/-- A block step in time keeps the uniformity. -/
theorem Uniform.blk (ih : Uniform τ s) (h : Reached prog τ s) (hx : Exits prog τ s)
    (hraise : Raising s) {a : Act} (ht : (Ev.blk b a : Ev n).Timely s) {c : Cells} {k : Block}
    (hs : BlockStep n prog b s.cells (s.block b) a c k) :
    Uniform (.blk b a :: τ) (⟨c, Function.update s.block b k⟩ : Gpu n) := by
  intro herr
  have hfor : ∀ i, i ≠ b → (Ev.blk b a : Ev n).Foreign i := fun i hi heq => hi heq.symm
  by_cases hold : s.cells.errDev = 0
  · -- the step sets the cell
    cases hs with
    | @store j r hr =>
      have hstage : r.stage = .dev := by
        rcases hst : r.stage with _ | _ | _
        · rw [Raise.write, hst] at herr
          exact absurd hold herr
        · rw [Raise.write, hst] at herr
          exact absurd hold herr
        · rfl
      have hne : (s.block b).raising ≠ [] := by
        intro hnil
        rw [hnil] at hr
        cases hr
      refine ⟨passOf b τ, fun i => ?_⟩
      have hi := uniform_of_store h hx hraise hold hne (ht r hr hstage) i
      obtain rfl | hib := eq_or_ne i b
      · rw [Gpu.block_self, passOf_cons_blk]
        exact hi
      · rw [Gpu.block_other hib, passOf_cons_foreign (hfor i hib)]
        exact hi
    | _ => exact absurd hold herr
  · obtain ⟨q, hq⟩ := ih hold
    refine ⟨q, fun i => ?_⟩
    obtain rfl | hib := eq_or_ne i b
    · rw [Gpu.block_self, passOf_cons_blk]
      have hi := hq i
      cases hs with
      | publish hp | turn hp =>
        obtain ⟨-, hne⟩ | ⟨heq, -⟩ := hi
        · exact absurd hp hne
        · exact Or.inl ⟨heq, by simp⟩
      | sample hp =>
        obtain ⟨heq, -⟩ | ⟨-, hpc⟩ := hi
        · exact Or.inl ⟨heq, fun hpc => hold (Pc.sampled.inj hpc)⟩
        · rw [hp] at hpc
          cases hpc
      | quit hp hne =>
        obtain ⟨heq, -⟩ | ⟨-, hpc⟩ := hi
        · exact Or.inl ⟨heq, by simp⟩
        · rw [hp] at hpc
          exact absurd (Pc.sampled.inj hpc) hne
      | poll | tick | raise | store => exact hi
      | spin => exact hi
      | hear hp | leave hp | bad hp =>
        obtain ⟨heq, -⟩ | ⟨-, hpc⟩ := hi
        · refine Or.inl ⟨heq, ?_⟩
          first | simp only [afterCross] | skip
          split <;> simp
        · rw [hp] at hpc
          cases hpc
      | forward hp | start hp | stop hp | cross hp | begin hp | skip hp | finish hp | arrive hp
      | gone hp =>
        obtain ⟨heq, -⟩ | ⟨-, hpc⟩ := hi
        · exact Or.inl ⟨heq, by simp⟩
        · rw [hp] at hpc
          cases hpc
    · rw [Gpu.block_other hib, passOf_cons_foreign (hfor i hib)]
      exact hq i

end Timely

/-- **When every raise comes in time, everybody samples the same.** -/
theorem run_uniform (hn : n < 2 ^ 31) {τ : List (Ev n)} {s : Gpu n}
    (h : ((Gpu.lts n prog).restrict fun s e => e.Timely s).Run τ s) : Raising s ∧ Uniform τ s := by
  refine Lts.Run.inv (I := fun τ s => Raising s ∧ Uniform τ s) ?_ ?_ h
  · rintro s rfl
    exact ⟨fun b hb => absurd rfl hb, fun herr => absurd rfl herr⟩
  · rintro τ s e s' hr ⟨hraise, huni⟩ ⟨hs, ht⟩
    have hrun : (Gpu.lts n prog).Run τ s := hr.of_restrict
    obtain ⟨b, a, c, k, rfl, hstep, rfl⟩ | ⟨hf, d, t, rfl⟩ := Gpu.step_cases hs
    · exact ⟨hraise.blk hstep, huni.blk (run_reached hn hrun) (run_exits hn hrun) hraise ht hstep⟩
    · refine ⟨hraise, fun herr => ?_⟩
      obtain ⟨q, hq⟩ := huni herr
      refine ⟨q, fun j => ?_⟩
      rw [passOf_cons_foreign (hf j)]
      exact hq j

/-! ## Leaving together -/

/-- What the error protocol is to achieve: all blocks leave at the end of the same pass or none
does. -/
structure Together (prog : List (Instr π)) (τ : List (Ev n)) (s : Gpu n) : Prop where
  /-- once a block has left with an error, everybody is in the same pass or about to begin it,
  nobody gets beyond it, and whoever leaves leaves at its end -/
  same : ∀ b e, .blk b (.quit e) ∈ τ → ∀ j,
    (passOf j τ = passOf b τ ∧ (s.block j).pc ≠ .sampled 0 ∨
      passOf j τ + 1 = passOf b τ ∧ (s.block j).pc = .sampled 0) ∧
    ∀ e', .blk j (.quit e') ∈ τ → passOf j τ = passOf b τ
  /-- nobody waits in a boundary that a block which has returned will never reach -/
  hang : NoHang τ s
  /-- and when nobody can move any more, all have left at the end of that pass -/
  all : ∀ b e, .blk b (.quit e) ∈ τ → s.Stuck prog →
    ∀ j, (s.block j).pc = .ret ∧ passOf j τ = passOf b τ ∧ left j τ = passOf j τ * stride prog

/-- Raises in time let everybody leave together. -/
theorem together_of_timely (hn : n < 2 ^ 31) {τ : List (Ev n)} {s : Gpu n}
    (h : ((Gpu.lts n prog).restrict fun s e => e.Timely s).Run τ s) : Together prog τ s := by
  have hrun : (Gpu.lts n prog).Run τ s := h.of_restrict
  have hr := run_reached hn hrun
  have hx := run_exits hn hrun
  obtain ⟨-, huni⟩ := run_uniform hn h
  have hq : ∀ b, (s.block b).pc = .ret → s.cells.errDev ≠ 0 → ∀ j,
      (passOf j τ = passOf b τ ∧ (s.block j).pc ≠ .sampled 0) ∨
        (passOf j τ + 1 = passOf b τ ∧ (s.block j).pc = .sampled 0) := by
    intro b hb herr j
    obtain ⟨q, hq⟩ := huni herr
    obtain ⟨heq, -⟩ | ⟨-, hpc⟩ := hq b
    · rw [heq]
      exact hq j
    · rw [hb] at hpc
      cases hpc
  have hnh : NoHang τ s := by
    refine noHang_of_error hn hrun fun b hb hby j => ?_
    have hj := hq b hb hby.err j
    omega
  refine ⟨fun b e hmem j => ?_, hnh, fun b e hmem hst => ?_⟩
  · obtain ⟨hb, hby⟩ := hx.quit b e hmem
    have hj := hq b hb hby.err j
    refine ⟨hj, fun e' hmem' => ?_⟩
    obtain ⟨hj', -⟩ := hx.quit j e' hmem'
    obtain ⟨heq, -⟩ | ⟨-, hpc⟩ := hj
    · exact heq
    · rw [hj'] at hpc
      cases hpc
  · obtain ⟨hb, hby⟩ := hx.quit b e hmem
    have hj := hq b hb hby.err
    have hall : ∀ j, (s.block j).pc = .ret := by
      by_contra hex
      obtain ⟨j, hjr⟩ := not_forall.mp hex
      obtain ⟨k, -, hw, -⟩ := exists_pollWaits hn hr hnh hst hjr
      have hpass : passOf k τ = passOf b τ := by
        obtain ⟨heq, -⟩ | ⟨-, hpc⟩ := hj k
        · exact heq
        · rw [hw.1] at hpc
          cases hpc
      by_cases hk : k.val = 0
      · exact hr.not_pollWaits_zero hk (Or.inr (hpass.trans_le hby.rung)) hw
      · obtain ⟨hne, hlt⟩ := hr.lt_of_pollWaits hk hw
        have hle := hby.dev.resolve_left hne
        omega
    intro j
    have hpass : passOf j τ = passOf b τ := by
      obtain ⟨heq, -⟩ | ⟨-, hpc⟩ := hj j
      · exact heq
      · rw [hall j] at hpc
        cases hpc
    have hsound : left b τ ≤ arrived j τ := hr.inv.sound b j
    rw [arrived_eq_left hr.inv (by rw [hall j]; nofun), hby.left_eq, ← hpass] at hsound
    refine ⟨hall j, hpass, ?_⟩
    obtain hjy | ⟨i, hjy⟩ | hjy := hx.ret j (hall j)
    · rw [hjy.left_eq, ← sub_one_mul_add (passOf_pos j τ)] at hsound
      have hpos : 0 < stride prog := Nat.succ_pos _
      omega
    · have hlt := place_lt prog i (passOf_pos j τ)
      rw [hjy.left_eq] at hsound
      omega
    · exact hjy.left_eq

/-- **A host whose callers heed failures drives the GPU as `Gpu.lts` allows**, and what holds of
every step of the two holds of every step of the GPU. -/
theorem Single.run_gpu (hn : n < 2 ^ 31) (C : Gpu n → Ev n → Prop) {τ : List (SEv n)}
    {s : Single n}
    (h : ((lts n prog).restrict fun s e => ∀ e', e.gpu = some e' → C s.gpu e').Run τ s)
    (hheed : Heeded τ) : ((Gpu.lts n prog).restrict C).Run (events τ) s.gpu ∧ HostLegal τ s := by
  revert hheed
  refine Lts.Run.inv (I := fun τ s => Heeded τ →
    ((Gpu.lts n prog).restrict C).Run (events τ) s.gpu ∧ HostLegal τ s) ?_ ?_ h
  · rintro s rfl -
    exact ⟨.start rfl, rfl, Or.inr ⟨rfl, rfl, rfl⟩⟩
  · rintro τ s e s' - ih ⟨hs, ht⟩ hheed
    obtain ⟨hrun, hlegal⟩ := ih hheed.of_cons
    have hlock := run_lock hn hrun.of_restrict
    cases e with
    | dev b a =>
      obtain ⟨g, hg, rfl⟩ := step_dev.mp hs
      have hrun' : ((Gpu.lts n prog).restrict C).Run (events (.dev b a :: τ)) g :=
        hrun.snoc ⟨hg, ht _ rfl⟩
      obtain ⟨c, k, hstep, rfl⟩ := Gpu.step_blk.mp hg
      exact ⟨hrun', hlegal.dev hlock hstep⟩
    | host a =>
      obtain ⟨c, k, hstep, rfl⟩ := step_host.mp hs
      have hgpu := hlegal.gpu_step prog hstep
      refine ⟨?_, hlegal.host hlock hheed hstep⟩
      rcases hx : (SEv.host a : SEv n).gpu with _ | e
      · rw [hx] at hgpu
        rw [events, List.filterMap_cons_none hx, hgpu]
        exact hrun
      · rw [hx] at hgpu
        rw [events, List.filterMap_cons_some hx]
        exact hrun.snoc ⟨hgpu, ht e hx⟩

/-- The same for all runs. -/
theorem Single.run_heeded (hn : n < 2 ^ 31) {τ : List (SEv n)} {s : Single n}
    (h : (lts n prog).Run τ s) (hheed : Heeded τ) : (Gpu.lts n prog).Run (events τ) s.gpu := by
  refine (Single.run_gpu hn (fun _ _ => True) (h.mono ?_ ?_) hheed).1.of_restrict
  · exact fun _ => id
  · exact fun _ _ _ hs => ⟨hs, fun _ _ => trivial⟩

/-- **When raises come in time, all blocks leave together.** In every run of a GPU and its host in
which every raise reaches the device error cell only after all blocks have sampled the pass before
the raiser's, all blocks leave the kernel at the end of the same pass or none does, and nobody waits
in a boundary that a block which has returned will never reach. -/
theorem leave_together (hn : n < 2 ^ 31) {τ : List (SEv n)} {s : Single n}
    (h : ((Single.lts n prog).restrict fun s e => e.Timely s).Run τ s) (hheed : Heeded τ) :
    Together prog (events τ) s.gpu :=
  together_of_timely hn (Single.run_gpu hn (fun s e => e.Timely s) h hheed).1

/-- One op, run by block 0. -/
def oneOp : List (Instr Unit) := [⟨MacroKind.rmsnorm.code, 0, 1, ()⟩]

/-- Two blocks go through the first pass, but block 1 has not sampled the error cell yet. -/
def firstPass : List (SEv 2) :=
  ([.publish, .sample, .leave 1].map (.dev 0)) ++
  ([.leave 1, .arrive 1, .cross 1, .skip 0, .start 1, .hear 1].map (.dev 1)) ++
  ([.arrive 1, .cross 1, .finish 0, .begin 0, .start 1, .forward 1, .hear 1].map (.dev 0)) ++
  [.host .ring, .host (.copy 7), .host (.begin 7), .host (.call 7)]

/-- The host sees no error and `done`, and rings the second pass, in which the op raises. -/
def secondRaise : List (SEv 2) :=
  ([.store 0, .store 0, .store 0, .raise 0 .logitsFlagMultiblock 9, .begin 0, .start 2, .forward 2,
    .hear 2].map (.dev 0)) ++
  [.host .ring, .host (.copy 8), .host (.begin 8), .host (.call 8), .host .sawDone, .host .noErr] ++
  firstPass

/-- The same after block 1 has sampled the error cell of the first pass: both leave at the end of
the second. -/
def timelyRaise : List (SEv 2) :=
  secondRaise.take 14 ++ .dev 1 .sample :: firstPass

theorem leave_together_timelyRaise :
    ∃ s, ((Single.lts 2 oneOp).restrict fun s e => e.Timely s).Run timelyRaise s ∧
      Together oneOp (events timelyRaise) s.gpu := by
  obtain ⟨s, hr⟩ := Lts.exists_run_restrict (Single.step oneOp) (Single.zero 2)
    (fun s e => e.Timely s) timelyRaise (by decide)
  exact ⟨s, hr, leave_together (by decide) hr (Heeded.of_forall (by decide))⟩

/-- Block 1 samples the error of the second pass at the end of the first, and block 0 comes to the
epilogue of the second. -/
def orphaned : List (SEv 2) :=
  ([.arrive 1, .cross 1, .finish 0].map (.dev 0)) ++
    ([.quit 3, .sample].map (.dev 1)) ++ secondRaise

/-- **The sample is not uniform**: block 1 leaves at the end of the first pass, and block 0 waits
for it in the epilogue of the second, although no call has failed. -/
theorem not_leave_together :
    ∃ s, (Single.lts 2 oneOp).Run orphaned s ∧ Heeded orphaned ∧
      (s.gpu.block 1).pc = .ret ∧ passOf 1 (events orphaned) = 1 ∧
      (s.gpu.block 0).pc = .spin 1 ∧ passOf 0 (events orphaned) = 2 ∧
      ¬ Together oneOp (events orphaned) s.gpu := by
  obtain ⟨s, -, hr⟩ := Lts.exists_run_of_isSome (Single.step oneOp) (Single.zero 2) orphaned
    (by decide)
  have hheed : Heeded orphaned := Heeded.of_forall (by decide)
  have hgpu : (Gpu.lts 2 oneOp).Run (events orphaned) s.gpu :=
    Single.run_heeded (by decide) hr hheed
  have hx := run_exits (by decide) hgpu
  have hquit : .blk 1 (.quit 3) ∈ events orphaned :=
    List.mem_filterMap.mpr ⟨.dev 1 (.quit 3), by simp [orphaned], rfl⟩
  obtain ⟨h1, -⟩ := hx.quit 1 3 hquit
  have h0 : (s.gpu.block 0).pc = .spin 1 := by
    obtain ⟨s', -, hlast⟩ := hr.of_cons
    obtain ⟨g, hg, rfl⟩ := Single.step_dev.mp hlast
    obtain ⟨c, k, hstep, rfl⟩ := Gpu.step_blk.mp hg
    rw [Gpu.block_self]
    cases hstep with
    | arrive => rfl
  refine ⟨s, hr, hheed, h1, by decide, h0, by decide, fun ht => ?_⟩
  have hle := ht.hang 1 h1 0
  have hlt : arrived 1 (events orphaned) < arrived 0 (events orphaned) := by decide
  omega

end Megakernel
