import Megakernel.Pair
import Megakernel.Host

/-!
# An errored pass is never reported as completed

`host_run_pass` and `dual_run_pass` report success when the done cell holds the
number of their pass. An error of pass `N` keeps block 0 from the store of
`done = N` and of anything later (`Gpu.anyHost_stained`), so what remains is that
the numbers of the two sides mean the same passes: the host is never behind
block 0, and as long as it has begun fewer than `2 ^ 32 - 1` passes no counter
wraps (`Counted`).

Nothing is assumed of the host beyond its code: copies may fail, calls may time
out, and a host that has given up on a pass may ring the next one while the pass
is in flight.

The two halves of the argument are independent of each other: that an errored pass is not published
is about one GPU under any host, and that the host counts as block 0 does is about counters. They
meet in `Counted.done_lt`.
-/

namespace Megakernel

variable {π : Type*} {n : ℕ}

/-- What block 0 in pass `p` and its cells say of the numbers, when the host has begun `G` passes.
The cells hold the numbers mod `2 ^ 32`; as long as `G` stays below the halt value they are the
numbers themselves. -/
structure Counted (G p : ℕ) (c : Cells) (k : Block) : Prop where
  /-- the block's own counter does not wrap -/
  pass : k.pass.toNat = p
  le : p ≤ G + 1
  /-- the bell is a pass that was begun, and block 0 is at most one pass ahead of it -/
  door : c.doorbellHost ≠ doorbellHalt → c.doorbellHost.toNat ≤ G ∧ p ≤ c.doorbellHost.toNat + 1
  /-- block 0 acts on a bell that has reached its pass -/
  busy : (k.pc.Live ∨ ∃ v, v ≠ doorbellHalt ∧ (k.pc = .forward v ∨ k.pc = .bell v)) →
    p ≤ G ∧ (c.doorbellHost ≠ doorbellHalt → p ≤ c.doorbellHost.toNat)
  /-- `done` is the pass before -/
  done : c.done.toNat + 1 = p

section Counted

variable {prog : List (Instr π)} {G p : ℕ} {c c' : Cells} {k k' : Block}

/-- A step within the pass that hears no bell. -/
theorem Counted.move (h : Counted G p c k) (hpass : k'.pass = k.pass)
    (hdoor : c'.doorbellHost = c.doorbellHost) (hdone : c'.done = c.done)
    (hbusy : (k'.pc.Live ∨ ∃ v, v ≠ doorbellHalt ∧ (k'.pc = .forward v ∨ k'.pc = .bell v)) →
      k.pc.Live ∨ ∃ v, v ≠ doorbellHalt ∧ (k.pc = .forward v ∨ k.pc = .bell v)) :
    Counted G p c' k' where
  pass := by rw [hpass, h.pass]
  le := h.le
  door := by
    rw [hdoor]
    exact h.door
  busy hb := by
    rw [hdoor]
    exact h.busy (hbusy hb)
  done := by
    rw [hdone]
    exact h.done

/-- What block 0 knows after a step of its own. -/
theorem Counted.step (h : Counted G p c k) (hG : G < 2 ^ 32 - 1) {a : Act}
    (hs : BlockStep n prog 0 c k a c' k') : Counted G (p + a.turns) c' k' := by
  cases hs with
  | poll | tick => exact h
  | spin => exact h
  | raise => exact h.move rfl rfl rfl id
  | store hr =>
    exact h.move rfl (Raise.write_doorbellHost _ _) (Raise.write_done _ _) id
  | @hear v hp hv ht =>
    have hv' : c.doorbellHost = v := hv
    refine ⟨h.pass, h.le, h.door, ?_, h.done⟩
    rintro (hl | ⟨u, hu, hpc | hpc⟩)
    · exact hl.elim
    · -- the accepted value has reached the pass, and the host has begun it
      obtain rfl : v = u := Pc.forward.inj hpc
      rw [← hv'] at ht hu
      obtain ⟨hle, hnear⟩ := h.door hu
      have hpass := h.pass
      have hlt := h.le
      have hreach : k.pass.toNat ≤ c.doorbellHost.toNat := by
        by_contra hfar
        exact hfar (le_of_keepPolling ht hu (by omega) (by omega))
      simp only [Act.turns]
      omega
    · cases hpc
  | forward hp =>
    refine h.move rfl rfl rfl ?_
    rintro (hl | ⟨u, hu, hpc | hpc⟩)
    · exact hl.elim
    · cases hpc
    · refine Or.inr ⟨u, hu, Or.inl ?_⟩
      rw [hp, Pc.bell.inj hpc]
  | @start v hp hne =>
    exact h.move rfl rfl rfl fun _ => Or.inr ⟨v, hne, Or.inr hp⟩
  | publish hp =>
    obtain ⟨hle, hdoor⟩ := h.busy (Or.inl (by rw [hp]; trivial))
    have hadd : (k.pass + 1).toNat = p + 1 := by
      rw [Wrap.toNat_add_one, h.pass]
      rw [h.pass]
      omega
    refine ⟨hadd, Nat.succ_le_succ hle, fun hd => ⟨(h.door hd).1, Nat.succ_le_succ (hdoor hd)⟩,
      ?_, ?_⟩
    · rintro (hl | ⟨u, hu, hpc | hpc⟩)
      · exact hl.elim
      · cases hpc
      · cases hpc
    · exact congrArg (· + 1) h.pass
  | turn _ h0 => exact absurd rfl h0
  | stop | quit | gone =>
    refine h.move rfl rfl rfl ?_
    rintro (hl | ⟨u, hu, hpc | hpc⟩)
    · exact hl.elim
    · cases hpc
    · cases hpc
  | bad hp =>
    refine h.move rfl rfl rfl fun _ => Or.inl ?_
    rw [hp]
    trivial
  | cross hp | begin hp | skip hp | finish hp | arrive hp | leave hp | sample hp =>
    refine h.move rfl rfl rfl fun _ => Or.inl ?_
    rw [hp]
    trivial

/-- Other blocks touch neither the host's cells nor `done`. -/
theorem Counted.other (h : Counted G p c k) {b : ℕ} (hb : b ≠ 0) {a : Act} {j j' : Block}
    (hs : BlockStep n prog b c j a c' j') : Counted G p c' k := by
  refine h.move rfl hs.host_cells.1 ?_ id
  cases hs with
  | publish _ h0 => exact absurd h0 hb
  | store hr => exact Raise.write_done _ _
  | _ => rfl

/-- The host begins a pass. -/
theorem Counted.begin (h : Counted G p c k) : Counted (G + 1) p c k where
  pass := h.pass
  le := h.le.trans (Nat.le_succ _)
  door hd := ⟨(h.door hd).1.trans (Nat.le_succ _), (h.door hd).2⟩
  busy hb := ⟨(h.busy hb).1.trans (Nat.le_succ _), (h.busy hb).2⟩
  done := h.done

/-- The host rings the last pass it has begun, or writes the halt value, or leaves the bell. -/
theorem Counted.hostWrite (h : Counted G p c k) {d t : U32}
    (hd : d = c.doorbellHost ∨ d = doorbellHalt ∨ d.toNat = G ∧ c.doorbellHost ≠ doorbellHalt) :
    Counted G p (c.hostWrite d t) k := by
  refine ⟨h.pass, h.le, fun hne => ?_, fun hb => ⟨(h.busy hb).1, fun hne => ?_⟩, h.done⟩
  · obtain rfl | rfl | ⟨hG, hold⟩ := hd
    · exact h.door hne
    · exact absurd rfl hne
    · exact ⟨hG.le, h.le.trans (Nat.succ_le_succ hG.ge)⟩
  · obtain rfl | rfl | ⟨hG, hold⟩ := hd
    · exact (h.busy hb).2 hne
    · exact absurd rfl hne
    · exact (h.busy hb).1.trans hG.ge

/-- Before the first call both counters are at the start. -/
theorem counted_zero : Counted 0 1 (Gpu.zero n).cells ⟨1, 0, .poll, []⟩ where
  pass := rfl
  le := le_rfl
  door _ := ⟨le_rfl, le_rfl⟩
  busy := by
    rintro (hl | ⟨u, hu, hpc | hpc⟩)
    · exact hl.elim
    · cases hpc
    · cases hpc
  done := rfl

/-- `done` holds only passes that nobody has erred in, nor anybody before them. -/
theorem Counted.done_lt (h : Counted G p c k) {N : ℕ} (hN : p ≤ N) : c.done.toNat < N := by
  have := h.done
  omega

end Counted

/-- Block 0 of a GPU in a grid that has blocks. -/
theorem Counted.gpu_step {prog : List (Instr π)} {G : ℕ} (hG : G < 2 ^ 32 - 1) {τ : List (Ev n)}
    {s : Gpu n} {z : Fin n} (hz : z.val = 0) (h : Counted G (passOf z τ) s.cells (s.block z))
    {b : Fin n} {a : Act} {c : Cells} {k : Block}
    (hs : BlockStep n prog b s.cells (s.block b) a c k) :
    Counted G (passOf z (.blk b a :: τ)) c
      ((⟨c, Function.update s.block b k⟩ : Gpu n).block z) := by
  by_cases hb : b = z
  · subst hb
    rw [Gpu.block_self, passOf_cons_blk]
    rw [hz] at hs
    exact h.step hG hs
  · rw [Gpu.block_other (Ne.symm hb), passOf_cons_other hb]
    exact h.other (fun h0 => hb (Fin.ext (h0.trans hz.symm))) hs

/-! ## One GPU and its host -/

/-- The numbers of the passes for which `host_run_pass` has returned RUN_OK, read off the history.
-/
def reported : List (SEv n) → List ℕ
  | [] => []
  | e :: τ => if e = .host .sawDone then (given τ).length :: reported τ else reported τ

/-- The host of one GPU and block 0 count the same passes: what the host polls `done` for is the
number that block 0 will store at the end of that pass. -/
structure SingleCounted (τ : List (SEv n)) (s : Single n) : Prop where
  pass : s.host.pass.toNat = (given τ).length
  /-- the bell is the halt value only at the end -/
  running : s.host.pc ≠ .halted → s.gpu.cells.doorbellHost ≠ doorbellHalt
  block : ∀ z : Fin n, z.val = 0 →
    Counted (given τ).length (passOf z (events τ)) s.gpu.cells (s.gpu.block z)
  /-- what was reported, block 0 has published -/
  published : ∀ z : Fin n, z.val = 0 → ∀ M ∈ reported τ, M < passOf z (events τ)

/-- The host writes only the cells a host may write. -/
theorem HostStep.gpu_step (prog : List (Instr π)) {s : Single n} {a : HostAct}
    {c : Cells} {k : Host}
    (hs : HostStep s.gpu.cells s.host a c k) :
    match (SEv.host a : SEv n).gpu with
    | some e => (Gpu.anyHost n prog).step s.gpu e ⟨c, s.gpu.block⟩
    | none => c = s.gpu.cells := by
  cases hs with
  | copy | ring | shutdown => exact ⟨_, _, rfl⟩
  | _ => rfl

/-- **A GPU with its host is a GPU under some host**, in every run. -/
theorem Single.run_anyHost {prog : List (Instr π)} {τ : List (SEv n)} {s : Single n}
    (h : (Single.lts n prog).Run τ s) : (Gpu.anyHost n prog).Run (events τ) s.gpu := by
  refine Lts.Run.project Single.gpu SEv.gpu ?_ ?_ h
  · rintro s rfl
    rfl
  · intro τ s e s' _ _ hs
    cases e with
    | dev b a =>
      obtain ⟨g, hg, rfl⟩ := step_dev.mp hs
      exact hg
    | host a =>
      obtain ⟨c, k, hstep, rfl⟩ := step_host.mp hs
      have key := hstep.gpu_step prog
      rcases hx : (SEv.host a : SEv n).gpu with _ | e <;> rw [hx] at key
      · rw [key]
      · exact key

/-- Histories only add passes. -/
theorem passOf_le_cons (b : Fin n) (e : Ev n) (τ : List (Ev n)) :
    passOf b τ ≤ passOf b (e :: τ) := by
  by_cases h : e.Foreign b
  · rw [passOf_cons_foreign h]
  · cases e with
    | blk j a =>
      obtain rfl : j = b := not_not.mp h
      rw [passOf_cons_blk]
      exact Nat.le_add_right _ _
    | _ => exact absurd trivial h

section SingleStep

variable {prog : List (Instr π)} {τ : List (SEv n)} {s : Single n}

/-- Block steps keep the numbers. -/
theorem SingleCounted.dev (h : SingleCounted τ s) (hG : (given τ).length < 2 ^ 32 - 1) {b : Fin n}
    {a : Act} {c : Cells} {k : Block}
    (hs : BlockStep n prog b s.gpu.cells (s.gpu.block b) a c k) :
    SingleCounted (.dev b a :: τ) { s with gpu := ⟨c, Function.update s.gpu.block b k⟩ } where
  pass := h.pass
  running hne := by
    rw [hs.host_cells.1]
    exact h.running hne
  block z hz := (h.block z hz).gpu_step hG hz hs
  published z hz M hM := (h.published z hz M hM).trans_le (passOf_le_cons z (.blk b a) (events τ))

/-- A host step that begins no pass and does not report one. -/
theorem SingleCounted.think (h : SingleCounted τ s) {a : HostAct} {c : Cells} {k : Host}
    (hgiven : given (.host a :: τ) = given τ) (hreported : reported (.host a :: τ) = reported τ)
    (hpass : k.pass = s.host.pass) (hrun : k.pc ≠ .halted → c.doorbellHost ≠ doorbellHalt)
    (hblock : ∀ z : Fin n, z.val = 0 →
      Counted (given τ).length (passOf z (events τ)) c (s.gpu.block z)) :
    SingleCounted (.host a :: τ) ⟨⟨c, s.gpu.block⟩, k⟩ := by
  have hpassOf : ∀ z : Fin n, passOf z (events (.host a :: τ)) = passOf z (events τ) := by
    intro z
    rcases hx : (SEv.host a : SEv n).gpu with _ | e
    · rw [events, List.filterMap_cons_none hx]
      rfl
    · rw [events, List.filterMap_cons_some hx]
      refine passOf_cons_foreign ?_
      cases a <;> cases hx <;> trivial
  refine ⟨?_, hrun, fun z hz => ?_, fun z hz M hM => ?_⟩
  · rw [hgiven]
    exact (congrArg BitVec.toNat hpass).trans h.pass
  · rw [hgiven, hpassOf]
    exact hblock z hz
  · rw [hpassOf]
    exact h.published z hz M (hreported ▸ hM)

/-- Host steps keep the numbers. -/
theorem SingleCounted.host (h : SingleCounted τ s) {a : HostAct}
    (hG : (given (.host a :: τ)).length < 2 ^ 32 - 1) {c : Cells} {k : Host}
    (hs : HostStep s.gpu.cells s.host a c k) :
    SingleCounted (.host a :: τ) ⟨⟨c, s.gpu.block⟩, k⟩ := by
  cases hs with
  | call hp | refuse hp | copyFail hp | sawErr hp | noErr hp | notDone hp | timeout hp
  | again hp =>
    exact h.think rfl rfl rfl (fun _ => h.running (by rw [hp]; nofun)) h.block
  | @begin t hp =>
    have hlen : (given (.host (.begin t) :: τ)).length = (given τ).length + 1 := rfl
    refine ⟨?_, fun _ => h.running (by rw [hp]; nofun), fun z hz => ?_, h.published⟩
    · rw [hlen, ← h.pass]
      refine Wrap.toNat_add_one ?_
      rw [h.pass]
      omega
    · rw [hlen]
      exact (h.block z hz).begin
  | copy hp =>
    refine h.think rfl rfl rfl (fun _ => h.running (by rw [hp]; nofun)) fun z hz => ?_
    exact (h.block z hz).hostWrite (Or.inl rfl)
  | ring hp =>
    have hrun := h.running (by rw [hp]; nofun)
    refine h.think rfl rfl rfl (fun _ heq => ?_) fun z hz => ?_
    · have hpass := h.pass
      rw [show s.host.pass = doorbellHalt from heq, doorbellHalt_toNat] at hpass
      have hlen : (given (.host .ring :: τ)).length = (given τ).length := rfl
      omega
    · exact (h.block z hz).hostWrite (Or.inr (Or.inr ⟨h.pass, hrun⟩))
  | sawDone hp hd =>
    refine ⟨h.pass, fun _ => h.running (by rw [hp]; nofun), h.block, fun z hz M hM => ?_⟩
    rw [reported, if_pos rfl] at hM
    obtain rfl | hM := List.mem_cons.mp hM
    · -- the done cell holds the pass before block 0's
      have hdone := (h.block z hz).done
      rw [hd, h.pass] at hdone
      exact Nat.lt_of_succ_le hdone.le
    · exact h.published z hz M hM
  | shutdown hp =>
    refine h.think rfl rfl rfl (fun hne => absurd rfl hne) fun z hz => ?_
    exact (h.block z hz).hostWrite (Or.inr (Or.inl rfl))

/-- The number of begun passes does not shrink. -/
theorem given_length_le_cons (e : SEv n) (τ : List (SEv n)) :
    (given τ).length ≤ (given (e :: τ)).length :=
  ((List.sublist_cons_self e τ).filterMap _).length_le

end SingleStep

/-- **The host and block 0 count the same passes**, in every run. -/
theorem Single.run_counted {prog : List (Instr π)} {τ : List (SEv n)} {s : Single n}
    (h : (Single.lts n prog).Run τ s) (hG : (given τ).length < 2 ^ 32 - 1) :
    SingleCounted τ s := by
  revert hG
  refine Lts.Run.inv (I := fun τ s => (given τ).length < 2 ^ 32 - 1 → SingleCounted τ s) ?_ ?_ h
  · rintro s rfl -
    exact ⟨rfl, fun _ => nofun, fun _ _ => counted_zero, fun _ _ _ hM => nomatch hM⟩
  · intro τ s e s' _ ih hs hG
    have ih := ih ((given_length_le_cons e τ).trans_lt hG)
    cases e with
    | dev b a =>
      obtain ⟨g, hg, rfl⟩ := step_dev.mp hs
      obtain ⟨c, k, hstep, rfl⟩ := Gpu.step_blk.mp hg
      exact ih.dev hG hstep
    | host a =>
      obtain ⟨c, k, hstep, rfl⟩ := step_host.mp hs
      exact ih.host hG hstep

/-! ## The pair and its host -/

/-- How often `dual_run_pass` has been called. -/
def pairCalls (τ : List (PEv n)) : ℕ :=
  τ.countP fun
    | .host (.call _) => true
    | _ => false

/-- The numbers of the passes for which `dual_run_pass` has returned true. -/
def pairReported : List (PEv n) → List ℕ
  | [] => []
  | e :: τ => if e = .host .ret then pairCalls τ :: pairReported τ else pairReported τ

/-- The host of the pair and the two blocks 0 count the same passes. -/
structure PairCounted (τ : List (PEv n)) (s : Pair n) : Prop where
  pass : s.host.pc ≠ .failed →
    ∀ g, (s.host.pass g).toNat + (if s.host.pc.enqueued g then 0 else 1) = pairCalls τ
  running : ∀ g, (s.gpu g).cells.doorbellHost ≠ doorbellHalt
  block : ∀ g, ∀ z : Fin n, z.val = 0 →
    Counted (pairCalls τ) (passOf z (pairSide g τ)) (s.gpu g).cells ((s.gpu g).block z)
  /-- a done cell that has been seen to hold the pass of the call -/
  known : ∀ g, s.host.pc.knowsDone g = true →
    ∀ z : Fin n, z.val = 0 → pairCalls τ < passOf z (pairSide g τ)
  published : ∀ M ∈ pairReported τ, ∀ g, ∀ z : Fin n, z.val = 0 → M < passOf z (pairSide g τ)

section PairStep

variable {prog : List (Instr XArgs)} {τ : List (PEv n)} {s : Pair n}

/-- The host never takes back a call. -/
theorem pairCalls_le_cons (e : PEv n) (τ : List (PEv n)) : pairCalls τ ≤ pairCalls (e :: τ) :=
  (List.sublist_cons_self e τ).countP_le

/-- The GPUs whose copies are enqueued behind the stage of GPU `g`. -/
theorem DualPc.enqueued_next : ∀ g g' : Fin 2,
    (DualPc.next g (.enqueue 1) (.sync 0)).enqueued g' =
      (decide (g' = g) || (DualPc.enqueue g).enqueued g') := by
  decide

/-- From the first bell on the copies of both GPUs are enqueued. -/
theorem DualPc.enqueued_of_next : ∀ g g' : Fin 2,
    (DualPc.next g (.sync 1) (.pollErr 0)).enqueued g' = true ∧
      (DualPc.next g (.pollErr 1) .pollDone0).enqueued g' = true := by
  decide

/-- In the stages before the done cells are loaded nothing is known of them. -/
theorem DualPc.knowsDone_next : ∀ g g' : Fin 2,
    (DualPc.next g (.enqueue 1) (.sync 0)).knowsDone g' = false ∧
    (DualPc.next g (.sync 1) (.pollErr 0)).knowsDone g' = false ∧
      (DualPc.next g (.pollErr 1) .pollDone0).knowsDone g' = false := by
  decide

/-- A host step adds no pass to a GPU. -/
theorem passOf_pairSide_host (g : Fin 2) (z : Fin n) (a : DualAct) :
    passOf z (pairSide g (.host a :: τ)) = passOf z (pairSide g τ) := by
  rcases hx : (PEv.host a : PEv n).side g with _ | e
  · rw [pairSide, List.filterMap_cons_none hx]
    rfl
  · rw [pairSide, List.filterMap_cons_some hx]
    refine passOf_cons_foreign ?_
    cases a with
    | ring g' =>
      obtain ⟨-, he⟩ := Option.ite_none_right_eq_some.mp hx
      rw [← Option.some.inj he]
      trivial
    | _ => cases hx

/-- The number of passes of a GPU does not shrink. -/
theorem passOf_pairSide_le (g : Fin 2) (z : Fin n) (e : PEv n) :
    passOf z (pairSide g τ) ≤ passOf z (pairSide g (e :: τ)) := by
  rcases hx : e.side g with _ | e'
  · rw [pairSide, pairSide, List.filterMap_cons_none hx]
  · rw [pairSide, pairSide, List.filterMap_cons_some hx]
    exact passOf_le_cons z e' _

/-- A step of a block or of a copy stream: it moves the GPUs, not the host's place. -/
theorem PairCounted.gpus (h : PairCounted τ s) {e : PEv n} {s' : Pair n}
    (he : ∀ a, e ≠ .host a) (hpass : s'.host.pass = s.host.pass) (hpc : s'.host.pc = s.host.pc)
    (hdoor : ∀ g, (s'.gpu g).cells.doorbellHost = (s.gpu g).cells.doorbellHost)
    (hblock : ∀ g, ∀ z : Fin n, z.val = 0 →
      Counted (pairCalls τ) (passOf z (pairSide g (e :: τ))) (s'.gpu g).cells
        ((s'.gpu g).block z)) : PairCounted (e :: τ) s' := by
  have hcalls : pairCalls (e :: τ) = pairCalls τ := by
    rw [pairCalls, List.countP_cons_of_neg, pairCalls]
    cases e with
    | host a => exact absurd rfl (he a)
    | _ => simp
  have hrep : pairReported (e :: τ) = pairReported τ := if_neg (he .ret)
  refine ⟨?_, fun g => ?_, ?_, fun g hg z hz => ?_, fun M hM g z hz => ?_⟩
  · rw [hpass, hpc, hcalls]
    exact h.pass
  · rw [hdoor]
    exact h.running g
  · rw [hcalls]
    exact hblock
  · rw [hcalls]
    rw [hpc] at hg
    exact (h.known g hg z hz).trans_le (passOf_pairSide_le g z e)
  · rw [hrep] at hM
    exact (h.published M hM g z hz).trans_le (passOf_pairSide_le g z e)

/-- A host step that neither calls nor rings nor returns: what it has to keep is its own place. -/
theorem PairCounted.think (h : PairCounted τ s) {a : DualAct} {k : DualHost}
    (hcall : ∀ t, a ≠ .call t) (hret : a ≠ .ret)
    (hpass : k.pc ≠ .failed →
      ∀ g, (k.pass g).toNat + (if k.pc.enqueued g then 0 else 1) = pairCalls τ)
    (hknown : ∀ g, k.pc.knowsDone g = true →
      ∀ z : Fin n, z.val = 0 → pairCalls τ < passOf z (pairSide g τ)) :
    PairCounted (.host a :: τ) ⟨s.gpu, k⟩ := by
  have hcalls : pairCalls (.host a :: τ) = pairCalls τ := by
    rw [pairCalls, List.countP_cons_of_neg, pairCalls]
    cases a with
    | call t => exact absurd rfl (hcall t)
    | _ => simp
  have hrep : pairReported (.host a :: τ) = pairReported τ :=
    if_neg fun heq => hret (PEv.host.inj heq)
  refine ⟨?_, h.running, fun g z hz => ?_, fun g hg z hz => ?_, fun M hM g z hz => ?_⟩
  · rw [hcalls]
    exact hpass
  · rw [hcalls, passOf_pairSide_host]
    exact h.block g z hz
  · rw [hcalls, passOf_pairSide_host]
    exact hknown g hg z hz
  · rw [hrep] at hM
    rw [passOf_pairSide_host]
    exact h.published M hM g z hz

/-- A done cell that holds the number of the call is that of a published pass. -/
theorem PairCounted.of_done (h : PairCounted τ s) {g : Fin 2} (hpc : s.host.pc ≠ .failed)
    (henq : s.host.pc.enqueued g = true) (hd : (s.gpu g).cells.done = s.host.pass g) (z : Fin n)
    (hz : z.val = 0) : pairCalls τ < passOf z (pairSide g τ) := by
  have hdone := (h.block g z hz).done
  have hpass := h.pass hpc g
  rw [if_pos henq] at hpass
  rw [hd] at hdone
  omega

/-- Host steps keep the numbers. -/
theorem PairCounted.host (h : PairCounted τ s) {a : DualAct}
    (hG : pairCalls (.host a :: τ) < 2 ^ 32 - 1) {c : Fin 2 → Cells} {k : DualHost}
    (hs : DualStep prog (fun g => (s.gpu g).cells) s.host a c k) :
    PairCounted (.host a :: τ) ⟨fun g => ⟨c g, (s.gpu g).block⟩, k⟩ := by
  have hpass := h.pass
  have hknown := h.known
  cases hs with
  | @call t hp =>
    have hcalls : pairCalls (.host (.call t) :: τ) = pairCalls τ + 1 :=
      List.countP_cons_of_pos rfl
    refine ⟨fun _ g => ?_, h.running, fun g z hz => ?_, nofun, fun M hM g z hz => ?_⟩
    · have hold := hpass (by rw [hp]; nofun) g
      rw [hp] at hold
      rw [hcalls, ← hold]
      rfl
    · rw [hcalls, passOf_pairSide_host]
      exact (h.block g z hz).begin
    · rw [passOf_pairSide_host]
      exact h.published M hM g z hz
  | refuse hp | sawErr hp =>
    exact h.think nofun nofun (fun hne => absurd rfl hne) nofun
  | @enqueue g hp =>
    refine h.think nofun nofun (fun _ g' => ?_) fun g' hg' => ?_
    · have hold := hpass (by rw [hp]; nofun)
      rw [hp] at hold
      have hcalls : pairCalls (.host (.enqueue g) :: τ) = pairCalls τ :=
        List.countP_cons_of_neg (by simp)
      have hadd : (s.host.pass g + 1).toNat = (s.host.pass g).toNat + 1 := by
        refine Wrap.toNat_add_one ?_
        have := hold g
        omega
      have hold' := hold g'
      simp only [DualPc.enqueued_next]
      by_cases hg : g' = g
      · subst hg
        rw [if_neg (by simp [DualPc.enqueued])] at hold'
        rw [Function.update_self, hadd, ← hold', if_pos (by simp)]
      · rw [Function.update_of_ne hg, decide_eq_false hg, Bool.false_or]
        exact hold'
    · rw [(DualPc.knowsDone_next g g').1] at hg'
      cases hg'
  | @sync g hp =>
    have hold := hpass (by rw [hp]; nofun)
    rw [hp] at hold
    exact h.think nofun nofun (fun _ => hold) nofun
  | @ring g hp =>
    have hold := hpass (by rw [hp]; nofun)
    rw [hp] at hold
    have hcalls : pairCalls (.host (.ring g) :: τ) = pairCalls τ :=
      List.countP_cons_of_neg (by simp)
    have hcell : ∀ g', Function.update (fun g => (s.gpu g).cells) g
        { (s.gpu g).cells with doorbellHost := s.host.pass g } g' =
        (s.gpu g').cells.hostWrite
          (if g' = g then s.host.pass g else (s.gpu g').cells.doorbellHost)
          (s.gpu g').cells.token := by
      intro g'
      by_cases hg : g' = g
      · subst hg
        rw [Function.update_self, if_pos rfl]
        rfl
      · rw [Function.update_of_ne hg, if_neg hg]
        rfl
    have hpg : (s.host.pass g).toNat = pairCalls τ := hold g
    refine ⟨fun _ g' => ?_, fun g' => ?_, fun g' z hz => ?_, fun g' hg' => ?_,
      fun M hM g' z hz => ?_⟩
    · rw [hcalls, if_pos (DualPc.enqueued_of_next g g').1]
      exact hold g'
    · simp only [hcell, Cells.hostWrite]
      split
      · intro heq
        rw [heq, doorbellHalt_toNat] at hpg
        omega
      · exact h.running g'
    · simp only [hcell, hcalls, passOf_pairSide_host]
      refine (h.block g' z hz).hostWrite ?_
      split
      next hg => exact Or.inr (Or.inr ⟨hpg, h.running g'⟩)
      · exact Or.inl rfl
    · rw [(DualPc.knowsDone_next g g').2.1] at hg'
      cases hg'
    · rw [passOf_pairSide_host]
      exact h.published M hM g' z hz
  | @noErr g hp =>
    have hold := hpass (by rw [hp]; nofun)
    rw [hp] at hold
    refine h.think nofun nofun (fun _ g' => ?_) fun g' hg' => ?_
    · rw [if_pos (DualPc.enqueued_of_next g g').2]
      exact hold g'
    · rw [(DualPc.knowsDone_next g g').2.2] at hg'
      cases hg'
  | @done0 d hp hd =>
    have hold := hpass (by rw [hp]; nofun)
    rw [hp] at hold
    refine h.think nofun nofun (fun _ => hold) fun g hg z hz => ?_
    obtain ⟨h0, hdone⟩ := Bool.and_eq_true_iff.mp hg
    obtain rfl : g = 0 := of_decide_eq_true h0
    rw [hdone] at hd
    exact h.of_done (by rw [hp]; nofun) (by rw [hp]; rfl) (of_decide_eq_true hd.symm) z hz
  | @done1 d d0 hp hd =>
    have hold := hpass (by rw [hp]; nofun)
    rw [hp] at hold
    refine h.think nofun nofun (fun _ => hold) fun g hg z hz => ?_
    match g, hg with
    | 0, hg =>
      refine hknown 0 ?_ z hz
      rw [hp]
      exact hg
    | 1, hg =>
      have hdone : d = true := hg
      rw [hdone] at hd
      exact h.of_done (g := 1) (by rw [hp]; nofun) (by rw [hp]; rfl)
        (of_decide_eq_true hd.symm) z hz
  | ret hp =>
    have hold := hpass (by rw [hp]; nofun)
    rw [hp] at hold hknown
    have hcalls : pairCalls (.host .ret :: τ) = pairCalls τ := List.countP_cons_of_neg (by simp)
    have hall : ∀ g, ∀ z : Fin n, z.val = 0 → pairCalls τ < passOf z (pairSide g τ) :=
      fun g => hknown g (ite_self true)
    refine ⟨fun _ => ?_, h.running, fun g z hz => ?_, fun g _ z hz => ?_, fun M hM g z hz => ?_⟩
    · rw [hcalls]
      exact hold
    · rw [hcalls, passOf_pairSide_host]
      exact h.block g z hz
    · rw [hcalls, passOf_pairSide_host]
      exact hall g z hz
    · rw [passOf_pairSide_host]
      rw [pairReported, if_pos rfl] at hM
      obtain rfl | hM := List.mem_cons.mp hM
      · exact hall g z hz
      · exact h.published M hM g z hz
  | timeout hp =>
    exact h.think nofun nofun (fun hne => absurd rfl hne) nofun
  | again hp =>
    have hold := hpass (by rw [hp]; nofun)
    rw [hp] at hold
    exact h.think nofun nofun (fun _ => hold) nofun

end PairStep

/-- **The host of the pair and the two blocks 0 count the same passes**, in every run. -/
theorem Pair.run_counted {prog : List (Instr XArgs)} {τ : List (PEv n)} {s : Pair n}
    (h : (Pair.lts n prog).Run τ s) (hG : pairCalls τ < 2 ^ 32 - 1) : PairCounted τ s := by
  revert hG
  refine Lts.Run.inv (I := fun τ s => pairCalls τ < 2 ^ 32 - 1 → PairCounted τ s) ?_ ?_ h
  · rintro s rfl -
    exact ⟨fun _ _ => rfl, fun _ => nofun, fun _ _ _ => counted_zero,
      fun _ _ _ _ => Nat.zero_lt_one,
      fun _ hM => nomatch hM⟩
  · intro τ s e s' _ ih hs hG
    have hG' := (pairCalls_le_cons e τ).trans_lt hG
    have ih := ih hG'
    cases e with
    | dev g b a =>
      obtain ⟨c, k, hstep, rfl⟩ := step_dev.mp hs
      refine ih.gpus nofun rfl rfl (fun g' => ?_) fun g' z hz => ?_
      · by_cases hg : g' = g
        · subst hg
          simp only [Function.update_self]
          exact hstep.host_cells.1
        · simp only [Function.update_of_ne hg]
      · by_cases hg : g' = g
        · subst hg
          have hside : pairSide g' (.dev g' b a :: τ) = .blk b a :: pairSide g' τ :=
            List.filterMap_cons_some (if_pos rfl)
          simp only [hside, Function.update_self]
          exact (ih.block g' z hz).gpu_step hG' hz hstep
        · have hside : pairSide g' (.dev g b a :: τ) = pairSide g' τ :=
            List.filterMap_cons_none (if_neg (Ne.symm hg))
          simp only [hside, Function.update_of_ne hg]
          exact ih.block g' z hz
    | host a =>
      obtain ⟨c, k, hstep, rfl⟩ := step_host.mp hs
      exact ih.host hG hstep
    | patch g i =>
      obtain ⟨-, rfl⟩ := step_patch.mp hs
      exact ih.gpus nofun rfl rfl (fun _ => rfl) ih.block
    | token g t =>
      obtain ⟨-, rfl⟩ := step_token.mp hs
      refine ih.gpus nofun rfl rfl (fun g' => ?_) fun g' z hz => ?_
      · by_cases hg : g' = g
        · subst hg
          simp only [Function.update_self]
        · simp only [Function.update_of_ne hg]
      · by_cases hg : g' = g
        · subst hg
          have hside : pairSide g' (.token g' t :: τ) = .token t :: pairSide g' τ :=
            List.filterMap_cons_some (if_pos rfl)
          simp only [hside, Function.update_self]
          exact (ih.block g' z hz).hostWrite (Or.inl rfl)
        · have hside : pairSide g' (.token g t :: τ) = pairSide g' τ :=
            List.filterMap_cons_none (if_neg (Ne.symm hg))
          simp only [hside, Function.update_of_ne hg]
          exact ih.block g' z hz

/-! ## Reports and errors -/

/-- Under `host_run_pass` nothing from the errored pass on is published or reported, however often
the host tries again. -/
theorem Single.lt_of_erred {prog : List (Instr π)} (hn : n < 2 ^ 31) {τ : List (SEv n)}
    {s : Single n} (h : (Single.lts n prog).Run τ s)
    (hG : (given τ).length < 2 ^ 32 - 1) {b : Fin n}
    {N : ℕ} (hN : N ∈ erredIn b (events τ)) :
    s.gpu.cells.done.toNat < N ∧ ∀ M ∈ reported τ, M < N := by
  have hst := Gpu.anyHost_stained hn (run_anyHost h) b N hN
  have hc := run_counted h hG
  let z : Fin n := ⟨0, b.pos⟩
  exact ⟨(hc.block z rfl).done_lt (hst.passOf_le z),
    fun M hM => (hc.published z rfl M hM).trans_le (hst.passOf_le z)⟩

/-- The same for `dual_run_pass`, whichever GPU the error is of. -/
theorem Pair.lt_of_erred {prog : List (Instr XArgs)} (hn : n < 2 ^ 31) {τ : List (PEv n)}
    {s : Pair n} (h : (Pair.lts n prog).Run τ s) (hG : pairCalls τ < 2 ^ 32 - 1) {g : Fin 2}
    {b : Fin n} {N : ℕ} (hN : N ∈ erredIn b (pairSide g τ)) :
    (s.gpu g).cells.done.toNat < N ∧ ∀ M ∈ pairReported τ, M < N := by
  have hst := Gpu.anyHost_stained hn (run_side h g) b N hN
  have hc := run_counted h hG
  let z : Fin n := ⟨0, b.pos⟩
  exact ⟨(hc.block g z rfl).done_lt (hst.passOf_le z),
    fun M hM => (hc.published M hM g z rfl).trans_le (hst.passOf_le z)⟩

/-- `done` does not go back. -/
theorem Counted.done_le {G G' p p' : ℕ} {c c' : Cells} {k k' : Block} (h : Counted G p c k)
    (h' : Counted G' p' c' k') (hp : p ≤ p') : c.done.toNat ≤ c'.done.toNat := by
  have h₁ := h.done
  have h₂ := h'.done
  omega

/-- **An errored pass is never reported as completed.** Whoever raises an error or meets a bad kind
in pass `N`, for any interleaving with a host that may fail to copy, time out and go on: at no time
of the run is `done` at `N` or beyond, no call returns success for `N` or a later pass, and no pass
that was reported as successful had an error. The same for the pair, on either GPU. -/
theorem errored_not_reported (prog : List (Instr π)) (dualProg : List (Instr XArgs))
    (hn : n < 2 ^ 31) :
    (∀ τ s, (Single.lts n prog).Run τ s → (given τ).length < 2 ^ 32 - 1 →
      ∀ b, ∀ N ∈ erredIn b (events τ),
        (∀ τ₁ τ₂ s', τ = τ₁ ++ τ₂ → (Single.lts n prog).Run τ₂ s' →
          s'.gpu.cells.done.toNat < N) ∧
        (∀ M ∈ reported τ, M < N) ∧ N ∉ reported τ) ∧
    (∀ τ s, (Pair.lts n dualProg).Run τ s → pairCalls τ < 2 ^ 32 - 1 →
      ∀ g b, ∀ N ∈ erredIn b (pairSide g τ),
        (∀ τ₁ τ₂ s', τ = τ₁ ++ τ₂ → (Pair.lts n dualProg).Run τ₂ s' →
          (s'.gpu g).cells.done.toNat < N) ∧
        (∀ M ∈ pairReported τ, M < N) ∧ N ∉ pairReported τ) := by
  refine ⟨fun τ s h hG b N hN => ?_, fun τ s h hG g b N hN => ?_⟩
  · obtain ⟨hdone, hrep⟩ := Single.lt_of_erred hn h hG hN
    refine ⟨?_, hrep, fun hmem => lt_irrefl N (hrep N hmem)⟩
    rintro τ₁ τ₂ s' rfl h'
    have hG' : (given τ₂).length < 2 ^ 32 - 1 :=
      (((List.sublist_append_right τ₁ τ₂).filterMap _).length_le).trans_lt hG
    let z : Fin n := ⟨0, b.pos⟩
    have hle : passOf z (events τ₂) ≤ passOf z (events (τ₁ ++ τ₂)) := by
      rw [events, events, List.filterMap_append, passOf, passOf, List.count_append,
        List.count_append]
      omega
    exact (((Single.run_counted h' hG').block z rfl).done_le
      ((Single.run_counted h hG).block z rfl) hle).trans_lt hdone
  · obtain ⟨hdone, hrep⟩ := Pair.lt_of_erred hn h hG hN
    refine ⟨?_, hrep, fun hmem => lt_irrefl N (hrep N hmem)⟩
    rintro τ₁ τ₂ s' rfl h'
    have hG' : pairCalls τ₂ < 2 ^ 32 - 1 :=
      ((List.sublist_append_right τ₁ τ₂).countP_le).trans_lt hG
    let z : Fin n := ⟨0, b.pos⟩
    have hle : passOf z (pairSide g τ₂) ≤ passOf z (pairSide g (τ₁ ++ τ₂)) := by
      rw [pairSide, pairSide, List.filterMap_append, passOf, passOf, List.count_append,
        List.count_append]
      omega
    exact (((Pair.run_counted h' hG').block g z rfl).done_le
      ((Pair.run_counted h hG).block g z rfl) hle).trans_lt hdone

/-- One block and one instruction: the first pass succeeds, in the second the op raises. -/
def secondErrs : List (SEv 1) :=
  [.host .sawErr] ++
  ([.quit 3, .sample, .leave 1, .arrive 1, .cross 1, .finish 0, .store 0, .store 0, .store 0,
    .raise 0 .logitsFlagMultiblock 9, .begin 0, .start 2, .forward 2, .hear 2].map (.dev 0)) ++
  [.host .ring, .host (.copy 8), .host (.begin 8), .host (.call 8), .host .sawDone, .host .noErr] ++
  ([.publish, .sample, .leave 1, .arrive 1, .cross 1, .finish 0, .begin 0, .start 1, .forward 1,
    .hear 1].map (.dev 0)) ++
  [.host .ring, .host (.copy 7), .host (.begin 7), .host (.call 7)]

theorem errored_not_reported_second :
    ∃ s, (Single.lts 1 [⟨MacroKind.rmsnorm.code, 0, 1, ()⟩]).Run secondErrs s ∧
      reported secondErrs = [1] ∧ erredIn 0 (events secondErrs) = [2] ∧
        2 ∉ reported secondErrs := by
  obtain ⟨s, -, hr⟩ := Lts.exists_run_of_isSome
    (Single.step [⟨MacroKind.rmsnorm.code, 0, 1, ()⟩]) (Single.zero 1) secondErrs (by decide)
  have herr : erredIn 0 (events secondErrs) = [2] := by decide
  have h := (errored_not_reported [⟨MacroKind.rmsnorm.code, 0, 1, ()⟩] [] (by decide)).1
    secondErrs s hr (by decide) 0 2 (by rw [herr]; exact List.mem_cons_self)
  exact ⟨s, hr, by decide, herr, h.2.2⟩

end Megakernel
