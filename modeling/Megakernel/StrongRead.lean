import Megakernel.Allreduce

/-!
# Plain loads on the exchange path

`op_xchg_push` and `op_xchg_reduce` load `local_partial` with plain loads, and the
seqno comes with the instruction, which is loaded plainly as well. Under the
semantics of `core/sync.cuh` a plain load may return what the same SM has loaded
from that address before, so that a block may send the partial of an earlier
pass, and may poll for the seqno of an earlier pass, which the peer's cell has
reached long ago (`oneSiteStale`).

`strong_read` says how far the rule reaches: never beyond the first loads of a
block. `FirstLoads` is a condition on the steps that have been taken, whatever
their loads have returned: no block loads an element of `local_partial` for one
site and pass when it has loaded the element for another one, unless the contract
GEMVs have written the same value there, and no block loads the seqno of a reduce
in two passes. A run that meets it is on current values throughout. Where the
condition fails, the very next load may go wrong, and it fails for every reduce of
every pass behind the first one, since the seqno of a reduce has one address.

The values that loads return are labels of the steps, so that `XAct.reload` can exchange them. It
turns a statement about what a load has returned into one about what it could have returned.
-/

namespace Megakernel

variable {V : Type*} {n N : ℕ}

/-! ## First loads -/

/-- What a step loads plainly from element `e` of `proj_out`. -/
def XAct.loadOut (e : ℕ) : XAct V → Option V
  | .push _ e' v | .fold _ e' v _ => if e' = e then some v else none
  | _ => none

/-- What a step loads plainly from the seqno field of instruction `i`. -/
def XAct.loadSeqno (i : ℕ) : XAct V → Option U32
  | .args i' q => if i' = i then some q else none
  | _ => none

/-- The step of block `b` in pass `p` is a first load: whenever the block has loaded the same
element of `proj_out` before, it was for a site and pass whose partial is the same there, and
whenever it has loaded the same seqno field before, it was in a pass of the same number. -/
def XAct.FirstLoad (prog : List (Instr XArgs)) (b : Fin n) (p : ℕ) (τ : List (XEv n V)) :
    XAct V → Prop
  | .push i e _ | .fold i e _ _ =>
    ∀ d ∈ deeds τ, d.blk = b → (d.act.loadOut e).isSome = true →
      written prog d.pass (siteAt prog d.act.instr) e τ = written prog p (siteAt prog i) e τ
  | .args i _ =>
    ∀ d ∈ deeds τ, d.blk = b → (d.act.loadSeqno i).isSome = true →
      BitVec.ofNat 32 d.pass = BitVec.ofNat 32 p
  | _ => True

instance [DecidableEq V] (prog : List (Instr XArgs)) (b : Fin n) (p : ℕ) (τ : List (XEv n V)) :
    ∀ x : XAct V, Decidable (x.FirstLoad prog b p τ)
  | .push i e _ | .fold i e _ _ =>
    inferInstanceAs (Decidable (∀ d ∈ deeds τ, d.blk = b → (d.act.loadOut e).isSome = true →
      written prog d.pass (siteAt prog d.act.instr) e τ = written prog p (siteAt prog i) e τ))
  | .args i _ =>
    inferInstanceAs (Decidable (∀ d ∈ deeds τ, d.blk = b → (d.act.loadSeqno i).isSome = true →
      BitVec.ofNat 32 d.pass = BitVec.ofNat 32 p))
  | .ctl _ | .gemv _ _ _ | .publish _ _ | .wait _ _ _ | .acquire _ _ _ =>
    inferInstanceAs (Decidable True)

/-- Every plain load of a history was a first load. -/
def FirstLoads (prog : List (Instr XArgs)) : List (XEv n V) → Prop
  | [] => True
  | .blk b x :: τ => x.FirstLoad prog b (passOf b (ctlOf τ)) τ ∧ FirstLoads prog τ
  | _ :: τ => FirstLoads prog τ

instance FirstLoads.decidable [DecidableEq V] (prog : List (Instr XArgs)) :
    ∀ τ : List (XEv n V), Decidable (FirstLoads prog τ)
  | [] => inferInstanceAs (Decidable True)
  | .blk b x :: τ =>
    have := FirstLoads.decidable prog τ
    inferInstanceAs (Decidable (x.FirstLoad prog b (passOf b (ctlOf τ)) τ ∧ FirstLoads prog τ))
  | .ring :: τ | .token _ :: τ | .patch _ _ :: τ => FirstLoads.decidable prog τ

/-- The same step, with other values returned by its plain loads. -/
def XAct.reload (v : V) (q : U32) : XAct V → XAct V
  | .push i e _ => .push i e v
  | .fold i e _ w => .fold i e v w
  | .args i _ => .args i q
  | x => x

/-- Whether a step is a first load does not depend on what the load returns. -/
theorem XAct.firstLoad_reload {prog : List (Instr XArgs)} {b : Fin n} {p : ℕ}
    {τ : List (XEv n V)} {v : V} {q : U32} {x : XAct V} :
    (x.reload v q).FirstLoad prog b p τ ↔ x.FirstLoad prog b p τ := by
  cases x <;> exact Iff.rfl

/-- The values a plain load may return: the current one and the block's copies. -/
theorem plainLoad_true {α : Type*} [DecidableEq α] {cur v : α} {seen : List α} :
    plainLoad true cur seen v = true ↔ v = cur ∨ v ∈ seen := by
  rw [plainLoad, Bool.or_eq_true, Bool.true_and, decide_eq_true_eq, decide_eq_true_eq]

/-- A plain load whose copies are all current is current. -/
theorem plainLoad_of_forall {α : Type*} [DecidableEq α] {stale : Bool} {cur v : α}
    {seen : List α} (h : plainLoad stale cur seen v = true) (hseen : ∀ u ∈ seen, u = cur) :
    plainLoad false cur seen v = true := by
  have hcur : v = cur := by
    rcases Bool.or_eq_true_iff.mp h with h | h
    · exact of_decide_eq_true h
    · exact hseen v (of_decide_eq_true (Bool.and_eq_true_iff.mp h).2)
  simp [plainLoad, hcur]

/-! ## The copies of a block -/

/-- The copies a block has are what its plain loads have returned. -/
structure Copies (τ : List (XEv n V)) (s : XGpu n V) : Prop where
  out : ∀ b e, s.seenOut b e =
    (deeds τ).filterMap fun d => if d.blk = b then d.act.loadOut e else none
  seqno : ∀ b i, s.seenSeqno b i =
    (deeds τ).filterMap fun d => if d.blk = b then d.act.loadSeqno i else none

section Gpu

variable [DecidableEq V] [Add V] [Zero V] {P : SplitProgram n N} {T : ℕ} {stale : Bool} {g : Fin 2}
  {τ : List (XEv n V)} {s s' : XGpu n V}

omit [Zero V] in
/-- A data step enters what it loads plainly into the copies of its block. -/
theorem Copies.data (h : Copies τ s) {b : Fin n} {x : XAct V} (hx : x.isData = true)
    (hs : XGpu.step P T stale g s (.blk b x) = some s') : Copies (.blk b x :: τ) s' := by
  obtain ⟨-, -, rfl⟩ := XGpu.step_data hx hs
  have hcons := deeds_cons_data hx b τ
  refine ⟨fun j e => ?_, fun j i => ?_⟩
  · rw [hcons]
    have hold := h.out j e
    cases x with
    | ctl => cases hx
    | push i' e' v | fold i' e' v w =>
      rcases eq_or_ne b j with rfl | hb
      · rcases eq_or_ne e' e with rfl | he
        · simp [XAct.effect, XAct.loadOut, hold]
        · simp [XAct.effect, XAct.loadOut, hold, he, he.symm]
      · simp [XAct.effect, hold, hb, hb.symm]
    | _ => simpa [XAct.effect, XAct.loadOut] using hold
  · rw [hcons]
    have hold := h.seqno j i
    cases x with
    | ctl => cases hx
    | args i' q =>
      rcases eq_or_ne b j with rfl | hb
      · rcases eq_or_ne i' i with rfl | hi
        · simp [XAct.effect, XAct.loadSeqno, hold]
        · simp [XAct.effect, XAct.loadSeqno, hold, hi, hi.symm]
      · simp [XAct.effect, hold, hb, hb.symm]
    | _ => simpa [XAct.effect, XAct.loadSeqno] using hold

/-- In every run the copies of a block are what its plain loads have returned. -/
theorem run_copies (h : (XGpu.lts P T stale g).Run τ s) : Copies τ s := by
  refine Lts.Run.inv (I := Copies) ?_ ?_ h
  · rintro s rfl
    exact ⟨fun _ _ => rfl, fun _ _ => rfl⟩
  · rintro τ s e s' - ih hs
    cases e with
    | blk b x =>
      by_cases hx : x.isData = true
      · exact ih.data hx hs
      · cases x with
        | ctl a =>
          obtain ⟨-, c, -, rfl⟩ := XGpu.step_blk.mp hs
          exact ⟨ih.out, ih.seqno⟩
        | _ => exact absurd rfl hx
    | ring =>
      obtain ⟨-, c, -, rfl⟩ := XGpu.step_ring.mp hs
      exact ⟨ih.out, ih.seqno⟩
    | token t =>
      obtain ⟨c, -, rfl⟩ := XGpu.step_token.mp hs
      exact ⟨ih.out, ih.seqno⟩
    | patch i q =>
      obtain ⟨-, rfl⟩ := XGpu.step_patch.mp hs
      exact ⟨ih.out, ih.seqno⟩

omit [DecidableEq V] [Add V] [Zero V] in
theorem Copies.mem_out (h : Copies τ s) {b : Fin n} {e : ℕ} {u : V} :
    u ∈ s.seenOut b e ↔ ∃ d ∈ deeds τ, d.blk = b ∧ d.act.loadOut e = some u := by
  rw [h.out, List.mem_filterMap]
  refine exists_congr fun d => and_congr_right fun _ => ?_
  rw [Option.ite_none_right_eq_some]

omit [DecidableEq V] [Add V] [Zero V] in
theorem Copies.mem_seqno (h : Copies τ s) {b : Fin n} {i : ℕ} {q : U32} :
    q ∈ s.seenSeqno b i ↔ ∃ d ∈ deeds τ, d.blk = b ∧ d.act.loadSeqno i = some q := by
  rw [h.seqno, List.mem_filterMap]
  refine exists_congr fun d => and_congr_right fun _ => ?_
  rw [Option.ite_none_right_eq_some]

omit [DecidableEq V] [Add V] [Zero V] in
/-- A current load of an element has returned the partial of its site and pass. -/
theorem Deed.loadOut_current {prog : List (Instr XArgs)} {d : Deed n V}
    (hcur : d.act.Current prog d.pass τ) {e : ℕ} {u : V} (h : d.act.loadOut e = some u) :
    written prog d.pass (siteAt prog d.act.instr) e τ = some u := by
  rcases hact : d.act with _ | _ | ⟨i, e', v⟩ | _ | _ | _ | _ | ⟨i, e', v, w⟩ <;>
    rw [hact] at hcur h
  case push | fold =>
    obtain ⟨rfl, hv⟩ := Option.ite_none_right_eq_some.mp h
    cases hv
    exact hcur
  all_goals cases h

omit [DecidableEq V] [Add V] [Zero V] in
/-- A current load of a seqno field has returned the number of its pass. -/
theorem Deed.loadSeqno_current {prog : List (Instr XArgs)} {d : Deed n V}
    (hcur : d.act.Current prog d.pass τ) {i : ℕ} {q : U32} (h : d.act.loadSeqno i = some q) :
    q = BitVec.ofNat 32 d.pass := by
  rcases hact : d.act with _ | _ | _ | ⟨i', q'⟩ | _ | _ | _ | _ <;> rw [hact] at hcur h
  case args =>
    obtain ⟨rfl, hq⟩ := Option.ite_none_right_eq_some.mp h
    cases hq
    exact hcur
  all_goals cases h

/-! ## One step -/

/-- Where a step loads an element, `proj_out` holds the partial of its site and pass. -/
theorem out_current (hn : n < 2 ^ 31) (hr : (XGpu.lts P T stale g).Run τ s) {b : Fin n}
    {x : XAct V} {i e : ℕ} (hx : (∃ v, x = .push i e v) ∨ ∃ v w, x = .fold i e v w)
    (hs : XGpu.step P T stale g s (.blk b x) = some s') :
    written P.prog (passOf b (ctlOf τ)) (siteAt P.prog i) e τ = some (s.projOut e) := by
  have hb : Base P τ s := run_base hn hr
  have hbook := run_booked hn hr
  rcases hx with ⟨v, rfl⟩ | ⟨v, w, rfl⟩
  · obtain ⟨hp, hg, -⟩ := XGpu.step_data rfl hs
    obtain ⟨hrole, he, -⟩ := of_decide_eq_true hg
    exact hbook.partial_current hb hp he (Or.inl hrole)
  · obtain ⟨hp, hg, -⟩ := XGpu.step_data rfl hs
    obtain ⟨hrole, -, he, ho, hnot, -⟩ := of_decide_eq_true hg
    exact hbook.partial_current hb hp he (Or.inr ⟨hrole, ho, hnot⟩)

/-- The elements a block has copies of are copies of the current partial, at a first load. -/
theorem seenOut_of_firstLoad (hn : n < 2 ^ 31) (hr : (XGpu.lts P T stale g).Run τ s)
    (hold : ∀ d ∈ deeds τ, d.act.Current P.prog d.pass τ) {b : Fin n} {x : XAct V} {i e : ℕ}
    (hx : (∃ v, x = .push i e v) ∨ ∃ v w, x = .fold i e v w)
    (hs : XGpu.step P T stale g s (.blk b x) = some s')
    (hfirst : x.FirstLoad P.prog b (passOf b (ctlOf τ)) τ) :
    ∀ u ∈ s.seenOut b e, u = s.projOut e := by
  intro u hu
  have hnow := out_current hn hr hx hs
  obtain ⟨d, hd, hblk, hload⟩ := (run_copies hr).mem_out.mp hu
  have hthen := Deed.loadOut_current (hold d hd) hload
  have heq : written P.prog d.pass (siteAt P.prog d.act.instr) e τ =
      written P.prog (passOf b (ctlOf τ)) (siteAt P.prog i) e τ := by
    rcases hx with ⟨v, rfl⟩ | ⟨v, w, rfl⟩ <;>
      exact hfirst d hd hblk (Option.isSome_iff_exists.mpr ⟨u, hload⟩)
  rw [hthen, hnow] at heq
  exact Option.some.inj heq

/-- **A first load returns what the memory holds.** -/
theorem step_of_firstLoad (hn : n < 2 ^ 31) (hr : (XGpu.lts P T stale g).Run τ s)
    (hold : ∀ d ∈ deeds τ, d.act.Current P.prog d.pass τ) {b : Fin n} {x : XAct V}
    (hs : XGpu.step P T stale g s (.blk b x) = some s')
    (hfirst : x.FirstLoad P.prog b (passOf b (ctlOf τ)) τ) :
    XGpu.step P T false g s (.blk b x) = some s' := by
  obtain ⟨hg, c, hc, rfl⟩ := XGpu.step_blk.mp hs
  refine XGpu.step_blk.mpr ⟨?_, c, hc, rfl⟩
  cases x with
  | push i e v =>
    have hseen := seenOut_of_firstLoad hn hr hold (Or.inl ⟨v, rfl⟩) hs hfirst
    obtain ⟨h₁, h₂, h₃, h₄, hload⟩ := of_decide_eq_true hg
    exact decide_eq_true ⟨h₁, h₂, h₃, h₄, plainLoad_of_forall hload hseen⟩
  | fold i e v w =>
    have hseen := seenOut_of_firstLoad hn hr hold (Or.inr ⟨v, w, rfl⟩) hs hfirst
    obtain ⟨h₁, h₂, h₃, h₄, h₅, hload⟩ := of_decide_eq_true hg
    exact decide_eq_true ⟨h₁, h₂, h₃, h₄, h₅, plainLoad_of_forall hload hseen⟩
  | args i q =>
    obtain ⟨hp, -, -⟩ := XGpu.step_data (x := .args i q) rfl hs
    obtain ⟨h₁, h₂, hload⟩ := of_decide_eq_true hg
    have hnow : s.seqno i = _ := seqno_current hn hr hp h₁
    refine decide_eq_true ⟨h₁, h₂, plainLoad_of_forall hload fun u hu => ?_⟩
    obtain ⟨d, hd, hblk, hseq⟩ := (run_copies hr).mem_seqno.mp hu
    rw [Deed.loadSeqno_current (hold d hd) hseq, hnow]
    exact hfirst d hd hblk (Option.isSome_iff_exists.mpr ⟨u, hseq⟩)
  | ctl a => cases a <;> exact hg
  | _ => exact hg

/-- **A load that can only return what is current is a first load.** -/
theorem firstLoad_of_current (hr : (XGpu.lts P T true g).Run τ s)
    (hold : ∀ d ∈ deeds τ, d.act.Current P.prog d.pass τ) {b : Fin n} {x : XAct V}
    (hs : XGpu.step P T true g s (.blk b x) = some s')
    (hall : ∀ v q s'', XGpu.step P T true g s (.blk b (x.reload v q)) = some s'' →
      (x.reload v q).Current P.prog (passOf b (ctlOf τ)) τ) :
    x.FirstLoad P.prog b (passOf b (ctlOf τ)) τ := by
  have hcop := run_copies hr
  obtain ⟨hg, c, hc, -⟩ := XGpu.step_blk.mp hs
  cases x with
  | push i e v =>
    obtain ⟨h₁, h₂, h₃, h₄, -⟩ := of_decide_eq_true hg
    intro d hd hblk hsome
    obtain ⟨u, hload⟩ := Option.isSome_iff_exists.mp hsome
    have hu : plainLoad true (s.projOut e) (s.seenOut b e) u = true :=
      plainLoad_true.mpr (Or.inr (hcop.mem_out.mpr ⟨d, hd, hblk, hload⟩))
    have hcur := hall u 0 _ (XGpu.step_blk.mpr ⟨decide_eq_true ⟨h₁, h₂, h₃, h₄, hu⟩, c, hc, rfl⟩)
    exact (Deed.loadOut_current (hold d hd) hload).trans hcur.symm
  | fold i e v w =>
    obtain ⟨h₁, h₂, h₃, h₄, h₅, -⟩ := of_decide_eq_true hg
    intro d hd hblk hsome
    obtain ⟨u, hload⟩ := Option.isSome_iff_exists.mp hsome
    have hu : plainLoad true (s.projOut e) (s.seenOut b e) u = true :=
      plainLoad_true.mpr (Or.inr (hcop.mem_out.mpr ⟨d, hd, hblk, hload⟩))
    have hcur := hall u 0 _
      (XGpu.step_blk.mpr ⟨decide_eq_true ⟨h₁, h₂, h₃, h₄, h₅, hu⟩, c, hc, rfl⟩)
    exact (Deed.loadOut_current (hold d hd) hload).trans hcur.symm
  | args i q =>
    obtain ⟨h₁, h₂, -⟩ := of_decide_eq_true hg
    intro d hd hblk hsome
    obtain ⟨u, hseq⟩ := Option.isSome_iff_exists.mp hsome
    have hu : plainLoad true (s.seqno i) (s.seenSeqno b i) u = true :=
      plainLoad_true.mpr (Or.inr (hcop.mem_seqno.mpr ⟨d, hd, hblk, hseq⟩))
    have hcur := hall 0 u _ (XGpu.step_blk.mpr ⟨decide_eq_true ⟨h₁, h₂, hu⟩, c, hc, rfl⟩)
    exact (Deed.loadSeqno_current (hold d hd) hseq).symm.trans hcur
  | _ => trivial

/-! ## Runs -/

/-- **Runs of first loads are on current values.** -/
theorem current_of_firstLoads (hn : n < 2 ^ 31) (h : (XGpu.lts P T stale g).Run τ s) :
    FirstLoads P.prog τ → ∀ d ∈ deeds τ, d.act.Current P.prog d.pass τ := by
  refine Lts.Run.inv (I := fun τ _ => FirstLoads P.prog τ →
    ∀ d ∈ deeds τ, d.act.Current P.prog d.pass τ) ?_ ?_ h
  · rintro s rfl - d hd
    cases hd
  · intro τ s ev s' hr ih hs hfirst
    have hold : ∀ d ∈ deeds τ, d.act.Current P.prog d.pass τ := by
      cases ev with
      | blk b x => exact ih hfirst.2
      | _ => exact ih hfirst
    refine current_cons hn hr hold hs fun b x hev hx => ?_
    subst hev
    exact current_step hn hr hold hx (step_of_firstLoad hn hr hold hs hfirst.1)

/-- The seqnos that are loaded in the first pass are the number of the first pass. -/
theorem args_first_pass (hn : n < 2 ^ 31) (h : (XGpu.lts P T stale g).Run τ s) :
    ∀ d ∈ deeds τ, d.pass = 1 → ∀ i q, d.act = .args i q → q = 1 := by
  refine Lts.Run.inv (I := fun τ _ => ∀ d ∈ deeds τ, d.pass = 1 →
    ∀ i q, d.act = .args i q → q = 1) ?_ ?_ h
  · rintro s rfl d hd
    cases hd
  · rintro τ s ev s' hr ih hs d hd hpass i q hact
    cases ev with
    | blk b x =>
      by_cases hx : x.isData = true
      · rw [deeds_cons_data hx] at hd
        rcases List.mem_cons.mp hd with rfl | hd
        · -- a copy is from the same pass, since there is no earlier one
          obtain rfl : x = .args i q := hact
          have hpass : passOf b (ctlOf τ) = 1 := hpass
          obtain ⟨hp, hg, -⟩ := XGpu.step_data hx hs
          obtain ⟨hrole, -, hload⟩ := of_decide_eq_true hg
          rcases Bool.or_eq_true_iff.mp hload with hcur | hseen
          · have hnow : s.seqno i = _ := seqno_current hn hr hp hrole
            rw [of_decide_eq_true hcur, hnow, hpass]
            rfl
          · have hmem := of_decide_eq_true (Bool.and_eq_true_iff.mp hseen).2
            obtain ⟨d, hd, -, hseq⟩ := (run_copies hr).mem_seqno.mp hmem
            have hok := (run_booked hn hr).deed d hd
            have hle := hok.le
            rw [← ((run_base hn hr : Base P τ s).in_op hp).1, hpass] at hle
            rcases hd' : d.act with _ | _ | _ | ⟨i', q'⟩ | _ | _ | _ | _ <;> rw [hd'] at hseq
            case args =>
              obtain ⟨-, hq⟩ := Option.ite_none_right_eq_some.mp hseq
              cases hq
              exact ih d hd (hle.antisymm hok.pos) i' q hd'
            all_goals cases hseq
        · exact ih d hd hpass i q hact
      · rw [deeds, if_neg hx] at hd
        exact ih d hd hpass i q hact
    | ring | token | patch => exact ih d hd hpass i q hact

/-- A poll that has ended was for a seqno that the block has loaded in this pass. -/
theorem args_of_acquire (hn : n < 2 ^ 31) (h : (XGpu.lts P T stale g).Run τ s) :
    ∀ d ∈ deeds τ, ∀ i q v, d.act = .acquire i q v →
      ∃ d' ∈ deeds τ, d'.blk = d.blk ∧ d'.pass = d.pass ∧ d'.act = .args i q := by
  refine Lts.Run.inv (I := fun τ _ => ∀ d ∈ deeds τ, ∀ i q v, d.act = .acquire i q v →
    ∃ d' ∈ deeds τ, d'.blk = d.blk ∧ d'.pass = d.pass ∧ d'.act = .args i q) ?_ ?_ h
  · rintro s rfl d hd
    cases hd
  · rintro τ s ev s' hr ih hs d hd i q v hact
    cases ev with
    | blk b x =>
      by_cases hx : x.isData = true
      · rw [deeds_cons_data hx] at hd ⊢
        rcases List.mem_cons.mp hd with rfl | hd
        · obtain rfl : x = .acquire i q v := hact
          obtain ⟨hp, hg, -⟩ := XGpu.step_data hx hs
          obtain ⟨d', hd', hd''⟩ := (run_booked hn hr).args hp (of_decide_eq_true hg).2.2.1
          exact ⟨d', List.mem_cons_of_mem _ hd', hd''⟩
        · obtain ⟨d', hd', hd''⟩ := ih d hd i q v hact
          exact ⟨d', List.mem_cons_of_mem _ hd', hd''⟩
      · rw [deeds, if_neg hx] at hd ⊢
        exact ih d hd i q v hact
    | ring | token | patch => exact ih d hd i q v hact

/-- A block has loaded the seqno of each reduce in each earlier pass. -/
theorem exists_args (hn : n < 2 ^ 31) (h : (XGpu.lts P T stale g).Run τ s) {b : Fin n} {i t p : ℕ}
    (hrole : roleAt P.prog i = .reduce t) (hp : 1 ≤ p) (hlt : p < passOf b (ctlOf τ)) :
    ∃ d ∈ deeds τ, d.blk = b ∧ d.pass = p ∧ ∃ q, d.act = .args i q := by
  have hb : Base P τ s := run_base hn h
  have hfin : .finish i ∈ stepsIn P.prog b p (ctlOf τ) := by
    rw [(hb.logged b).past p hp hlt]
    exact finish_mem_walk (P.runs_of_isXchg (by rw [hrole]; rfl) b)
      (P.lt_length (by rw [hrole]; nofun))
  have hacq := ((run_booked hn h).finished b p i hfin).2 (by rw [P.siteAt_eq (Or.inr hrole), hrole])
  obtain ⟨j, q, v, hmem⟩ := exists_of_acquired hacq
  obtain ⟨d, hd, hblk, hpass, rfl, hact⟩ := mem_actsOf.mp hmem
  obtain ⟨d', hd', hblk', hpass', hact'⟩ := args_of_acquire hn h d hd _ q v hact
  exact ⟨d', hd', hblk'.trans hblk, hpass'.trans hpass, q, hact'⟩

/-- **From the second pass on a reduce may take the seqno of the first pass.** -/
theorem step_args_one (hn : n < 2 ^ 31) (h : (XGpu.lts P T true g).Run τ s) {b : Fin n} {i : ℕ}
    {q : U32} (hs : XGpu.step P T true g s (.blk b (.args i q)) = some s')
    (hpass : passOf b (ctlOf τ) ≠ 1) :
    ∃ s'', XGpu.step P T true g s (.blk b (.args i 1)) = some s'' := by
  obtain ⟨hg, c, hc, -⟩ := XGpu.step_blk.mp hs
  obtain ⟨h₁, h₂, -⟩ := of_decide_eq_true hg
  have hpos := passOf_pos b (ctlOf τ)
  obtain ⟨d, hd, hblk, hp, q', hact⟩ := exists_args hn h h₁ le_rfl (hpos.lt_of_ne hpass.symm)
  obtain rfl := args_first_pass hn h d hd hp i q' hact
  have hseen := (run_copies h).mem_seqno.mpr ⟨d, hd, hblk, by rw [hact]; exact if_pos rfl⟩
  have hload : plainLoad true (s.seqno i) (s.seenSeqno b i) 1 = true :=
    plainLoad_true.mpr (Or.inr hseen)
  exact ⟨_, XGpu.step_blk.mpr ⟨decide_eq_true ⟨h₁, h₂, hload⟩, c, hc, rfl⟩⟩

end Gpu

/-! ## The pair -/

section Pair

variable [DecidableEq V] [Add V] [Zero V] {P : SplitProgram n N} {T : ℕ}

omit [Zero V] in
/-- A step of a block of the pair with other values returned by its plain loads. -/
theorem Dual.step_reload {s : Dual n V} {g : Fin 2} {b : Fin n} {x : XAct V}
    (hread : x.reads P.prog (s.inbox g) = true) {v : V} {q : U32} :
    (∃ s', Dual.step P T true s (.dev g b (x.reload v q)) = some s') ↔
      ∃ c, XGpu.step P T true g (s.gpu g) (.blk b (x.reload v q)) = some c := by
  have hread' : (x.reload v q).reads P.prog (s.inbox g) = true := by cases x <;> exact hread
  refine ⟨?_, ?_⟩
  · rintro ⟨s', hs⟩
    obtain ⟨-, c, hc, -⟩ := Dual.step_dev.mp hs
    exact ⟨c, hc⟩
  · rintro ⟨c, hc⟩
    exact ⟨_, Dual.step_dev.mpr ⟨hread', c, hc, rfl⟩⟩

/-- **The strong-read rule holds at first loads and never beyond.** In every run of the pair, with
whatever its plain loads have returned:

* if every plain load of the run was a first load, every element that was pushed or folded is what
  the contract GEMV of that site and pass has written, and every seqno that was loaded, published or
  waited for is the number of the pass;
* if all of that is so until now, then whatever the next step on data can load is current if and
  only if it is a first load;
* a reduce that loads its seqno in a pass of another number than 1 may load the seqno of the first
  pass, which is not current. -/
theorem strong_read (hn : n < 2 ^ 31) {τ : List (DEv n V)} {s : Dual n V}
    (h : (Dual.lts P T true).Run τ s) :
    ((∀ g, FirstLoads P.prog (sideOf g τ)) →
      ∀ g, ∀ d ∈ deeds (sideOf g τ), d.act.Current P.prog d.pass (sideOf g τ)) ∧
    ((∀ g, ∀ d ∈ deeds (sideOf g τ), d.act.Current P.prog d.pass (sideOf g τ)) →
      ∀ g b x s', x.isData = true → Dual.step P T true s (.dev g b x) = some s' →
        ((∀ v q, (∃ s'', Dual.step P T true s (.dev g b (x.reload v q)) = some s'') →
          (x.reload v q).Current P.prog (passOf b (ctlOf (sideOf g τ))) (sideOf g τ)) ↔
            x.FirstLoad P.prog b (passOf b (ctlOf (sideOf g τ))) (sideOf g τ))) ∧
    ∀ g b i q s', Dual.step P T true s (.dev g b (.args i q)) = some s' →
      passOf b (ctlOf (sideOf g τ)) % 2 ^ 32 ≠ 1 →
      (∃ s'', Dual.step P T true s (.dev g b (.args i 1)) = some s'') ∧
        ¬ (XAct.args i 1 : XAct V).Current P.prog (passOf b (ctlOf (sideOf g τ))) (sideOf g τ) := by
  have hok := run_dualOk hn h
  refine ⟨fun hfirst g => current_of_firstLoads hn (hok.run g) (hfirst g),
    fun hcur g b x s' hx hs => ?_, fun g b i q s' hs hpass => ⟨?_, fun hone => ?_⟩⟩
  · obtain ⟨hread, c, hc, -⟩ := Dual.step_dev.mp hs
    refine ⟨fun hall => firstLoad_of_current (hok.run g) (hcur g) hc fun v q c' hc' => ?_,
      fun hfirst v q hs' => ?_⟩
    · exact hall v q ((Dual.step_reload hread).mpr ⟨c', hc'⟩)
    · obtain ⟨c', hc'⟩ := (Dual.step_reload hread).mp hs'
      have hdata : (x.reload v q).isData = true := by cases x <;> exact hx
      exact current_step hn (hok.run g) (hcur g) hdata
        (step_of_firstLoad hn (hok.run g) (hcur g) hc' (XAct.firstLoad_reload.mpr hfirst))
  · obtain ⟨-, c, hc, -⟩ := Dual.step_dev.mp hs
    refine (Dual.step_reload (x := .args i q) (v := 0) rfl).mpr (step_args_one hn (hok.run g) hc ?_)
    intro hone
    rw [hone] at hpass
    exact hpass rfl
  · have hmod := congrArg BitVec.toNat hone
    rw [BitVec.toNat_ofNat] at hmod
    exact hpass hmod.symm

end Pair

/-! ## A run with stale copies -/

/-- Both GPUs go through the end of the first pass, the host returns and begins the second. -/
def oneSiteSecond : List (DEv 1 ℕ) :=
  [.host (.ring 0), .host (.sync 0), .token 1 5, .token 0 5, .patch 1 4 2, .patch 0 4 2,
    .host (.enqueue 1), .host (.enqueue 0), .host (.call 5), .host .ret, .host (.done1 true),
    .host (.done0 true), .host (.noErr 1), .host (.noErr 0)] ++
  [.ctl .publish, .ctl .sample, .ctl (.leave 5), .ctl (.arrive 5),
    .ctl (.cross 5)].map (.dev 1 0) ++
  [.ctl .publish, .ctl .sample, .ctl (.leave 5), .ctl (.arrive 5), .ctl (.cross 5)].map (.dev 0 0)

/-- In the second pass the partial of GPU 0 is 6, but block 0 still has the 3 it has loaded in the
first pass, and the seqno 1. With that seqno its poll ends at once, and the fold takes what the peer
has sent in the first pass. -/
def oneSiteStale : List (DEv 1 ℕ) :=
  [.fold 4 0 3 4, .acquire 4 1 1, .publish 4 1, .args 4 1, .ctl (.begin 4), .ctl (.leave 3),
    .ctl (.arrive 3), .ctl (.cross 3), .ctl (.finish 2), .push 2 0 3, .ctl (.begin 2),
    .ctl (.leave 1), .ctl (.arrive 1), .ctl (.cross 1), .ctl (.finish 0), .gemv 0 0 6,
    .ctl (.begin 0), .ctl (.start 2), .ctl (.forward 2), .ctl (.hear 2)].map (.dev 0 0) ++
  oneSiteSecond ++ oneSiteRun

/-- The second pass of GPU 0 on current values, up to the reduce. -/
def oneSiteAgain : List (DEv 1 ℕ) :=
  [.ctl (.begin 4), .ctl (.leave 3), .ctl (.arrive 3), .ctl (.cross 3), .ctl (.finish 2),
    .push 2 0 6, .ctl (.begin 2), .ctl (.leave 1), .ctl (.arrive 1), .ctl (.cross 1),
    .ctl (.finish 0), .gemv 0 0 6, .ctl (.begin 0), .ctl (.start 2), .ctl (.forward 2),
    .ctl (.hear 2)].map (.dev 0 0) ++ oneSiteSecond ++ oneSiteRun

/-- The first pass of the one-site pair is one of first loads, and goes right. In the second pass
the seqno may be that of the first. -/
theorem strong_read_oneSite :
    (∃ s, (Dual.lts oneSite 32 true).Run oneSiteRun s ∧
      ∀ g, ∀ d ∈ deeds (sideOf g oneSiteRun),
        d.act.Current oneSite.prog d.pass (sideOf g oneSiteRun)) ∧
    ∃ s, (Dual.lts oneSite 32 true).Run oneSiteAgain s ∧
      (∃ s', Dual.step oneSite 32 true s (.dev 0 0 (.args 4 2)) = some s') ∧
      ∃ s', Dual.step oneSite 32 true s (.dev 0 0 (.args 4 1)) = some s' := by
  obtain ⟨s, -, hr⟩ := Lts.exists_run_of_isSome (Dual.step oneSite 32 true) (Dual.zero 1)
    oneSiteRun (by decide)
  obtain ⟨s₂, -, hr₂⟩ := Lts.exists_run_of_isSome (Dual.step oneSite 32 true) (Dual.zero 1)
    (.dev 0 0 (.args 4 2) :: oneSiteAgain) (by decide)
  obtain ⟨s₁, hr₁, hs⟩ := hr₂.of_cons
  have hpass : passOf (0 : Fin 1) (ctlOf (sideOf 0 oneSiteAgain)) = 2 := by decide
  obtain ⟨hone, -⟩ := (strong_read (by decide) hr₁).2.2 0 0 4 2 s₂ hs (by rw [hpass]; decide)
  exact ⟨⟨s, hr, (strong_read (by decide) hr).1 (by decide)⟩, s₁, hr₁, ⟨s₂, hs⟩, hone⟩

/-- **Plain loads break the exchange**: a run in which, in the second pass, a push sends the partial
of the first pass, and a reduce publishes and waits for the seqno of the first pass. -/
theorem not_strong_read :
    ∃ s, (Dual.lts oneSite 32 true).Run oneSiteStale s ∧
      (∃ d ∈ deeds (sideOf 0 oneSiteStale), d.pass = 2 ∧ d.act = .push 2 0 3 ∧
        ¬ d.act.Current oneSite.prog d.pass (sideOf 0 oneSiteStale)) ∧
      (∃ d ∈ deeds (sideOf 0 oneSiteStale), d.pass = 2 ∧ d.act = .publish 4 1 ∧
        ¬ d.act.Current oneSite.prog d.pass (sideOf 0 oneSiteStale)) ∧
      ∃ d ∈ deeds (sideOf 0 oneSiteStale), d.pass = 2 ∧ d.act = .acquire 4 1 1 ∧
        ¬ d.act.Current oneSite.prog d.pass (sideOf 0 oneSiteStale) := by
  obtain ⟨s, -, hr⟩ := Lts.exists_run_of_isSome (Dual.step oneSite 32 true) (Dual.zero 1)
    oneSiteStale (by decide)
  have hwritten : written oneSite.prog 2 0 0 (sideOf 0 oneSiteStale) = some 6 := by decide
  refine ⟨s, hr, ⟨⟨0, 2, .push 2 0 3⟩, by decide, rfl, rfl, fun hcur => ?_⟩,
    ⟨⟨0, 2, .publish 4 1⟩, by decide, rfl, rfl, fun hcur => ?_⟩,
    ⟨⟨0, 2, .acquire 4 1 1⟩, by decide, rfl, rfl, fun hcur => ?_⟩⟩
  · have hsent : written oneSite.prog 2 0 0 (sideOf 0 oneSiteStale) = some 3 := hcur
    rw [hwritten] at hsent
    cases hsent
  · have hseq : (1 : U32) = BitVec.ofNat 32 2 := hcur
    cases hseq
  · have hseq : (1 : U32) = BitVec.ofNat 32 2 := hcur
    cases hseq

end Megakernel
