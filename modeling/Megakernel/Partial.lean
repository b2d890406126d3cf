import Megakernel.Books

/-!
# The partial and the seqno are current

What `op_xchg_push` sends and `op_xchg_reduce` folds. "The last store to
`proj_out[e]` before the push of site `s`" is located from the positions of the
instructions: it is the contract GEMV's, because the log is ordered by window and
nothing else writes `proj_out` there (`Booked.partial_current`, with stale lines
or without). Where plain loads return the current value, every step of a run
therefore reads the partial of its own site and pass, and the number of its own
pass (`run_current`).
-/

namespace Megakernel

variable {V : Type*} {n N : ℕ}

/-! ## What the log says about an op -/

section Acts

/-- The element a step is about. -/
def XAct.elem : XAct V → Option ℕ
  | .gemv _ e _ | .push _ e _ | .fold _ e _ _ => some e
  | _ => none

/-- An op has dealt with an element only by a step that did so, -/
theorem exists_of_mem_elems {e : ℕ} {l : List (XAct V)} (h : e ∈ (OpLocal.after l).elems) :
    ∃ x ∈ l, x.elem = some e := by
  induction l with
  | nil => cases h
  | cons x l ih =>
    rw [OpLocal.after, List.foldr_cons, ← OpLocal.after] at h
    by_cases hx : x.elem = some e
    · exact ⟨x, List.mem_cons_self, hx⟩
    · suffices hold : e ∈ (OpLocal.after l).elems by
        obtain ⟨y, hy, hye⟩ := ih hold
        exact ⟨y, List.mem_cons_of_mem x hy, hye⟩
      cases x with
      | ctl a =>
        cases a with
        | begin => cases h
        | _ => exact h
      | gemv i e' | push i e' | fold i e' =>
        exact (List.mem_cons.mp h).resolve_left fun he => hx (congrArg some he.symm)
      | _ => exact h

/-- and every such step counts. -/
theorem mem_elems_of_mem {e : ℕ} {l : List (XAct V)} (hl : ∀ x ∈ l, x.isData = true) {x : XAct V}
    (hx : x ∈ l) (he : x.elem = some e) : e ∈ (OpLocal.after l).elems := by
  induction l with
  | nil => cases hx
  | cons y l ih =>
    rw [OpLocal.after, List.foldr_cons, ← OpLocal.after]
    rcases List.mem_cons.mp hx with rfl | hx
    · cases x with
      | gemv | push | fold =>
        cases he
        exact List.mem_cons_self
      | _ => cases he
    · have hy := hl y List.mem_cons_self
      exact (XAct.mark_mono hy _).1 e (ih (fun z hz => hl z (List.mem_cons_of_mem y hz)) hx)

/-- An op knows its arguments from a load of them, -/
theorem exists_of_args {q : U32} {l : List (XAct V)} (h : (OpLocal.after l).args = some q) :
    ∃ i, .args i q ∈ l := by
  induction l with
  | nil => cases h
  | cons x l ih =>
    rw [OpLocal.after, List.foldr_cons, ← OpLocal.after] at h
    have hold : (OpLocal.after l).args = some q → ∃ i, .args i q ∈ x :: l := fun h => by
      obtain ⟨i, hi⟩ := ih h
      exact ⟨i, List.mem_cons_of_mem x hi⟩
    cases x with
    | ctl a =>
      cases a with
      | begin => cases h
      | _ => exact hold h
    | args i q' =>
      cases h
      exact ⟨i, List.mem_cons_self⟩
    | _ => exact hold h

/-- it has published its number in a step, -/
theorem exists_of_published {l : List (XAct V)} (h : (OpLocal.after l).published = true) :
    ∃ i q, .publish i q ∈ l := by
  induction l with
  | nil => cases h
  | cons x l ih =>
    rw [OpLocal.after, List.foldr_cons, ← OpLocal.after] at h
    have hold : (OpLocal.after l).published = true → ∃ i q, .publish i q ∈ x :: l := fun h => by
      obtain ⟨i, q, hi⟩ := ih h
      exact ⟨i, q, List.mem_cons_of_mem x hi⟩
    cases x with
    | ctl a =>
      cases a with
      | begin => cases h
      | _ => exact hold h
    | publish i q => exact ⟨i, q, List.mem_cons_self⟩
    | _ => exact hold h

/-- and it has heard the peer's in a step. So what an op knows can always be traced back to a step
in the history. -/
theorem exists_of_acquired {l : List (XAct V)} (h : (OpLocal.after l).acquired = true) :
    ∃ i q v, .acquire i q v ∈ l := by
  induction l with
  | nil => cases h
  | cons x l ih =>
    rw [OpLocal.after, List.foldr_cons, ← OpLocal.after] at h
    have hold : (OpLocal.after l).acquired = true → ∃ i q v, .acquire i q v ∈ x :: l := fun h => by
      obtain ⟨i, q, v, hi⟩ := ih h
      exact ⟨i, q, v, List.mem_cons_of_mem x hi⟩
    cases x with
    | ctl a =>
      cases a with
      | begin => cases h
      | _ => exact hold h
    | acquire i q v => exact ⟨i, q, v, List.mem_cons_self⟩
    | _ => exact hold h

end Acts

/-! ## The partial is complete and current -/

section Values

variable [Add V] [Zero V] {P : SplitProgram n N} {T : ℕ} {g : Fin 2} {τ : List (XEv n V)}
  {s s' : XGpu n V}

omit [Add V] [Zero V] in
/-- The steps a role allows on an element. -/
theorem XAct.Fits.elem {b : ℕ} {x : XAct V} (h : x.Fits P T b) {e : ℕ} (he : x.elem = some e) :
    P.owns T b x.instr e = true ∧
      ((∃ v, x = .gemv x.instr e v ∧ roleAt P.prog x.instr = .gemv (siteAt P.prog x.instr)) ∨
        (∃ v, x = .push x.instr e v ∧ roleAt P.prog x.instr = .push (siteAt P.prog x.instr)) ∨
        ∃ v w, x = .fold x.instr e v w ∧
          roleAt P.prog x.instr = .reduce (siteAt P.prog x.instr)) := by
  cases x with
  | gemv i e' v =>
    cases he
    exact ⟨h.2.2, Or.inl ⟨v, rfl, h.1⟩⟩
  | push i e' v =>
    cases he
    exact ⟨h.2.2, Or.inr (Or.inl ⟨v, rfl, h.1⟩)⟩
  | fold i e' v w =>
    cases he
    exact ⟨h.2.2, Or.inr (Or.inr ⟨v, w, rfl, h.1⟩)⟩
  | _ => cases he

/-- An op that everybody has left behind has handled each of its elements. It is what the
completeness of an op at its return becomes once the boundary has been crossed. -/
theorem Booked.handled (hb : Base P τ s) (h : Booked P T g τ s) {p i e : ℕ} (hp : 1 ≤ p)
    (he : e < N) {b : Fin n} (ho : P.owns T b i e = true) (hr : runs P.prog b i = true)
    (harr : P.window p i < arrived b (ctlOf τ)) :
    ∃ d ∈ deeds τ, d.blk = b ∧ d.pass = p ∧ d.act.instr = i ∧ d.act.elem = some e := by
  have hfin := (hb.logged b).finish_mem hb.lock hb.inv hp hr harr
  obtain ⟨x, hx, hxe⟩ := exists_of_mem_elems ((h.finished b p i hfin).1 e he ho)
  obtain ⟨d, hd, hblk, hpass, hi, rfl⟩ := mem_actsOf.mp hx
  exact ⟨d, hd, hblk, hpass, hi, hxe⟩

/-- Every step of the current op on an element is noted in the local state. -/
theorem Booked.mem_elems (h : Booked P T g τ s) {d : Deed n V} (hd : d ∈ deeds τ)
    (hp : (s.ctl.block d.blk).pc = .op d.act.instr) (hpass : d.pass = passOf d.blk (ctlOf τ))
    {e : ℕ} (he : d.act.elem = some e) : e ∈ (s.loc d.blk).elems := by
  rw [h.loc d.blk _ hp]
  refine mem_elems_of_mem (fun x hx => ?_) (mem_actsOf.mpr ⟨d, hd, rfl, hpass, rfl, rfl⟩) he
  obtain ⟨d', hd', -, -, -, rfl⟩ := mem_actsOf.mp hx
  have hfits := (h.deed d' hd').fits
  rcases hact : d'.act with a | _ | _ | _ | _ | _ | _ | _
  · rw [hact] at hfits
    exact hfits.elim
  all_goals rfl

omit [Zero V] in
/-- What a step stores for an element it stores for its own. -/
theorem XAct.elem_of_storeTo {x : XAct V} {e : ℕ} (h : x.storeTo g e ≠ none) :
    x.elem = some e := by
  cases x with
  | gemv i e' v =>
    by_cases he : e' = e
    · exact congrArg some he
    · exact absurd (if_neg he) h
  | fold i e' v w =>
    by_cases he : e' = e
    · exact congrArg some he
    · exact absurd (if_neg he) h
  | _ => exact absurd rfl h

/-- **The partial is current.** In a push, and in a reduce before the fold of the element,
`proj_out` holds what the contract GEMV of this site and pass has written. -/
theorem Booked.partial_current (hb : Base P τ s) (h : Booked P T g τ s) {b : Fin n} {i t e : ℕ}
    (hp : (s.ctl.block b).pc = .op i) (he : e < N)
    (hi : roleAt P.prog i = .push t ∨
      roleAt P.prog i = .reduce t ∧ P.owns T b i e = true ∧ e ∉ (s.loc b).elems) :
    written P.prog (passOf b (ctlOf τ)) t e τ = some (s.projOut e) := by
  obtain ⟨-, -, harr, -⟩ := hb.in_op hp
  have hpos := passOf_pos b (ctlOf τ)
  -- the push of the site, and where `i` stands relative to it
  obtain ⟨k, hk, hki⟩ : ∃ k, roleAt P.prog k = .push t ∧ (i = k ∨ i = k + 2) := by
    rcases hi with hi | ⟨hi, -⟩
    · exact ⟨i, hi, Or.inl rfl⟩
    · obtain ⟨k, hk, -, hki⟩ := P.exists_push hi
      exact ⟨k, hk, Or.inr hki⟩
  have hbnd : bnd P.prog k ≤ bnd P.prog i ∧ bnd P.prog i ≤ bnd P.prog k + 1 := by
    rcases hki with rfl | rfl
    · exact ⟨le_rfl, Nat.le_succ _⟩
    · rw [P.bnd_reduce hk]
      exact ⟨Nat.le_succ _, le_rfl⟩
  -- the contract GEMV has stored the element
  obtain ⟨j, hj, hrow, hruns⟩ := P.covered k t hk e he
  have hjk := P.gemv_before j k t hj hk
  have hwin : P.window (passOf b (ctlOf τ)) j < P.window (passOf b (ctlOf τ)) i :=
    SplitProgram.window_lt (hjk.trans_le hbnd.1)
  have hown : P.owns T (⟨P.rows j e, hrow⟩ : Fin n) j e = true := by
    obtain ⟨ins, hins, -, hrole⟩ := P.exists_of_role (i := j) (by rw [hj]; simp)
    rw [hj] at hrole
    simp [SplitProgram.owns, hins, hrole]
  obtain ⟨d, hd, -, hdp, hdi, hde⟩ := h.handled hb hpos he hown hruns
    (hwin.trans_le (hb.window_le hp _))
  have hstore : d.act.storeTo g e ≠ none := by
    obtain ⟨-, ⟨v, hv, -⟩ | ⟨v, -, hr⟩ | ⟨v, w, -, hr⟩⟩ := (h.deed d hd).fits.elem hde
    · rw [hv]
      simp [XAct.storeTo]
    · rw [hdi, hj] at hr
      cases hr
    · rw [hdi, hj] at hr
      cases hr
  -- the newest store to the element is no older, so it is the contract GEMV's as well
  obtain ⟨a, ha, hR, hastore, hfind, hfine⟩ := exists_newest h.sorted
    (fun d => d.act.storeTo g e) hd hstore
  have haok := h.deed a ha
  have hlo : P.window (passOf b (ctlOf τ)) j ≤ P.window a.pass a.act.instr := by
    rw [← hdp, ← hdi]
    rcases hR with rfl | hR
    · exact le_rfl
    · exact hR
  obtain ⟨hap, hlo', hhi'⟩ := SplitProgram.window_between hpos haok.pos hlo
    ((haok.window b).trans harr.le)
  have hae := XAct.elem_of_storeTo hastore
  obtain ⟨haown, hcases⟩ := haok.fits.elem hae
  have hwrites : (roleAt P.prog a.act.instr).writes = true := by
    rcases hcases with ⟨v, -, hr⟩ | ⟨v, hv, -⟩ | ⟨v, w, -, hr⟩
    · rw [hr]
      rfl
    · rw [hv] at hastore
      exact absurd rfl hastore
    · rw [hr]
      rfl
  have hout := h.out e
  rw [hfind] at hout
  rcases P.writer_between hj hk hwrites hlo' (hhi'.trans hbnd.2) with hgemv | hred
  · obtain ⟨v, hv, hr⟩ | ⟨v, -, hr⟩ | ⟨v, w, -, hr⟩ := hcases
    · have hsite : siteAt P.prog a.act.instr = t := by
        rw [hgemv] at hr
        exact (Role.gemv.inj hr).symm
      have hval : (if a.pass = passOf b (ctlOf τ) then a.act.partialOf P.prog t e else none) =
          some v := by
        rw [if_pos hap, hv]
        simp only [XAct.partialOf, hsite, and_self, if_true]
      rw [written, hfine _ (fun x hx hnone => ?_) (by rw [hval]; simp), hval, hout, hv]
      · simp [XAct.storeTo]
      · -- a step of a partial is a store
        split
        · rcases hact : x.act with _ | ⟨i', e', v'⟩ | _ | _ | _ | _ | _ | _
          case gemv =>
            rw [hact] at hnone
            by_cases hee : e' = e
            · simp [XAct.storeTo, hee] at hnone
            · simp [XAct.partialOf, hee]
          all_goals rfl
        · rfl
    · rw [hgemv] at hr
      cases hr
    · rw [hgemv] at hr
      cases hr
  · -- the reduce itself: the fold of the element has not happened
    have hik : i = k + 2 := by
      rcases hki with rfl | hki
      · rw [hred, P.bnd_reduce hk] at hhi'
        exact absurd hhi' (Nat.not_succ_le_self _)
      · exact hki
    rcases hi with hi | ⟨-, ho, hnot⟩
    · rw [hik, (P.push_next k t hk).2] at hi
      cases hi
    · rw [← hik] at hred
      rw [hred] at haown
      obtain rfl : a.blk = b := Fin.ext (P.owns_unique haown ho)
      exact absurd (h.mem_elems ha (by rw [hred]; exact hp) hap hae) hnot

omit [Zero V] in
/-- **The partial is final** once everybody has arrived at its push: no contract GEMV of this site
and pass can still be in progress, because it stands in a window before. -/
theorem written_stable [DecidableEq V] {stale : Bool} (hb : Base P τ s) {ev : XEv n V}
    (hs : XGpu.step P T stale g s ev = some s') {p k t : ℕ} (hk : roleAt P.prog k = .push t)
    (harr : ∀ j, P.window p k ≤ arrived j (ctlOf τ)) (e : ℕ) :
    written P.prog p t e (ev :: τ) = written P.prog p t e τ := by
  refine written_cons_of_none fun b x hev hx hpass => ?_
  subst hev
  cases x with
  | gemv i e' v =>
    rw [XAct.partialOf, if_neg]
    rintro ⟨hsite, -⟩
    obtain ⟨hp, hg, -⟩ := XGpu.step_data hx hs
    obtain ⟨hrole, -⟩ := of_decide_eq_true hg
    -- a GEMV of the site is in a window that its block has left behind
    have hlt := P.gemv_before i k t (hsite ▸ hrole) hk
    obtain ⟨-, -, hat, -⟩ := hb.in_op hp
    have hle := harr b
    rw [hat, hpass] at hle
    exact absurd (SplitProgram.window_lt (p := p) hlt) (not_lt.mpr hle)
  | _ => rfl

end Values

/-! ## The seqno in the program -/

section Seqno

/-- A step of a block does not patch the program. -/
theorem XAct.effect_seqno [Add V] {prog : List (Instr XArgs)} {g : Fin 2} (x : XAct V)
    (s : XGpu n V) (b : Fin n) : (x.effect prog g s b).seqno = s.seqno := by
  cases x <;> rfl

variable [DecidableEq V] [Add V] [Zero V] {P : SplitProgram n N} {T : ℕ} {g : Fin 2}
  {τ : List (XEv n V)} {s s' : XGpu n V} {stale : Bool}

/-- While a pass is in flight every reduce carries its number, since the host patches only before it
rings. -/
theorem run_armed (hn : n < 2 ^ 31) (h : (XGpu.lts P T stale g).Run τ s) :
    ¬ s.ctl.Quiet → ∀ i ∈ xchgIdx P.prog, s.seqno i = s.ctl.cells.doorbellHost := by
  refine Lts.Run.inv (I := fun _ s => ¬ s.ctl.Quiet → ∀ i ∈ xchgIdx P.prog,
    s.seqno i = s.ctl.cells.doorbellHost) ?_ ?_ h
  · rintro s rfl hq
    exact absurd rfl hq
  · rintro τ s e s' hr ih hs hq i hi
    have hb : Base P τ s := run_base hn hr
    cases e with
    | blk b x =>
      obtain ⟨-, c, hc, rfl⟩ := XGpu.step_blk.mp hs
      obtain ⟨c', k, hstep, rfl⟩ := Gpu.step_blk.mp hc
      obtain ⟨hdoor, -⟩ := hstep.host_cells
      simp only [hdoor, XAct.effect_seqno]
      refine ih (fun hquiet => hq ?_) i hi
      have hdone := hb.lock.done_of_quiet hquiet
      rw [Gpu.Quiet, hb.lock.done_eq_of_quiet hdone hstep, hdoor]
      exact hquiet
    | ring =>
      obtain ⟨harmed, c, hc, rfl⟩ := XGpu.step_ring.mp hs
      obtain ⟨-, rfl⟩ := Gpu.step_ring.mp hc
      exact harmed i hi
    | token t =>
      obtain ⟨c, hc, rfl⟩ := XGpu.step_token.mp hs
      obtain ⟨-, rfl⟩ := Gpu.step_token.mp hc
      exact ih hq i hi
    | patch j q =>
      obtain ⟨hquiet, rfl⟩ := XGpu.step_patch.mp hs
      exact absurd hquiet hq

end Seqno

/-! ## With current loads -/

section Current

variable {P : SplitProgram n N} {T : ℕ} {g : Fin 2} {τ : List (XEv n V)} {s s' : XGpu n V}

/-- **What the exchange reads is of this pass and site**: the partial is what the contract GEMV
wrote, the seqno is the number of the pass. -/
def XAct.Current (prog : List (Instr XArgs)) (p : ℕ) (τ : List (XEv n V)) : XAct V → Prop
  | .push i e v | .fold i e v _ => written prog p (siteAt prog i) e τ = some v
  | .args _ q | .publish _ q | .wait _ q _ | .acquire _ q _ => q = BitVec.ofNat 32 p
  | .ctl _ | .gemv _ _ _ => True

/-- The windows of pushes and folds are behind the contract GEMV for good. -/
theorem DeedOk.exists_push {σ : List (Ev n)} {d : Deed n V} (h : DeedOk P T σ d) {i e : ℕ}
    (hact : (∃ v, d.act = .push i e v) ∨ ∃ v w, d.act = .fold i e v w) :
    ∃ k, roleAt P.prog k = .push (siteAt P.prog i) ∧ ∀ j, P.window d.pass k ≤ arrived j σ := by
  have hfits := h.fits
  have hwin := h.window
  rcases hact with ⟨v, hv⟩ | ⟨v, w, hv⟩
  · rw [hv] at hfits hwin
    exact ⟨i, hfits.1, hwin⟩
  · rw [hv] at hfits hwin
    obtain ⟨k, hk, hbnd, -⟩ := P.exists_push hfits.1
    refine ⟨k, hk, fun j => (Nat.le_of_lt (SplitProgram.window_lt ?_)).trans (hwin j)⟩
    rw [show XAct.instr (.fold i e v w) = i from rfl, hbnd]
    exact Nat.lt_succ_self _

variable [DecidableEq V] [Add V] [Zero V]

omit [DecidableEq V] in
/-- The arguments of the op a block is in. -/
theorem Booked.args (h : Booked P T g τ s) {b : Fin n} {i : ℕ}
    (hp : (s.ctl.block b).pc = .op i) {q : U32} (hq : (s.loc b).args = some q) :
    ∃ d ∈ deeds τ, d.blk = b ∧ d.pass = passOf b (ctlOf τ) ∧ d.act = .args i q := by
  rw [h.loc b i hp] at hq
  obtain ⟨j, hj⟩ := exists_of_args hq
  obtain ⟨d, hd, hblk, hpass, rfl, hact⟩ := mem_actsOf.mp hj
  exact ⟨d, hd, hblk, hpass, hact⟩

/-- The seqno field of a reduce holds the number of the pass its blocks are in. -/
theorem seqno_current (hn : n < 2 ^ 31) {stale : Bool} (hr : (XGpu.lts P T stale g).Run τ s)
    {b : Fin n} {i t : ℕ} (hp : (s.ctl.block b).pc = .op i) (hrole : roleAt P.prog i = .reduce t) :
    s.seqno i = BitVec.ofNat 32 (passOf b (ctlOf τ)) := by
  have hb : Base P τ s := run_base hn hr
  obtain ⟨hpass, hdone, -⟩ := hb.in_op hp
  have hdoor := hb.stops.door
  have hquiet : ¬ s.ctl.Quiet := by
    intro hquiet
    have := hb.lock.done_of_quiet hquiet
    omega
  have hseq := run_armed hn hr hquiet i (P.mem_xchgIdx hrole)
  refine hseq.trans (BitVec.eq_of_toNat_eq ?_)
  rw [hpass, ← hdoor, BitVec.ofNat_toNat, BitVec.setWidth_eq]

/-- **A step whose plain load returns what the memory holds reads what is current**, in any run
whose loads have been current so far. -/
theorem current_step (hn : n < 2 ^ 31) {stale : Bool} (hr : (XGpu.lts P T stale g).Run τ s)
    (hold : ∀ d ∈ deeds τ, d.act.Current P.prog d.pass τ) {b : Fin n} {x : XAct V}
    (hx : x.isData = true) (hs : XGpu.step P T false g s (.blk b x) = some s') :
    x.Current P.prog (passOf b (ctlOf τ)) τ := by
  have hb : Base P τ s := run_base hn hr
  have hbook := run_booked hn hr
  obtain ⟨hp, hg, -⟩ := XGpu.step_data hx hs
  have hargs : ∀ q, (s.loc b).args = some q → q = BitVec.ofNat 32 (passOf b (ctlOf τ)) := by
    intro q hq
    obtain ⟨d, hd, -, hpass, hact⟩ := hbook.args hp hq
    have hcur := hold d hd
    rw [hact, hpass] at hcur
    exact hcur
  cases x with
  | ctl => cases hx
  | gemv => trivial
  | push i e v =>
    obtain ⟨hrole, he, -, -, hload⟩ := of_decide_eq_true hg
    obtain rfl : v = s.projOut e := by simpa [plainLoad] using hload
    exact hbook.partial_current hb hp he (Or.inl hrole)
  | fold i e v w =>
    obtain ⟨hrole, -, he, ho, hnot, hload⟩ := of_decide_eq_true hg
    obtain rfl : v = s.projOut e := by simpa [plainLoad] using hload
    exact hbook.partial_current hb hp he (Or.inr ⟨hrole, ho, hnot⟩)
  | args i q =>
    obtain ⟨hrole, -, hload⟩ := of_decide_eq_true hg
    obtain rfl : q = s.seqno i := by simpa [plainLoad] using hload
    exact seqno_current hn hr hp hrole
  | publish i q => exact hargs q (of_decide_eq_true hg).2.2.1
  | wait i q v => exact hargs q (of_decide_eq_true hg).2.2.1
  | acquire i q v => exact hargs q (of_decide_eq_true hg).2.2.1

/-- What was current stays so: later steps do not change the partial of a site that has been pushed,
nor the number of a pass. -/
theorem current_mono (hn : n < 2 ^ 31) {stale : Bool} (hr : (XGpu.lts P T stale g).Run τ s)
    {d : Deed n V} (hd : DeedOk P T (ctlOf τ) d) (hcur : d.act.Current P.prog d.pass τ)
    {ev : XEv n V} (hs : XGpu.step P T stale g s ev = some s') :
    d.act.Current P.prog d.pass (ev :: τ) := by
  have hb : Base P τ s := run_base hn hr
  have hstable : ∀ {i e}, ((∃ v, d.act = .push i e v) ∨ ∃ v w, d.act = .fold i e v w) →
      written P.prog d.pass (siteAt P.prog i) e (ev :: τ) =
        written P.prog d.pass (siteAt P.prog i) e τ := by
    intro i e hact
    obtain ⟨k, hk, harr⟩ := hd.exists_push hact
    exact written_stable hb hs hk harr e
  rcases hact : d.act with a | _ | ⟨i, e, v⟩ | _ | _ | _ | _ | ⟨i, e, v, w⟩ <;> rw [hact] at hcur
  case push => exact (hstable (Or.inl ⟨v, hact⟩)).trans hcur
  case fold => exact (hstable (Or.inr ⟨v, w, hact⟩)).trans hcur
  all_goals exact hcur

/-- If every step so far was on current values and the next one is, all of them are. -/
theorem current_cons (hn : n < 2 ^ 31) {stale : Bool} (hr : (XGpu.lts P T stale g).Run τ s)
    (hold : ∀ d ∈ deeds τ, d.act.Current P.prog d.pass τ) {ev : XEv n V}
    (hs : XGpu.step P T stale g s ev = some s')
    (hnext : ∀ b x, ev = .blk b x → x.isData = true → x.Current P.prog (passOf b (ctlOf τ)) τ) :
    ∀ d ∈ deeds (ev :: τ), d.act.Current P.prog d.pass (ev :: τ) := by
  have hbook := run_booked hn hr
  intro d hd
  cases ev with
  | blk b x =>
    by_cases hx : x.isData = true
    · rw [deeds_cons_data hx] at hd
      rcases List.mem_cons.mp hd with rfl | hd
      · -- the step itself is no step on the partial it reads
        have hcur := hnext b x rfl hx
        cases x with
        | push i e v =>
          exact (written_cons_of_none (by rintro b' x' ⟨⟩ - -; rfl)).trans hcur
        | fold i e v w =>
          exact (written_cons_of_none (by rintro b' x' ⟨⟩ - -; rfl)).trans hcur
        | _ => exact hcur
      · exact current_mono hn hr (hbook.deed d hd) (hold d hd) hs
    · rw [deeds, if_neg hx] at hd
      exact current_mono hn hr (hbook.deed d hd) (hold d hd) hs
  | ring | token | patch => exact current_mono hn hr (hbook.deed d hd) (hold d hd) hs

/-- **Without stale lines every step of a run was on current values.** -/
theorem run_current (hn : n < 2 ^ 31) (h : (XGpu.lts P T false g).Run τ s) :
    ∀ d ∈ deeds τ, d.act.Current P.prog d.pass τ := by
  refine Lts.Run.inv (I := fun τ _ => ∀ d ∈ deeds τ, d.act.Current P.prog d.pass τ) ?_ ?_ h
  · rintro s rfl d hd
    cases hd
  · intro τ s ev s' hr ih hs
    refine current_cons hn hr ih hs fun b x hev hx => ?_
    subst hev
    exact current_step hn hr ih hx hs

end Current

end Megakernel
