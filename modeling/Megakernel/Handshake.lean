import Megakernel.Dual

/-!
# The handshake between the two GPUs

What one GPU may conclude about the other. A poll that ends has seen the seqno of
its own pass: the peer's last publication of the site is at most one pass old,
because the host is inside the same call for both, so that the wrapped compare is
decided by the true pass numbers (`acquire_spec`). A publication of pass `p` means
that every block of the peer has left the window of the push behind, so what the
fold loads is the partial the peer has computed for this site and pass
(`fold_spec`), and it stays so (`run_shaken`).

Nothing acknowledges a payload. That it is not overwritten early rests on the
host: a push of pass `p` comes after both GPUs are done with pass `p - 1`, and
before the peer can have seen the publication of pass `p` (`push_spec`).
-/

namespace Megakernel

variable {V : Type*} {n N : ℕ}

section Log

variable {g : Fin 2} {τ : List (DEv n V)}

theorem mem_deeds_cons {d : Deed n V} {σ : List (XEv n V)} (e : XEv n V) (h : d ∈ deeds σ) :
    d ∈ deeds (e :: σ) := by
  cases e with
  | blk b x =>
    by_cases hx : x.isData = true
    · rw [deeds_cons_data hx]
      exact List.mem_cons_of_mem _ h
    · rw [deeds, if_neg hx]
      exact h
  | _ => exact h

/-- The log of a GPU only grows. -/
theorem mem_deeds_sideOf_cons {d : Deed n V} (e : DEv n V) (h : d ∈ deeds (sideOf g τ)) :
    d ∈ deeds (sideOf g (e :: τ)) := by
  rcases he : e.side g with _ | x
  · rwa [sideOf_cons_none he]
  · rw [sideOf_cons_some he]
    exact mem_deeds_cons x h

/-- It grows by the data steps of the GPU. -/
theorem mem_deeds_sideOf {d : Deed n V} {e : DEv n V} (h : d ∈ deeds (sideOf g (e :: τ))) :
    d ∈ deeds (sideOf g τ) ∨ ∃ b x, e = .dev g b x ∧ x.isData = true ∧
      d = ⟨b, passOf b (ctlOf (sideOf g τ)), x⟩ := by
  rcases he : e.side g with _ | x
  · rw [sideOf_cons_none he] at h
    exact Or.inl h
  · rw [sideOf_cons_some he] at h
    cases x with
    | blk b x =>
      by_cases hx : x.isData = true
      · rw [deeds_cons_data hx] at h
        refine (List.mem_cons.mp h).symm.imp id fun hd => ⟨b, x, ?_, hx, hd⟩
        cases e with
        | dev g' b' x' =>
          by_cases hg : g' = g
          · subst hg
            rw [DEv.side, if_pos rfl] at he
            cases he
            rfl
          · rw [DEv.side, if_neg hg] at he
            cases he
        | host a =>
          cases a with
          | ring g' =>
            simp only [DEv.side] at he
            split at he <;> cases he
          | _ => cases he
        | _ =>
          simp only [DEv.side] at he
          split at he <;> cases he
      · rw [deeds, if_neg hx] at h
        exact Or.inl h
    | _ => exact Or.inl h

end Log

section Published

variable [Add V] [Zero V] {P : SplitProgram n N} {T : ℕ} {g : Fin 2} {τ : List (XEv n V)}
  {s : XGpu n V}

/-- The elected block has published when its reduce has returned. -/
theorem Booked.published (h : Booked P T g τ s) {b : Fin n} {p r t : ℕ}
    (hr : roleAt P.prog r = .reduce t) (hel : elected P.prog b r = true)
    (hfin : .finish r ∈ stepsIn P.prog b p (ctlOf τ)) :
    ∃ d ∈ deeds τ, d.pass = p ∧ ∃ q, d.act = .publish r q := by
  have hrole : roleAt P.prog r = .reduce (siteAt P.prog r) := by rw [P.siteAt_eq (Or.inr hr), hr]
  have hacq := (h.finished b p r hfin).2 hrole
  obtain ⟨i, q, hmem⟩ := exists_of_published (h.ordered b p r hel hacq)
  obtain ⟨d, hd, -, hp, rfl, hact⟩ := mem_actsOf.mp hmem
  exact ⟨d, hd, hp, q, hact⟩

end Published

variable [DecidableEq V] [Add V] [Zero V] {P : SplitProgram n N} {T : ℕ} {τ : List (DEv n V)}
  {s s' : Dual n V}

/-- A GPU with a block inside an op is in the current call, and its peer is in it or before it. -/
theorem DualOk.in_op (hn : n < 2 ^ 31) {stale : Bool} (h : DualOk P T stale τ s) {g : Fin 2}
    {b : Fin n} {i : ℕ} (hp : ((s.gpu g).ctl.block b).pc = .op i) :
    passOf b (ctlOf (sideOf g τ)) = calls τ := by
  have hb : Base P _ _ := run_base hn (h.run g)
  obtain ⟨hpass, hdone, -⟩ := hb.in_op hp
  have h₁ := h.rings_le g
  have h₂ := h.le_done g
  omega

/-- A GPU that is done with a pass has published every site of it. -/
theorem DualOk.published (hn : n < 2 ^ 31) (hpos : 0 < n) {stale : Bool}
    (h : DualOk P T stale τ s) {g : Fin 2} {p r t : ℕ} (hp : 1 ≤ p)
    (hdone : p ≤ (s.gpu g).ctl.cells.done.toNat) (hr : roleAt P.prog r = .reduce t) :
    ∃ d ∈ deeds (sideOf g τ), d.pass = p ∧ ∃ q, d.act = .publish r q := by
  have hb : Base P _ _ := run_base hn (h.run g)
  let b₀ : Fin n := ⟨0, hpos⟩
  have hsteps := (hb.logged b₀).of_done hb.lock hb.inv hp hdone
  refine (run_booked hn (h.run g)).published (b := b₀) hr ((P.elected_iff hr _).mpr rfl) ?_
  rw [hsteps]
  exact finish_mem_walk (P.runs_of_isXchg (by rw [hr]; rfl) b₀) (P.lt_length (by rw [hr]; nofun))

/-- **A poll that ends has seen the publication of its own pass.** A seqno that satisfies the
wrapped compare could also be one far behind; that the peer is at most one pass back excludes it. -/
theorem acquire_spec (hn : n < 2 ^ 31) (hpos : 0 < n) (h : DualOk P T false τ s) {g : Fin 2}
    {b : Fin n} {i : ℕ} {q v : U32}
    (hs : Dual.step P T false s (.dev g b (.acquire i q v)) = some s') :
    ∃ d ∈ deeds (sideOf g.rev τ), d.pass = passOf b (ctlOf (sideOf g τ)) ∧
      ∃ q', d.act = .publish i q' := by
  obtain ⟨hread, c, hc, -⟩ := Dual.step_dev.mp hs
  obtain ⟨hp, hg, -⟩ := XGpu.step_data rfl hc
  obtain ⟨hrole, -, -, -, htest⟩ := of_decide_eq_true hg
  have hcur := current_step hn (h.run g) (run_current hn (h.run g)) rfl hc
  have hpass := h.in_op hn hp
  have hp1 := passOf_pos b (ctlOf (sideOf g τ))
  generalize hP : passOf b (ctlOf (sideOf g τ)) = p at hcur hpass hp1
  -- the peer
  have hbook := run_booked hn (h.run g.rev)
  have hnow := run_current hn (h.run g.rev)
  have hR := h.rings_le g.rev
  have hK := h.le_done g.rev
  have hcell := hbook.seqno (siteAt P.prog i)
  rw [show (s.gpu g.rev).mail.seqno (siteAt P.prog i) = v from (of_decide_eq_true hread).symm]
    at hcell
  -- an entry the cell may come from
  have hentry : ∀ d ∈ deeds (sideOf g.rev τ),
      d.act.publishTo P.prog (siteAt P.prog i) = some v →
      v = BitVec.ofNat 32 d.pass ∧ 1 ≤ d.pass ∧ d.pass ≤ p ∧ ∃ q', d.act = .publish i q' := by
    intro d hd hval
    have hok := hbook.deed d hd
    have hle := hok.le
    have hfits := hok.fits
    have hcurd := hnow d hd
    rcases hact : d.act with _ | _ | _ | _ | ⟨i', q'⟩ | _ | _ | _ <;> rw [hact] at hval
    case publish =>
      rw [hact] at hfits hcurd
      by_cases hsite : siteAt P.prog i' = siteAt P.prog i
      · rw [XAct.publishTo, if_pos hsite] at hval
        cases hval
        have hi : i' = i := P.reduce_once (hsite ▸ hfits.1) hrole
        rw [hi]
        exact ⟨hcurd, hok.pos, by omega, v, rfl⟩
      · rw [XAct.publishTo, if_neg hsite] at hval
        cases hval
    all_goals cases hval
  -- the last publication of the site is that of this pass or of the pass before
  obtain ⟨m, hm, hmp, hpm, hfound⟩ : ∃ m, v = BitVec.ofNat 32 m ∧ m ≤ p ∧ p ≤ m + 1 ∧
      (m = p → ∃ d ∈ deeds (sideOf g.rev τ), d.pass = p ∧ ∃ q', d.act = .publish i q') := by
    rcases Nat.lt_or_ge 1 p with hlt | hle
    · obtain ⟨d, hd, hdp, q', hact⟩ := h.published (g := g.rev) hn hpos (p := p - 1) (by omega)
        (by omega) hrole
      have hsome : d.act.publishTo P.prog (siteAt P.prog i) ≠ none := by
        rw [hact, XAct.publishTo, if_pos rfl]
        simp
      obtain ⟨a, ha, hRel, hane, hfind, -⟩ := exists_newest hbook.sorted
        (fun d => d.act.publishTo P.prog (siteAt P.prog i)) hd hsome
      obtain ⟨u, hu⟩ := Option.ne_none_iff_exists'.mp hane
      rw [hfind, hu, Option.getD_some] at hcell
      subst hcell
      obtain ⟨hv, hpos', hle, q'', hact'⟩ := hentry a ha hu
      refine ⟨a.pass, hv, hle, ?_, fun heq => ⟨a, ha, heq, q'', hact'⟩⟩
      have hwin : P.window d.pass d.act.instr ≤ P.window a.pass a.act.instr := by
        rcases hRel with rfl | hRel
        · exact le_rfl
        · exact hRel
      have := SplitProgram.window_pass_le hpos' hwin
      omega
    · rcases hfind : (deeds (sideOf g.rev τ)).findSome? fun d =>
          d.act.publishTo P.prog (siteAt P.prog i) with _ | u
      · rw [hfind] at hcell
        exact ⟨0, hcell, Nat.zero_le _, by omega, fun h0 => by omega⟩
      · obtain ⟨a, ha, hu⟩ := List.exists_of_findSome?_eq_some hfind
        rw [hfind, Option.getD_some] at hcell
        subst hcell
        obtain ⟨hv, hpos', hle', q'', hact'⟩ := hentry a ha hu
        exact ⟨a.pass, hv, hle', by omega, fun heq => ⟨a, ha, heq, q'', hact'⟩⟩
  refine hfound ?_
  rw [show q = BitVec.ofNat 32 p from hcur, hm, ← Bool.not_eq_true,
    Wrap.behind_ofNat (w := 31) (by omega) (by omega)] at htest
  omega

/-- The step has seen the inbox of site `t` filled, or reads it: from the end of the poll on. -/
def XAct.consumes (prog : List (Instr XArgs)) (t : ℕ) : XAct V → Bool
  | .acquire i _ _ | .fold i _ _ _ => decide (siteAt prog i = t)
  | _ => false

/-- What a GPU has concluded about its peer, in its log: each fold of a pass stands behind a
publication of the peer for the same pass, and what it has loaded is the peer's partial. -/
structure Shaken (P : SplitProgram n N) (τ : List (DEv n V)) : Prop where
  /-- behind everything that reads the inbox stands a publication of the same pass -/
  published : ∀ g, ∀ d ∈ deeds (sideOf g τ), ∀ t, d.act.consumes P.prog t = true →
    ∃ d' ∈ deeds (sideOf g.rev τ), d'.pass = d.pass ∧ ∃ q, d'.act = .publish d.act.instr q
  /-- what a fold has loaded is the peer's partial -/
  folded : ∀ g, ∀ d ∈ deeds (sideOf g τ), ∀ i e v w, d.act = .fold i e v w →
    written P.prog d.pass (siteAt P.prog i) e (sideOf g.rev τ) = some w

/-- A fold comes after the peer's publication for the same pass. -/
theorem Shaken.of_acquired (hk : Shaken P τ) (hn : n < 2 ^ 31) {stale : Bool}
    (h : DualOk P T stale τ s) {g : Fin 2} {b : Fin n} {i : ℕ}
    (hp : ((s.gpu g).ctl.block b).pc = .op i) (hacq : ((s.gpu g).loc b).acquired = true) :
    ∃ d ∈ deeds (sideOf g.rev τ), d.pass = passOf b (ctlOf (sideOf g τ)) ∧
      ∃ q, d.act = .publish i q := by
  rw [(run_booked hn (h.run g)).loc b i hp] at hacq
  obtain ⟨j, q, v, hmem⟩ := exists_of_acquired hacq
  obtain ⟨d, hd, -, hpass, rfl, hact⟩ := mem_actsOf.mp hmem
  have hpub := hk.published g d hd (siteAt P.prog j) (by rw [hact]; exact decide_eq_true rfl)
  rwa [hact, hpass] at hpub

/-- What is published has been pushed, by everybody. -/
theorem DualOk.arrived_of_published (hn : n < 2 ^ 31) {stale : Bool} (h : DualOk P T stale τ s)
    {g : Fin 2} {d : Deed n V} (hd : d ∈ deeds (sideOf g τ)) {i : ℕ} {q : U32}
    (hact : d.act = .publish i q) :
    ∃ k, roleAt P.prog k = .push (siteAt P.prog i) ∧ bnd P.prog i = bnd P.prog k + 1 ∧
      ∀ j, P.window d.pass k < arrived j (ctlOf (sideOf g τ)) := by
  have hok := (run_booked hn (h.run g)).deed d hd
  have hfits := hok.fits
  rw [hact] at hfits
  obtain ⟨k, hpush, hbnd, -⟩ := P.exists_push hfits.1
  refine ⟨k, hpush, hbnd, fun j => ?_⟩
  have hwin := hok.window j
  rw [hact] at hwin
  refine (SplitProgram.window_lt ?_).trans_le hwin
  rw [show XAct.instr (.publish i q : XAct V) = i from rfl, hbnd]
  exact Nat.lt_succ_self _

/-- **What a fold loads from the inbox is the peer's partial of this site and pass.** It was stored
before the publication, and the next push of the site comes after the peer has seen this pass done.
-/
theorem fold_spec (hn : n < 2 ^ 31) (hpos : 0 < n) (h : DualOk P T false τ s) (hk : Shaken P τ)
    {g : Fin 2} {b : Fin n} {i e : ℕ} {v w : V}
    (hs : Dual.step P T false s (.dev g b (.fold i e v w)) = some s') :
    written P.prog (passOf b (ctlOf (sideOf g τ))) (siteAt P.prog i) e (sideOf g.rev τ) =
      some w := by
  obtain ⟨hread, c, hc, -⟩ := Dual.step_dev.mp hs
  obtain ⟨hp, hg, -⟩ := XGpu.step_data rfl hc
  obtain ⟨hrole, hacq, he, -⟩ := of_decide_eq_true hg
  have hpass := h.in_op hn hp
  have hp1 := passOf_pos b (ctlOf (sideOf g τ))
  obtain ⟨d', hd', hdp, q, (hact' : d'.act = .publish i q)⟩ := hk.of_acquired hn h hp hacq
  generalize passOf b (ctlOf (sideOf g τ)) = p at hpass hp1 hdp
  -- the peer: everybody has left the push behind
  have hb' : Base P _ _ := run_base hn (h.run g.rev)
  have hbook := run_booked hn (h.run g.rev)
  have hnow := run_current hn (h.run g.rev)
  have hR := h.rings_le g.rev
  obtain ⟨k, hpush, -, harr⟩ := h.arrived_of_published hn hd' hact'
  rw [hdp] at harr
  -- so the element has been pushed in this pass
  have hxchg : (roleAt P.prog k).isXchg = true := by rw [hpush]; rfl
  obtain ⟨b', hown⟩ := P.exists_owner T e hpos hxchg
  obtain ⟨d, hd, -, hdpass, hdi, hde⟩ := hbook.handled hb' hp1 he hown
    (P.runs_of_isXchg hxchg b') (harr b')
  have hsend : d.act.sendTo P.prog (siteAt P.prog i) e ≠ none := by
    obtain ⟨-, ⟨u, -, hr⟩ | ⟨u, hu, -⟩ | ⟨u, u', -, hr⟩⟩ := (hbook.deed d hd).fits.elem hde
    · rw [hdi, hpush] at hr
      cases hr
    · rw [hu, hdi, XAct.sendTo, if_pos ⟨P.siteAt_eq (Or.inl hpush), rfl⟩]
      simp
    · rw [hdi, hpush] at hr
      cases hr
  -- and the newest push of the element is of this pass
  obtain ⟨a, ha, hRel, hane, hfind, -⟩ := exists_newest hbook.sorted
    (fun d => d.act.sendTo P.prog (siteAt P.prog i) e) hd hsend
  obtain ⟨u, hu⟩ := Option.ne_none_iff_exists'.mp hane
  have haok := hbook.deed a ha
  have hap : a.pass = p := by
    have hwin : P.window d.pass d.act.instr ≤ P.window a.pass a.act.instr := by
      rcases hRel with rfl | hRel
      · exact le_rfl
      · exact hRel
    have h₁ := SplitProgram.window_pass_le haok.pos hwin
    have h₂ := haok.le
    omega
  have hload : w = u := by
    have hcell := hbook.payload (siteAt P.prog i) e
    rw [hfind, hu, Option.getD_some] at hcell
    exact (of_decide_eq_true hread).trans hcell
  have hcur := hnow a ha
  rcases hact : a.act with _ | _ | ⟨i', e', u'⟩ | _ | _ | _ | _ | _ <;> rw [hact] at hu hcur
  case push =>
    by_cases hsite : siteAt P.prog i' = siteAt P.prog i ∧ e' = e
    · rw [XAct.sendTo, if_pos hsite] at hu
      cases hu
      rw [hap] at hcur
      rw [hload, ← hsite.1, ← hsite.2]
      exact hcur
    · rw [XAct.sendTo, if_neg hsite] at hu
      cases hu
  all_goals cases hu

/-- The partial of the peer is final once everybody there has arrived at the push. -/
theorem DualOk.written_stable (hn : n < 2 ^ 31) {stale : Bool} {e : DEv n V}
    (h : DualOk P T stale (e :: τ) s') {g : Fin 2} {p k t : ℕ}
    (hk : roleAt P.prog k = .push t)
    (harr : ∀ j, P.window p k ≤ arrived j (ctlOf (sideOf g τ))) (x : ℕ) :
    written P.prog p t x (sideOf g (e :: τ)) = written P.prog p t x (sideOf g τ) := by
  rcases he : e.side g with _ | ev
  · rw [sideOf_cons_none he]
  · have hrun := h.run g
    rw [sideOf_cons_some he] at hrun ⊢
    obtain ⟨c, hc, hstep⟩ := hrun.of_cons
    exact Megakernel.written_stable (run_base hn hc) hstep hk harr x

/-- **In every run with current plain loads the handshake is sound.** The induction carries both
directions at once, since what one GPU concludes rests on what the other has done. -/
theorem run_shaken (hn : n < 2 ^ 31) (hpos : 0 < n) (h : (Dual.lts P T false).Run τ s) :
    Shaken P τ := by
  refine Lts.Run.inv (I := fun τ _ => Shaken P τ) ?_ ?_ h
  · rintro s rfl
    exact ⟨fun g d hd => (nomatch hd), fun g d hd => (nomatch hd)⟩
  · intro τ s e s' hr ih hs
    have hok := run_dualOk hn hr
    have hok' := run_dualOk hn (hr.snoc hs)
    have hpub : ∀ g, ∀ d ∈ deeds (sideOf g (e :: τ)), ∀ t, d.act.consumes P.prog t = true →
        ∃ d' ∈ deeds (sideOf g.rev τ), d'.pass = d.pass ∧ ∃ q, d'.act = .publish d.act.instr q := by
      intro g d hd t ht
      rcases mem_deeds_sideOf hd with hold | ⟨b, y, rfl, -, rfl⟩
      · exact ih.published g d hold t ht
      · cases y with
        | acquire i q v => exact acquire_spec hn hpos hok hs
        | fold i x v w =>
          obtain ⟨-, c, hc, -⟩ := Dual.step_dev.mp hs
          obtain ⟨hp, hg, -⟩ := XGpu.step_data rfl hc
          exact ih.of_acquired hn hok hp (of_decide_eq_true hg).2.1
        | _ => cases ht
    refine ⟨fun g d hd t ht => ?_, fun g d hd i x v w hact => ?_⟩
    · obtain ⟨d', hd', hpass, hq⟩ := hpub g d hd t ht
      exact ⟨d', mem_deeds_sideOf_cons e hd', hpass, hq⟩
    · obtain ⟨d', hd', hpass, q, hact'⟩ := hpub g d hd (siteAt P.prog i) (by
        rw [hact]
        exact decide_eq_true rfl)
      rw [hact] at hact'
      obtain ⟨k, hk, -, harr⟩ := hok.arrived_of_published hn hd' hact'
      rw [hpass] at harr
      refine (hok'.written_stable hn hk (fun j => (harr j).le) x).trans ?_
      rcases mem_deeds_sideOf hd with hold | ⟨b, y, rfl, -, rfl⟩
      · exact ih.folded g d hold i x v w hact
      · obtain rfl : y = .fold i x v w := hact
        exact fold_spec hn hpos hok ih hs

/-- **A payload is not overwritten early.** When an element of pass `p` is pushed, every block of
the peer has gone through all passes before `p`, and none has seen or read the site in pass `p`. -/
theorem push_spec (hn : n < 2 ^ 31) {stale : Bool} (h : DualOk P T stale τ s) (hk : Shaken P τ)
    {g : Fin 2} {b : Fin n} {i e : ℕ} {v : V}
    (hs : Dual.step P T stale s (.dev g b (.push i e v)) = some s') :
    (∀ b' q, 1 ≤ q → q < passOf b (ctlOf (sideOf g τ)) →
      stepsIn P.prog b' q (ctlOf (sideOf g.rev τ)) = passSteps P.prog b') ∧
    ∀ d ∈ deeds (sideOf g.rev τ), d.pass = passOf b (ctlOf (sideOf g τ)) →
      d.act.consumes P.prog (siteAt P.prog i) = false := by
  obtain ⟨-, c, hc, -⟩ := Dual.step_dev.mp hs
  obtain ⟨hp, hg, -⟩ := XGpu.step_data rfl hc
  obtain ⟨hrole, -⟩ := of_decide_eq_true hg
  have hb : Base P _ _ := run_base hn (h.run g)
  have hpass := h.in_op hn hp
  refine ⟨fun b' q hq hlt => ?_, fun d hd hdp => Bool.eq_false_iff.mpr fun hcons => ?_⟩
  · have hb' : Base P _ _ := run_base hn (h.run g.rev)
    have hK := h.le_done g.rev
    exact (hb'.logged b').of_done hb'.lock hb'.inv hq (by omega)
  · -- the peer would have seen a publication that comes after this push
    obtain ⟨d', hd', hpass', q, hact⟩ := hk.published g.rev d hd _ hcons
    rw [Fin.rev_rev] at hd'
    obtain ⟨k, hk', -, hlt⟩ := h.arrived_of_published hn hd' hact
    have hsite : siteAt P.prog d.act.instr = siteAt P.prog i := by
      rcases hd : d.act with _ | _ | _ | _ | _ | _ | _ | _ <;> rw [hd] at hcons <;>
        first | exact of_decide_eq_true hcons | cases hcons
    have hki : k = i := P.site_once k i _ hk' (hrole.trans (by rw [hsite]))
    obtain ⟨-, -, harr, -⟩ := hb.in_op hp
    have hltb := hlt b
    rw [hpass', hdp, hki, harr] at hltb
    exact lt_irrefl _ hltb

end Megakernel
