import Megakernel.Handshake

/-!
# The mirrored allreduce

The pair as a whole: what every reduce stores, and that the two GPUs do not block
each other.

For the second part, suppose that a pass is in flight and nobody can move. On a
GPU that is not done, some block that has left fewest crossings is then inside an
op, and the only op a block can wait in is a reduce whose site the peer has not
published in this pass (`exists_waiting`). The peer is then not done either and
has such a reduce of its own. The GPU whose reduce stands first in the program
waits for an elected block that has left that window behind or stands in the same
reduce, and in both cases has published (`not_waiting_first`).

The statement is about the values that the history records: what a fold stores is the sum of what
two contract GEMVs have stored, in the order of the GPU index. Since both GPUs add in that order,
the results are equal also where the addition is that of floats.
-/

namespace Megakernel

variable {V : Type*} {n N : ℕ} [Add V] {P : SplitProgram n N}

/-- A result that was stored stems from a fold. -/
theorem exists_of_folded {g : Fin 2} {p t e : ℕ} {u : V} {σ : List (XEv n V)}
    (h : folded P.prog g p t e σ = some u) :
    ∃ d ∈ deeds σ, d.pass = p ∧ ∃ i v w, d.act = .fold i e v w ∧ siteAt P.prog i = t ∧
      u = foldOrder g v w := by
  obtain ⟨d, hd, hval⟩ := List.exists_of_findSome?_eq_some h
  refine ⟨d, hd, ?_⟩
  rcases hact : d.act with _ | _ | _ | _ | _ | _ | _ | ⟨i, e', v, w⟩ <;> rw [hact] at hval
  case fold =>
    simp only [Option.ite_none_right_eq_some, Option.some.injEq] at hval
    obtain ⟨⟨hp, ht, rfl⟩, rfl⟩ := hval
    exact ⟨hp, i, v, w, rfl, ht, rfl⟩
  all_goals cases hval

/-- The fold order is by GPU index on both GPUs. -/
theorem foldOrder_eq {g : Fin 2} {p t e : ℕ} {v w : V} {τ : List (DEv n V)}
    (hv : written P.prog p t e (sideOf g τ) = some v)
    (hw : written P.prog p t e (sideOf g.rev τ) = some w) :
    ∃ v₀ v₁, written P.prog p t e (sideOf 0 τ) = some v₀ ∧
      written P.prog p t e (sideOf 1 τ) = some v₁ ∧ foldOrder g v w = v₀ + v₁ := by
  rcases g with ⟨_ | _ | _, hg⟩
  · exact ⟨v, w, hv, hw, rfl⟩
  · exact ⟨w, v, hw, hv, rfl⟩
  · omega

variable [DecidableEq V] [Zero V] {T : ℕ} {τ : List (DEv n V)} {s s' : Dual n V}

/-! ## Moving inside an op -/

/-- The steps of a block that do not count as progress. -/
def XAct.idles : XAct V → Bool
  | .ctl a => a.idles
  | .wait _ _ _ => true
  | _ => false

/-- The steps of the pair that do not count as progress. -/
def DEv.idles : DEv n V → Bool
  | .dev _ _ x => x.idles
  | .host (.noErr _) | .host (.done0 _) | .host (.done1 _) | .host .again | .host .timeout => true
  | _ => false

/-- The block is polling its inbox for a seqno that has not come. It is the only place inside the
ops of the exchange where a block waits for the other GPU. -/
def FoldWaits (P : SplitProgram n N) (s : Dual n V) (g : Fin 2) (b : Fin n) (i : ℕ) : Prop :=
  ((s.gpu g).ctl.block b).pc = .op i ∧ roleAt P.prog i = .reduce (siteAt P.prog i) ∧
    (elected P.prog b i = true → ((s.gpu g).loc b).published = true) ∧
    ∃ q, ((s.gpu g).loc b).args = some q ∧
      Wrap.behind ((s.inbox g).seqno (siteAt P.prog i)) q = true

/-- The block can make progress: it can take a step that is no further round of a poll. -/
def CanMove (P : SplitProgram n N) (T : ℕ) (s : Dual n V) (g : Fin 2) (b : Fin n) : Prop :=
  ∃ x s', Dual.step P T false s (.dev g b x) = some s' ∧ x.idles = false

section Moving

variable {g : Fin 2} {b : Fin n} {i : ℕ}

omit [Zero V] in
theorem canMove_data {x : XAct V} (hx : x.isData = true) (hidle : x.idles = false)
    (hp : ((s.gpu g).ctl.block b).pc = .op x.instr)
    (hg : x.guard P T false (s.gpu g) b = true) (hr : x.reads P.prog (s.inbox g) = true) :
    CanMove P T s g b := by
  have hc : (s.gpu g).ctl.step P.prog (.blk b x.act) = some (s.gpu g).ctl := by
    rw [XAct.act_of_isData hx]
    refine Gpu.step_blk.mpr ⟨_, _, .tick hp, ?_⟩
    rw [Function.update_eq_self]
  exact ⟨x, _, Dual.step_dev.mpr ⟨hr, _, XGpu.step_blk.mpr ⟨hg, _, hc, rfl⟩, rfl⟩, hidle⟩

omit [Zero V] in
theorem canMove_ctl {a : Act} {c : Gpu n} (hidle : a.idles = false)
    (hg : (XAct.ctl a : XAct V).guard P T false (s.gpu g) b = true)
    (hc : (s.gpu g).ctl.step P.prog (.blk b a) = some c) : CanMove P T s g b :=
  ⟨.ctl a, _, Dual.step_dev.mpr ⟨rfl, _, XGpu.step_blk.mpr ⟨hg, _, hc, rfl⟩, rfl⟩, hidle⟩

/-- What is left of an op: an element of the block's own, or nothing. -/
theorem exists_elem (P : SplitProgram n N) (T b i : ℕ) (l : List ℕ) :
    (∀ e < N, P.owns T b i e = true → e ∈ l) ∨ ∃ e < N, P.owns T b i e = true ∧ e ∉ l := by
  by_cases h : ∃ e < N, P.owns T b i e = true ∧ e ∉ l
  · exact Or.inr h
  · refine Or.inl fun e he ho => ?_
    by_contra hmem
    exact h ⟨e, he, ho, hmem⟩

omit [Zero V] in
/-- **Inside an op a block can move or is polling its inbox.** -/
theorem canMove_or_foldWaits (hp : ((s.gpu g).ctl.block b).pc = .op i) :
    CanMove P T s g b ∨ FoldWaits P s g b i := by
  rcases hraise : ((s.gpu g).ctl.block b).raising with _ | ⟨r, rest⟩
  · have hfinish : (∀ e < N, P.owns T b i e = true → e ∈ ((s.gpu g).loc b).elems) →
        (roleAt P.prog i = .reduce (siteAt P.prog i) → ((s.gpu g).loc b).acquired = true) →
        CanMove P T s g b := fun h₁ h₂ =>
      canMove_ctl (a := .finish i) rfl (decide_eq_true ⟨h₁, h₂⟩)
        (Gpu.step_blk.mpr ⟨_, _, .finish hp hraise, rfl⟩)
    have hplain : ∀ {α : Type _} [DecidableEq α] (x : α) (l : List α),
        plainLoad false x l x = true := by simp [plainLoad]
    by_cases hrole : roleAt P.prog i = .reduce (siteAt P.prog i)
    · rcases hargs : ((s.gpu g).loc b).args with _ | q
      · exact Or.inl (canMove_data (x := .args i ((s.gpu g).seqno i)) rfl rfl hp
          (decide_eq_true ⟨hrole, hargs, by simp [plainLoad]⟩) rfl)
      rcases hacq : ((s.gpu g).loc b).acquired with _ | _
      · -- the elected thread publishes first, then the block polls
        by_cases hready : elected P.prog b i = true → ((s.gpu g).loc b).published = true
        · by_cases htest : Wrap.behind ((s.inbox g).seqno (siteAt P.prog i)) q = true
          · exact Or.inr ⟨hp, hrole, hready, q, hargs, htest⟩
          · exact Or.inl (canMove_data
              (x := .acquire i q ((s.inbox g).seqno (siteAt P.prog i))) rfl rfl hp
              (decide_eq_true ⟨hrole, hready, hargs, hacq, Bool.not_eq_true _ ▸ htest⟩)
              (decide_eq_true rfl))
        · obtain ⟨hel, hpub⟩ := Classical.not_imp.mp hready
          exact Or.inl (canMove_data (x := .publish i q) rfl rfl hp
            (decide_eq_true ⟨hrole, hel, hargs, Bool.not_eq_true _ ▸ hpub⟩) rfl)
      · rcases exists_elem P T b i ((s.gpu g).loc b).elems with hall | ⟨e, he, ho, hnot⟩
        · exact Or.inl (hfinish hall fun _ => hacq)
        · exact Or.inl (canMove_data
            (x := .fold i e ((s.gpu g).projOut e) ((s.inbox g).payload (siteAt P.prog i) e))
            rfl rfl hp (decide_eq_true ⟨hrole, hacq, he, ho, hnot, hplain _ _⟩)
            (decide_eq_true rfl))
    · rcases exists_elem P T b i ((s.gpu g).loc b).elems with hall | ⟨e, he, ho, hnot⟩
      · exact Or.inl (hfinish hall fun h => absurd h hrole)
      · rcases P.role_cases (P.role_ne_of_owns ho) with hr | hr | hr
        · exact Or.inl (canMove_data (x := .gemv i e ((s.gpu g).projOut e)) rfl rfl hp
            (decide_eq_true ⟨hr, he, ho, hnot⟩) rfl)
        · exact Or.inl (canMove_data (x := .push i e ((s.gpu g).projOut e)) rfl rfl hp
            (decide_eq_true ⟨hr, he, ho, hnot, hplain _ _⟩) rfl)
        · exact absurd hr hrole
  · have hget : ((s.gpu g).ctl.block b).raising[0]? = some r := by
      rw [hraise]
      rfl
    exact Or.inl (canMove_ctl (a := .store 0) rfl rfl
      (Gpu.step_blk.mpr ⟨_, _, .store hget, rfl⟩))

end Moving

/-! ## Waiting for each other -/

section Waiting

variable {g : Fin 2}

/-- A block that polls its inbox waits for a publication the peer has not made in this pass. -/
theorem FoldWaits.not_published (hn : n < 2 ^ 31) (h : DualOk P T false τ s)
    {b : Fin n} {i : ℕ} (hw : FoldWaits P s g b i) :
    ∀ d ∈ deeds (sideOf g.rev τ), d.pass = calls τ → ∀ q, d.act ≠ .publish i q := by
  obtain ⟨hp, hrole, -, q, hargs, htest⟩ := hw
  intro d hd hdp q' hact
  have hbook := run_booked hn (h.run g.rev)
  have hnow := run_current hn (h.run g.rev)
  have hR := h.rings_le g.rev
  have hq : q = BitVec.ofNat 32 (calls τ) := by
    obtain ⟨d₀, hd₀, -, hpass, hact₀⟩ := (run_booked hn (h.run g)).args hp hargs
    have hcur := run_current hn (h.run g) d₀ hd₀
    rw [hact₀, hpass, h.in_op hn hp] at hcur
    exact hcur
  -- the newest publication of the site is of this pass as well
  have hsome : d.act.publishTo P.prog (siteAt P.prog i) ≠ none := by
    rw [hact, XAct.publishTo, if_pos rfl]
    simp
  obtain ⟨a, ha, hRel, hane, hfind, -⟩ := exists_newest hbook.sorted
    (fun d => d.act.publishTo P.prog (siteAt P.prog i)) hd hsome
  obtain ⟨u, hu⟩ := Option.ne_none_iff_exists'.mp hane
  have haok := hbook.deed a ha
  have hap : a.pass = calls τ := by
    have hwin : P.window d.pass d.act.instr ≤ P.window a.pass a.act.instr := by
      rcases hRel with rfl | hRel
      · exact le_rfl
      · exact hRel
    have h₁ := SplitProgram.window_pass_le haok.pos hwin
    have h₂ := haok.le
    omega
  have hcell := hbook.seqno (siteAt P.prog i)
  rw [hfind, hu, Option.getD_some] at hcell
  have hcur := hnow a ha
  have huq : u = q := by
    rcases hacta : a.act with _ | _ | _ | _ | ⟨i', q''⟩ | _ | _ | _ <;> rw [hacta] at hu hcur
    case publish =>
      by_cases hsite : siteAt P.prog i' = siteAt P.prog i
      · rw [XAct.publishTo, if_pos hsite] at hu
        cases hu
        rw [hq, ← hap]
        exact hcur
      · rw [XAct.publishTo, if_neg hsite] at hu
        cases hu
    all_goals cases hu
  rw [show (s.inbox g).seqno (siteAt P.prog i) = u from hcell, huq] at htest
  simp [Wrap.behind] at htest

/-- A GPU whose blocks cannot move although it is not done: a block that has left fewest crossings
polls its inbox. So the cause of the waiting lies with the peer. -/
theorem exists_waiting (hn : n < 2 ^ 31) (hpos : 0 < n) (h : DualOk P T false τ s)
    (hR : rings (ctlOf (sideOf g τ)) = calls τ)
    (hdone : (s.gpu g).ctl.cells.done.toNat ≠ calls τ)
    (herr : (s.gpu g).ctl.cells.errHostCode = 0) (hlt : calls τ < 2 ^ 32 - 1)
    (hstuck : ∀ b, ¬ CanMove P T s g b) :
    (∀ b, PollWaits (s.gpu g).ctl b ∨ SpinWaits (s.gpu g).ctl b ∨ ∃ i, FoldWaits P s g b i) ∧
      ∃ b i, FoldWaits P s g b i ∧
        ∀ j, left b (ctlOf (sideOf g τ)) ≤ left j (ctlOf (sideOf g τ)) := by
  have hb : Base P _ _ := run_base hn (h.run g)
  have hidle : ∀ b, IdleOrOp (s.gpu g).ctl b := by
    intro b
    refine (@Gpu.exists_step _ _ P.prog _ _ hb.stops herr (by omega) b).resolve_right ?_
    rintro ⟨a, c, hc, hia, hfin⟩
    refine hstuck b (canMove_ctl hia ?_ hc)
    cases a with
    | finish i => exact absurd rfl (hfin i)
    | _ => rfl
  have hop : ∀ b i, ((s.gpu g).ctl.block b).pc = .op i → FoldWaits P s g b i := fun b i hp =>
    (canMove_or_foldWaits hp).resolve_left (hstuck b)
  refine ⟨fun b => ?_, ?_⟩
  · rcases hidle b with hw | hw | ⟨i, hi⟩
    · exact Or.inl hw
    · exact Or.inr (Or.inl hw)
    · exact Or.inr (Or.inr ⟨i, hop b i hi⟩)
  · have hK := h.le_done g
    have hle := hb.lock.done_le
    obtain ⟨b, i, hi, hmin⟩ := exists_in_op hn hpos hb.lock hb.inv hb.stops
      (show (s.gpu g).ctl.cells.done.toNat + 1 = _ by omega) (by omega) hidle
    exact ⟨b, i, hop b i hi, hmin⟩

/-- **The GPU whose reduce stands first in the program is not waiting**: the elected block of the
peer has left that reduce behind, or stands in it and has published. -/
theorem not_waiting_first (hn : n < 2 ^ 31) (hpos : 0 < n) (h : DualOk P T false τ s)
    {b : Fin n} {i : ℕ} (hw : FoldWaits P s g b i) {b' : Fin n} {i' : ℕ}
    (hw' : FoldWaits P s g.rev b' i')
    (hmin : ∀ j, left b' (ctlOf (sideOf g.rev τ)) ≤ left j (ctlOf (sideOf g.rev τ)))
    (hall : ∀ j, PollWaits (s.gpu g.rev).ctl j ∨ SpinWaits (s.gpu g.rev).ctl j ∨
      ∃ k, FoldWaits P s g.rev j k)
    (hfirst : bnd P.prog i ≤ bnd P.prog i') : False := by
  have hnot := hw.not_published hn h
  have hrole := hw.2.1
  have hb : Base P _ _ := run_base hn (h.run g.rev)
  have hbook := run_booked hn (h.run g.rev)
  have hC := h.in_op hn hw'.1
  have hp1 := passOf_pos b' (ctlOf (sideOf g.rev τ))
  obtain ⟨-, hdone, -, hleft⟩ := hb.in_op hw'.1
  rw [hC] at hleft hp1
  let b₀ : Fin n := ⟨0, hpos⟩
  have hel : elected P.prog b₀ i = true := (P.elected_iff hrole _).mpr rfl
  have hxchg : (roleAt P.prog i).isXchg = true := by rw [hrole]; rfl
  -- the elected block of the peer has arrived at the window of the reduce
  have hle₀ : P.window (calls τ) i ≤ left b₀ (ctlOf (sideOf g.rev τ)) := by
    refine le_trans ?_ (hleft.symm.le.trans (hmin b₀))
    exact Nat.add_le_add_left hfirst _
  have hsound : left b₀ (ctlOf (sideOf g.rev τ)) ≤ arrived b₀ (ctlOf (sideOf g.rev τ)) :=
    hb.inv.sound b₀ b₀
  -- if it has left it behind, it has published
  have hbehind : ¬ P.window (calls τ) i < arrived b₀ (ctlOf (sideOf g.rev τ)) := by
    intro hlt
    have hfin := (hb.logged b₀).finish_mem hb.lock hb.inv hp1 (P.runs_of_isXchg hxchg b₀) hlt
    obtain ⟨d, hd, hdp, q, hact⟩ := hbook.published hrole hel hfin
    exact hnot d hd hdp q hact
  rcases hall b₀ with hpoll | ⟨⟨k, hk⟩, -⟩ | ⟨k, hk⟩
  · have hle := hb.lock.done_le
    have hR := h.rings_le g.rev
    have hpass := hb.in_op hw'.1
    exact not_pollWaits_zero hb.lock hb.stops hdone rfl hpoll
  · have harr : arrived b₀ (ctlOf (sideOf g.rev τ)) = left b₀ (ctlOf (sideOf g.rev τ)) + 1 := by
      have := hb.inv.arrived b₀
      rwa [if_pos (show (s.gpu g.rev).ctl.grid.phase b₀ = .spinning from congrArg Pc.phase hk)]
        at this
    exact hbehind (by omega)
  · -- it stands in an op of the same window, which is the reduce itself
    obtain ⟨-, -, harr, hat⟩ := hb.in_op hk.1
    rw [h.in_op hn hk.1] at harr hat
    have heq : P.window (calls τ) k = P.window (calls τ) i := by
      rw [harr] at hbehind
      rw [hat] at hle₀
      exact le_antisymm (not_lt.mp hbehind) hle₀
    have hne : roleAt P.prog k ≠ .work := by rw [hk.2.1]; nofun
    obtain rfl : k = i := P.alone i k hxchg (P.lt_length hne) (P.not_crossing hne)
      (Nat.add_left_cancel heq)
    have hpub := hk.2.2.1 hel
    rw [hbook.loc b₀ k hk.1] at hpub
    obtain ⟨i₀, q, hmem⟩ := exists_of_published hpub
    obtain ⟨d, hd, -, hdp, rfl, hact⟩ := mem_actsOf.mp hmem
    rw [h.in_op hn hk.1] at hdp
    exact hnot d hd hdp q hact

/-- While the host polls, a GPU that is not done leaves somebody able to move, on this GPU or the
other. -/
theorem exists_canMove (hn : n < 2 ^ 31) (hpos : 0 < n) (h : DualOk P T false τ s)
    (hR : ∀ g, rings (ctlOf (sideOf g τ)) = calls τ)
    (herr : ∀ g, (s.gpu g).ctl.cells.errHostCode = 0) (hlt : calls τ < 2 ^ 32 - 1)
    (hdone : (s.gpu g).ctl.cells.done.toNat ≠ calls τ) : ∃ g b, CanMove P T s g b := by
  by_contra hno
  have hstuck : ∀ g b, ¬ CanMove P T s g b := fun g b hm => hno ⟨g, b, hm⟩
  obtain ⟨hall, b, i, hw, hmin⟩ := exists_waiting hn hpos h (hR g) hdone (herr g) hlt (hstuck g)
  -- the peer is not done: it has not published the site `b` waits for
  have hdone' : (s.gpu g.rev).ctl.cells.done.toNat ≠ calls τ := by
    intro hpeer
    have hC := h.in_op hn hw.1
    have hp1 := passOf_pos b (ctlOf (sideOf g τ))
    obtain ⟨d, hd, hdp, q, hact⟩ := h.published hn hpos (hp1.trans hC.le) hpeer.ge hw.2.1
    exact hw.not_published hn h d hd hdp q hact
  obtain ⟨hall', b', i', hw', hmin'⟩ := exists_waiting hn hpos h (hR g.rev) hdone' (herr g.rev)
    hlt (hstuck g.rev)
  rcases le_total (bnd P.prog i) (bnd P.prog i') with hfirst | hfirst
  · exact not_waiting_first hn hpos h hw hw' hmin' hall' hfirst
  · have hrev : g.rev.rev = g := Fin.rev_rev g
    have hw₂ : FoldWaits P s g.rev.rev b i := by
      rw [hrev]
      exact hw
    rw [← hrev] at hmin hall
    exact not_waiting_first hn hpos h hw' hw₂ hmin hall hfirst

/-- **No reachable state is stuck.** Unless the host has returned false, some step other than
another round of a poll is possible, or an error is visible to the host, or a doorbell holds the
halt value, or both GPUs are done and the host is about to return. -/
theorem not_stuck (hn : n < 2 ^ 31) (hpos : 0 < n) (h : DualOk P T false τ s)
    (hpc : s.host.pc ≠ .failed) :
    (∃ g, (s.gpu g).ctl.cells.errHostCode ≠ 0) ∨
      (∃ g, (s.gpu g).ctl.cells.doorbellHost = doorbellHalt) ∨
      (∀ g, (s.gpu g).ctl.cells.done = s.host.pass g) ∨
      ∃ e s', Dual.step P T false s e = some s' ∧ e.idles = false := by
  have hhost : ∀ {a : DualAct} {c : Fin 2 → Cells} {k : DualHost},
      DualStep P.prog (fun g => (s.gpu g).ctl.cells) s.host a c k →
      (DEv.host a : DEv n V).idles = false →
      ∃ e s', Dual.step P T false s e = some s' ∧ e.idles = false := fun hstep hidle =>
    ⟨_, _, Dual.step_host.mpr ⟨_, _, hstep, rfl⟩, hidle⟩
  by_cases hpoll : s.host.pc.polling = true
  · by_cases herr : ∃ g, (s.gpu g).ctl.cells.errHostCode ≠ 0
    · exact Or.inl herr
    by_cases hhalt : ∃ g, (s.gpu g).ctl.cells.doorbellHost = doorbellHalt
    · exact Or.inr (Or.inl hhalt)
    have hstage := DualPc.stage (Or.inl hpoll)
    have hR : ∀ g, rings (ctlOf (sideOf g τ)) = calls τ := fun g =>
      ((h.place hpc g).rung (hstage g).2.1).1
    by_cases hdone : ∀ g, (s.gpu g).ctl.cells.done.toNat = calls τ
    · refine Or.inr (Or.inr (Or.inl fun g => ?_))
      rw [(h.place hpc g).pass (hstage g).1, ← hdone g, BitVec.ofNat_toNat, BitVec.setWidth_eq]
    · obtain ⟨g, hg⟩ := not_forall.mp hdone
      have hlt : calls τ < 2 ^ 32 - 1 := by
        obtain ⟨hdoor, -, hK⟩ := h.counts hn g
        have hle := h.le_done g
        refine lt_of_le_of_ne (by omega) fun heq => hhalt ⟨g, ?_⟩
        rw [hdoor, hR g, heq]
        rfl
      have hzero : ∀ g, (s.gpu g).ctl.cells.errHostCode = 0 := fun g => by
        by_contra he
        exact herr ⟨g, he⟩
      obtain ⟨g', b, x, s', hs, hx⟩ := exists_canMove hn hpos h hR hzero hlt hg
      exact Or.inr (Or.inr (Or.inr ⟨.dev g' b x, s', hs, hx⟩))
  · -- outside the loop the host itself or a copy moves
    refine Or.inr (Or.inr (Or.inr ?_))
    rcases hp : s.host.pc with _ | g | g | g | _ | _ | _ | _ | _
    · exact hhost (.call (t := 0) hp) rfl
    · by_cases herr : (s.gpu g).ctl.cells.errHostCode = 0
      · exact hhost (.enqueue hp herr) rfl
      · exact hhost (.refuse hp herr) rfl
    · rcases hq : s.host.queue g with _ | ⟨i | _, rest⟩
      · exact hhost (.sync hp hq) rfl
      · exact ⟨.patch g i s.host.seqno, _, Dual.step_patch.mpr ⟨⟨by rw [hq]; rfl, rfl⟩, rfl⟩, rfl⟩
      · exact ⟨.token g s.host.token, _, Dual.step_token.mpr ⟨⟨by rw [hq]; rfl, rfl⟩, rfl⟩, rfl⟩
    · exact hhost (.ring hp) rfl
    · rw [hp] at hpoll
      exact absurd rfl hpoll
    · rw [hp] at hpoll
      exact absurd rfl hpoll
    · rw [hp] at hpoll
      exact absurd rfl hpoll
    · rw [hp] at hpoll
      exact absurd rfl hpoll
    · exact absurd hp hpc

end Waiting

/-! ## The result -/

/-- A GPU that is done with a pass has stored every element of every site. -/
theorem exists_folded (hn : n < 2 ^ 31) (hpos : 0 < n) {stale : Bool} (h : DualOk P T stale τ s)
    {g : Fin 2} {p r t e : ℕ} (hp : 1 ≤ p) (hdone : p ≤ (s.gpu g).ctl.cells.done.toNat)
    (hr : roleAt P.prog r = .reduce t) (he : e < N) :
    ∃ u, folded P.prog g p t e (sideOf g τ) = some u := by
  have hb : Base P _ _ := run_base hn (h.run g)
  have hbook := run_booked hn (h.run g)
  have hxchg : (roleAt P.prog r).isXchg = true := by rw [hr]; rfl
  obtain ⟨b, hown⟩ := P.exists_owner T e hpos hxchg
  have hsteps := (hb.logged b).of_done hb.lock hb.inv hp hdone
  have hfin : .finish r ∈ stepsIn P.prog b p (ctlOf (sideOf g τ)) := by
    rw [hsteps]
    exact finish_mem_walk (P.runs_of_isXchg hxchg b) (P.lt_length (by rw [hr]; nofun))
  obtain ⟨x, hx, hxe⟩ := exists_of_mem_elems ((hbook.finished b p r hfin).1 e he hown)
  obtain ⟨d, hd, -, hdp, rfl, rfl⟩ := mem_actsOf.mp hx
  refine Option.ne_none_iff_exists'.mp fun hnone => ?_
  have hd' := List.findSome?_eq_none_iff.mp hnone d hd
  obtain ⟨-, ⟨v, -, hrole⟩ | ⟨v, -, hrole⟩ | ⟨v, w, hact, -⟩⟩ :=
    (hbook.deed d hd).fits.elem hxe
  · rw [hr] at hrole
    cases hrole
  · rw [hr] at hrole
    cases hrole
  · rw [hact] at hd'
    simp [hdp, P.siteAt_eq (Or.inr hr)] at hd'

/-- **The exchange is correct.** In every run of the pair and its host with current plain loads,
for any interleaving:

* a reduce of site `t` in pass `p` that stores `out[e]` stores `p0[e] + p1[e]`, the sum of the
  partials that the two GPUs have computed for this site and pass;
* what has been stored stays so related to the partials, so that both GPUs hold equal results;
* a GPU that is done with a pass has stored every element of every site;
* a payload is overwritten only when every block of the peer has gone through all earlier passes
  and none has seen or read the site in the current one;
* no reachable state is stuck. -/
theorem allreduce_correct (hn : n < 2 ^ 31) (hpos : 0 < n) (h : (Dual.lts P T false).Run τ s) :
    (∀ g b i e v w s', Dual.step P T false s (.dev g b (.fold i e v w)) = some s' →
      ∃ v₀ v₁,
        written P.prog (passOf b (ctlOf (sideOf g τ))) (siteAt P.prog i) e (sideOf 0 τ) = some v₀ ∧
        written P.prog (passOf b (ctlOf (sideOf g τ))) (siteAt P.prog i) e (sideOf 1 τ) = some v₁ ∧
        (s'.gpu g).projOut e = v₀ + v₁) ∧
    (∀ g p t e u, folded P.prog g p t e (sideOf g τ) = some u →
      ∃ v₀ v₁, written P.prog p t e (sideOf 0 τ) = some v₀ ∧
        written P.prog p t e (sideOf 1 τ) = some v₁ ∧ u = v₀ + v₁) ∧
    (∀ p t e u₀ u₁, folded P.prog 0 p t e (sideOf 0 τ) = some u₀ →
      folded P.prog 1 p t e (sideOf 1 τ) = some u₁ → u₀ = u₁) ∧
    (∀ g p r t e, 1 ≤ p → p ≤ (s.gpu g).ctl.cells.done.toNat → roleAt P.prog r = .reduce t →
      e < N → ∃ u, folded P.prog g p t e (sideOf g τ) = some u) ∧
    (∀ g b i e v s', Dual.step P T false s (.dev g b (.push i e v)) = some s' →
      (∀ b' q, 1 ≤ q → q < passOf b (ctlOf (sideOf g τ)) →
        stepsIn P.prog b' q (ctlOf (sideOf g.rev τ)) = passSteps P.prog b') ∧
      ∀ d ∈ deeds (sideOf g.rev τ), d.pass = passOf b (ctlOf (sideOf g τ)) →
        d.act.consumes P.prog (siteAt P.prog i) = false) ∧
    (s.host.pc ≠ .failed →
      (∃ g, (s.gpu g).ctl.cells.errHostCode ≠ 0) ∨
        (∃ g, (s.gpu g).ctl.cells.doorbellHost = doorbellHalt) ∨
        (∀ g, (s.gpu g).ctl.cells.done = s.host.pass g) ∨
        ∃ e s', Dual.step P T false s e = some s' ∧ e.idles = false) := by
  have hok := run_dualOk hn h
  have hshaken := run_shaken hn hpos h
  have hfolded : ∀ g p t e u, folded P.prog g p t e (sideOf g τ) = some u →
      ∃ v₀ v₁, written P.prog p t e (sideOf 0 τ) = some v₀ ∧
        written P.prog p t e (sideOf 1 τ) = some v₁ ∧ u = v₀ + v₁ := by
    intro g p t e u hu
    obtain ⟨d, hd, rfl, i, v, w, hact, rfl, rfl⟩ := exists_of_folded hu
    have hmine := run_current hn (hok.run g) d hd
    rw [hact] at hmine
    exact foldOrder_eq hmine (hshaken.folded g d hd i e v w hact)
  refine ⟨fun g b i e v w s' hs => ?_, hfolded, fun p t e u₀ u₁ h₀ h₁ => ?_,
    fun g p r t e hp hdone hr he => exists_folded hn hpos hok hp hdone hr he,
    fun g b i e v s' hs => push_spec hn hok hshaken hs, not_stuck hn hpos hok⟩
  · obtain ⟨-, c, hc, rfl⟩ := Dual.step_dev.mp hs
    have hmine := current_step hn (hok.run g) (run_current hn (hok.run g)) rfl hc
    obtain ⟨v₀, v₁, hv₀, hv₁, hsum⟩ := foldOrder_eq hmine (fold_spec hn hpos hok hshaken hs)
    obtain ⟨-, -, rfl⟩ := XGpu.step_data rfl hc
    refine ⟨v₀, v₁, hv₀, hv₁, ?_⟩
    simp only [Function.update_self, XAct.effect]
    exact hsum
  · obtain ⟨v₀, v₁, hv₀, hv₁, rfl⟩ := hfolded 0 p t e u₀ h₀
    obtain ⟨v₀', v₁', hv₀', hv₁', rfl⟩ := hfolded 1 p t e u₁ h₁
    rw [hv₀] at hv₀'
    rw [hv₁] at hv₁'
    rw [Option.some.inj hv₀', Option.some.inj hv₁']

/-- The host begins a pass of the one-site pair and rings both GPUs. -/
def oneSiteRing : List (DEv 1 ℕ) :=
  [.host (.ring 1), .host (.sync 1), .token 1 5, .host (.ring 0), .host (.sync 0), .token 0 5,
    .patch 1 4 1, .patch 0 4 1, .host (.enqueue 1), .host (.enqueue 0), .host (.call 5)]

/-- GPU `g` up to the publication: its partial is `v`. -/
def oneSitePush (g : Fin 2) (v : ℕ) : List (DEv 1 ℕ) :=
  [.publish 4 1, .args 4 1, .ctl (.begin 4), .ctl (.leave 3), .ctl (.arrive 3), .ctl (.cross 3),
    .ctl (.finish 2), .push 2 0 v, .ctl (.begin 2), .ctl (.leave 1), .ctl (.arrive 1),
    .ctl (.cross 1), .ctl (.finish 0), .gemv 0 0 v, .ctl (.begin 0), .ctl (.start 1),
    .ctl (.forward 1), .ctl (.hear 1)].map (.dev g 0)

/-- GPU `g` behind the publication: the partials are `v` and `w`. -/
def oneSiteFold (g : Fin 2) (v w : ℕ) : List (DEv 1 ℕ) :=
  [.ctl (.finish 4), .fold 4 0 v w, .acquire 4 1 1].map (.dev g 0)

/-- GPU 0 computes 3 and GPU 1 computes 4. Both store 7, and both GPUs are done with the pass. -/
def oneSiteRun : List (DEv 1 ℕ) :=
  oneSiteFold 0 3 4 ++ oneSiteFold 1 4 3 ++ oneSitePush 1 4 ++ oneSitePush 0 3 ++ oneSiteRing

theorem allreduce_correct_oneSite :
    ∃ s, (Dual.lts oneSite 32 false).Run oneSiteRun s ∧
      folded oneSite.prog 0 1 0 0 (sideOf 0 oneSiteRun) = some 7 ∧
      folded oneSite.prog 1 1 0 0 (sideOf 1 oneSiteRun) = some 7 ∧
      ∃ v₀ v₁, written oneSite.prog 1 0 0 (sideOf 0 oneSiteRun) = some v₀ ∧
        written oneSite.prog 1 0 0 (sideOf 1 oneSiteRun) = some v₁ ∧ 7 = v₀ + v₁ := by
  obtain ⟨s, -, hr⟩ := Lts.exists_run_of_isSome (Dual.step oneSite 32 false) (Dual.zero 1)
    oneSiteRun (by decide)
  have h₀ : folded oneSite.prog 0 1 0 0 (sideOf 0 oneSiteRun) = some 7 := by decide
  have h₁ : folded oneSite.prog 1 1 0 0 (sideOf 1 oneSiteRun) = some 7 := by decide
  obtain ⟨-, hsum, -⟩ := allreduce_correct (by decide) (by decide) hr
  exact ⟨s, hr, h₀, h₁, hsum 0 1 0 0 7 h₀⟩

end Megakernel
