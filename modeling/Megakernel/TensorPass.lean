import Megakernel.MirroredTrunk

/-!
# The pair, window by window

The split program on two GPUs that share nothing but the mailboxes and the host
(`dual_run_pass`): each of them leaves one window of its program after the other
behind, in its own time. The grain is a window, which the boundary makes one step of
the GPU, and in a window the instructions may be executed in any order. Only three
things tie the two GPUs together. A push stores `proj_out` in the inbox of the peer; a
reduce first publishes the number of the pass to the peer and ends when it has heard
the number from the peer; and the host begins a pass when both are done with the last.

That is enough for the two GPUs to hold, at the end of every window, what two GPUs in
lockstep would hold (`Tensor.run_ok`): what a reduce finds in its inbox is what the
peer's `proj_out` was before its push in this pass. The trunk is then mirrored because
it is mirrored in lockstep.

The state of lockstep, `ideal`, is a function of the program and of how many windows have been left
behind, so that each GPU can be compared with it alone. The two comparisons meet only in a reduce,
where the number that has been heard says that the peer has pushed what it has in lockstep.
-/

namespace Megakernel.Schedule

open Name

variable {W : Type*}

/-! ## The exchanges of the program -/

/-- `site` -/
def Ins.site (i : Ins W) : ℕ := (i.call.nat "site").getD 0

/-- The instruction has to do with the peer. -/
def Ins.isXchg (i : Ins W) : Bool := i.call.kind == .xchgPush || i.call.kind == .xchgReduce

/-- The sites of the instructions of a kind. -/
def sitesOf (kind : MacroKind) (is : List (Ins W)) : List ℕ :=
  is.filterMap fun i => if i.call.kind = kind then some i.site else none

/-- Every reduce follows the push of its site, given the site that has just been pushed. Nothing may
stand between the two. -/
def Paired : Option ℕ → List (Ins W) → Prop
  | _, [] => True
  | last, i :: is => (i.call.kind = .xchgReduce → last = some i.site) ∧
      Paired (if i.call.kind = .xchgPush then some i.site else none) is

/-- `n` exchanges, at the sites from `lo` on: pushes and reduces count the sites up in the order of
the program. -/
structure Exchanges (lo : ℕ) (is : List (Ins W)) (n : ℕ) : Prop where
  paired : Paired none is
  pushes : sitesOf .xchgPush is = List.range' lo n
  reduces : sitesOf .xchgReduce is = List.range' lo n
  /-- a push makes nothing on its own GPU -/
  outs : ∀ i ∈ is, i.call.kind = .xchgPush → i.outs = []

section Exchanges

variable {lo n k : ℕ} {a b is : List (Ins W)}

theorem Paired.mono {last : Option ℕ} (h : Paired none is) : Paired last is := by
  cases is with
  | nil => trivial
  | cons i is => exact ⟨fun hk => absurd (h.1 hk) (by simp), h.2⟩

theorem Paired.append {last : Option ℕ} (ha : Paired last a) (hb : Paired none b) :
    Paired last (a ++ b) := by
  induction a generalizing last with
  | nil => exact hb.mono
  | cons i a ih => exact ⟨ha.1, ih ha.2⟩

theorem Exchanges.append (ha : Exchanges lo a n) (hb : Exchanges (lo + n) b k) :
    Exchanges lo (a ++ b) (n + k) where
  paired := ha.paired.append hb.paired
  pushes := by
    rw [sitesOf, List.filterMap_append, ← sitesOf, ← sitesOf, ha.pushes, hb.pushes,
      List.range'_append_1]
  reduces := by
    rw [sitesOf, List.filterMap_append, ← sitesOf, ← sitesOf, ha.reduces, hb.reduces,
      List.range'_append_1]
  outs := by
    rw [List.forall_mem_append]
    exact ⟨ha.outs, hb.outs⟩

/-- Instructions without an exchange. -/
theorem exchanges_of_not {is : List (Ins W)} (lo : ℕ)
    (h : ∀ i ∈ is, i.call.kind ≠ .xchgPush ∧ i.call.kind ≠ .xchgReduce) : Exchanges lo is 0 where
  paired := by
    induction is with
    | nil => trivial
    | cons i is ih =>
      rw [List.forall_mem_cons] at h
      exact ⟨fun hk => absurd hk h.1.2, (ih h.2).mono⟩
  pushes := by
    rw [sitesOf, List.filterMap_eq_nil_iff.mpr fun i hi => if_neg (h i hi).1]
    rfl
  reduces := by
    rw [sitesOf, List.filterMap_eq_nil_iff.mpr fun i hi => if_neg (h i hi).2]
    rfl
  outs i hi hk := absurd hk (h i hi).1

theorem IsContract.exchanges {site : ℕ} {ws : List (List (Ins W))} (h : IsContract site ws) :
    Exchanges site ws.flatten 1 := by
  obtain ⟨ws', rfl, hoff⟩ := h
  rw [List.flatten_append]
  have hcol : Exchanges (W := W) (site + 0) (emitColReduce true site).flatten 1 := by
    constructor <;>
    simp [emitColReduce, emitXchgPush, emitXchgReduce, Paired, sitesOf, Ins.site, Call.nat,
      List.lookup_cons]
  exact (exchanges_of_not site fun i hi => (hoff i hi).kind).append hcol

theorem exchanges_emitRmsnorm (lo : ℕ) (w : W) (add : Option Buf) (extra : List (String × Arg)) :
    Exchanges lo [emitRmsnorm w .residual .xn add extra] 0 := by
  refine exchanges_of_not lo fun i hi => ?_
  rw [List.mem_singleton.mp hi]
  cases add <;> simp [emitRmsnorm, rmsnormCall]

theorem exchanges_emitBlock (bi site : ℕ) (pending : Bool) (b : Block W) :
    Exchanges site (emitBlock true bi site pending b).flatten 2 := by
  cases b with
  | attn b =>
    rw [emitBlock, emitAttnBlock, List.flatten_append, List.flatten_append, List.flatten_append]
    exact (((exchanges_emitRmsnorm _ _ _ _).append
      (isContract_emitAttnMixer bi b site).exchanges).append
      (exchanges_emitRmsnorm _ _ _ _)).append (isContract_emitFfn b.ffn _).exchanges
  | dn b =>
    rw [emitBlock, emitDnBlock, List.flatten_append, List.flatten_append, List.flatten_append]
    exact (((exchanges_emitRmsnorm _ _ _ _).append
      (isContract_emitDnMixer bi b site).exchanges).append
      (exchanges_emitRmsnorm _ _ _ _)).append (isContract_emitFfn b.ffn _).exchanges

theorem exchanges_emitTrunk (bi site : ℕ) (pending : Bool) (blocks : List (Block W)) :
    Exchanges site (emitTrunk true bi site pending blocks).flatten (2 * blocks.length) := by
  induction blocks generalizing bi site pending with
  | nil => exact exchanges_of_not site (by simp [emitTrunk])
  | cons b bs ih =>
    have hlength : 2 * (b :: bs).length = 2 + 2 * bs.length := by
      rw [List.length_cons]
      omega
    rw [emitTrunk, List.flatten_append, hlength]
    exact (exchanges_emitBlock bi site pending b).append (ih _ _ _)

/-- **The exchanges of the split program**, two for each block. -/
theorem exchanges_emit (e : EndLeaves W) (blocks : List (Block W)) :
    Exchanges 0 (emit true e blocks).flatten (2 * blocks.length) := by
  have hprologue : Exchanges 0 (emitPrologue e).flatten 0 :=
    exchanges_of_not 0 (by simp [emitPrologue])
  have hepilogue : Exchanges (0 + (0 + 2 * blocks.length)) (emitEpilogue true e).flatten 0 :=
    exchanges_of_not _ (by simp [emitEpilogue, emitFinalNorm, emitRmsnorm, rmsnormCall, headCall,
      logitsCall])
  rw [emit, List.flatten_append, List.flatten_append]
  have h := (hprologue.append (exchanges_emitTrunk 0 0 false blocks)).append hepilogue
  rwa [Nat.zero_add, Nat.add_zero] at h

/-- Two instructions of a kind have different sites. -/
theorem site_unique {kind : MacroKind} {a a' : List (Ins W)} {i i' : Ins W}
    (hnodup : (sitesOf kind is).Nodup) (h : a ++ [i] <+: is) (h' : a' ++ [i'] <+: is)
    (hk : i.call.kind = kind) (hk' : i'.call.kind = kind) (hsite : i.site = i'.site) :
    a = a' ∧ i = i' := by
  have hsub : ∀ {x y : List (Ins W)} {j j' : Ins W}, y ++ [j'] <+: is → j.call.kind = kind →
      j'.call.kind = kind → j.site = j'.site → x ++ [j] <+: y ++ [j'] → x = y ∧ j = j' := by
    intro x y j j' hy hj hj' hs hpre
    rcases List.prefix_concat_iff.mp hpre with heq | hpre
    · exact List.append_singleton_inj.mp heq
    · -- the site would be there twice
      exfalso
      have hmem : j.site ∈ sitesOf kind y :=
        List.mem_filterMap.mpr ⟨j, hpre.subset (by simp), by simp [hj]⟩
      have hnd : (sitesOf kind (y ++ [j'])).Nodup := hnodup.sublist (hy.sublist.filterMap _)
      rw [sitesOf, List.filterMap_append, List.nodup_append] at hnd
      exact hnd.2.2 _ hmem j'.site (by simp [hj']) hs
  rcases List.prefix_or_prefix_of_prefix h h' with hpre | hpre
  · exact hsub h' hk hk' hsite hpre
  · obtain ⟨h₁, h₂⟩ := hsub h hk' hk hsite.symm hpre
    exact ⟨h₁.symm, h₂.symm⟩

/-- Before a reduce stands the push of its site. -/
theorem Paired.push_before {last : Option ℕ} {i : Ins W}
    (h : Paired last is) (hpre : a ++ [i] <+: is) (hk : i.call.kind = .xchgReduce) :
    a = [] ∧ last = some i.site ∨
      ∃ a' j, a = a' ++ [j] ∧ j.call.kind = .xchgPush ∧ j.site = i.site := by
  induction a generalizing last is with
  | nil =>
    obtain ⟨rest, rfl⟩ := hpre
    exact Or.inl ⟨rfl, h.1 hk⟩
  | cons x a ih =>
    obtain ⟨rest, rfl⟩ := hpre
    refine Or.inr ?_
    rcases ih h.2 ⟨rest, rfl⟩ with ⟨rfl, hlast⟩ | ⟨a', j, rfl, hj⟩
    · by_cases hx : x.call.kind = .xchgPush
      · rw [if_pos hx] at hlast
        exact ⟨[], x, rfl, hx, Option.some.inj hlast⟩
      · rw [if_neg hx] at hlast
        cases hlast
    · exact ⟨x :: a', j, rfl, hj⟩

/-- Where an instruction of the windows up to the next one stands. -/
theorem prefix_append {a x w : List (Ins W)} {i : Ins W} (h : a ++ [i] <+: x ++ w) :
    a ++ [i] <+: x ∨ ∃ t, a = x ++ t ∧ t ++ [i] <+: w := by
  rcases List.prefix_or_prefix_of_prefix h (List.prefix_append x w) with hpre | hpre
  · exact Or.inl hpre
  · rcases List.prefix_concat_iff.mp hpre with rfl | ⟨t, rfl⟩
    · exact Or.inl (List.prefix_refl _)
    · rw [List.append_assoc] at h
      exact Or.inr ⟨t, rfl, (List.prefix_append_right_inj x).mp h⟩

end Exchanges

/-! ## The windows of the program -/

/-- A window as the coalescing loop sees it, which looks at the declared sets only. -/
def declared (w : List (Ins W)) : Window Name Unit :=
  w.map (Ins.toOp ⟨fun _ _ _ => (), fun _ => (), fun _ _ => ()⟩)

/-- One iteration of the coalescing loop. -/
def coalesceInsStep (merged : List (List (Ins W))) (w : List (Ins W)) : List (List (Ins W)) :=
  match merged.getLast? with
  | some l =>
    if mayMerge (declared l) (declared w) then merged.dropLast ++ [l ++ w] else merged ++ [w]
  | none => merged ++ [w]

/-- The coalescing loop, on instructions instead of their effects. It looks at the declared sets
only, so that it does the same to both (`toWindows_coalesceIns`). -/
def coalesceIns (ws : List (List (Ins W))) : List (List (Ins W)) := ws.foldl coalesceInsStep []

/-- `WINDOWS` of the split program, with coalescing or without. -/
def program (merge : Bool) (e : EndLeaves W) (blocks : List (Block W)) : List (List (Ins W)) :=
  if merge then coalesceIns (emit true e blocks) else emit true e blocks

section Windows

variable {V : Type*} {sem : Sem W V} {w : List (Ins W)} {ws : List (List (Ins W))}

/-- The test of the loop does not look at what the instructions do. -/
theorem mayMerge_declared (a b : List (Ins W)) :
    mayMerge (a.map (Ins.toOp sem)) (b.map (Ins.toOp sem)) =
      mayMerge (declared a) (declared b) := by
  simp only [mayMerge, hasXchg, independent, nHeavy, winReads, winWrites, declared, List.any_map,
    List.countP_map, List.foldl_map]
  rfl

/-- So the loop does to the instructions what it does to their effects. -/
theorem toWindows_coalesceIns (ws : List (List (Ins W))) :
    toWindows sem (coalesceIns ws) = coalesce (toWindows sem ws) := by
  have hstep : ∀ (ms : List (List (Ins W))) (w : List (Ins W)),
      toWindows sem (coalesceInsStep ms w) = coalesceStep (toWindows sem ms)
        (w.map (Ins.toOp sem)) := by
    intro ms w
    rw [coalesceInsStep, coalesceStep, toWindows, toWindows, List.getLast?_map]
    rcases ms.getLast? with _ | l
    · simp
    · simp only [Option.map_some, mayMerge_declared]
      split <;> simp
  rw [coalesceIns, coalesce]
  induction ws using List.reverseRecOn with
  | nil => rfl
  | append_singleton ws w ih =>
    have hsnoc : toWindows sem (ws ++ [w]) = toWindows sem ws ++ [w.map (Ins.toOp sem)] := by
      simp [toWindows]
    rw [hsnoc, List.foldl_append, List.foldl_append, ← ih]
    exact hstep _ w

theorem flatten_coalesceIns (ws : List (List (Ins W))) : (coalesceIns ws).flatten = ws.flatten := by
  have hstep : ∀ (ms : List (List (Ins W))) (w : List (Ins W)),
      (coalesceInsStep ms w).flatten = ms.flatten ++ w := by
    intro ms w
    rw [coalesceInsStep]
    rcases List.eq_nil_or_concat ms with rfl | ⟨ms, l, rfl⟩
    · simp
    · rw [List.concat_eq_append, List.getLast?_concat]
      simp only [List.dropLast_concat]
      split <;> simp
  rw [coalesceIns]
  induction ws using List.reverseRecOn with
  | nil => rfl
  | append_singleton ws w ih =>
    rw [List.foldl_append, List.foldl_cons, List.foldl_nil, hstep, ih, List.flatten_append,
      List.flatten_singleton]

/-- An exchange is alone in its window. -/
def XchgAlone (w : List (Ins W)) : Prop := ∀ i ∈ w, i.isXchg = true → w = [i]

theorem xchgAlone_of_not (h : ∀ i ∈ w, i.isXchg = false) : XchgAlone w := by
  intro i hi hx
  rw [h i hi] at hx
  exact absurd hx (by simp)

/-- The loop does not touch windows with an exchange. -/
theorem xchgAlone_coalesceIns (h : ∀ w ∈ ws, XchgAlone w) : ∀ w ∈ coalesceIns ws, XchgAlone w := by
  have hnone : ∀ w : List (Ins W), hasXchg (declared w) = false → ∀ i ∈ w, i.isXchg = false := by
    intro w hw i hi
    rw [hasXchg, List.any_eq_false] at hw
    exact Bool.eq_false_iff.mpr (hw _ (List.mem_map_of_mem hi))
  rw [coalesceIns]
  induction ws using List.reverseRecOn with
  | nil => simp
  | append_singleton ws w ih =>
    rw [List.forall_mem_append, List.forall_mem_singleton] at h
    have ih := ih h.1
    rw [List.foldl_append, List.foldl_cons, List.foldl_nil]
    generalize ws.foldl coalesceInsStep [] = ms at ih
    rw [coalesceInsStep]
    rcases List.eq_nil_or_concat ms with rfl | ⟨ms, l, rfl⟩
    · simpa using h.2
    · rw [List.concat_eq_append] at ih ⊢
      rw [List.getLast?_concat]
      simp only [List.dropLast_concat]
      split
      · rename_i hm
        simp only [mayMerge, Bool.and_eq_true, Bool.not_eq_true'] at hm
        rw [List.forall_mem_append] at ih
        rw [List.forall_mem_append, List.forall_mem_singleton]
        refine ⟨ih.1, xchgAlone_of_not ?_⟩
        rw [List.forall_mem_append]
        exact ⟨hnone l hm.1.1.1, hnone w hm.1.1.2⟩
      · rw [List.forall_mem_append, List.forall_mem_singleton]
        exact ⟨ih, h.2⟩

theorem xchgAlone_emitColReduce (site : ℕ) :
    ∀ w ∈ emitColReduce (W := W) true site, XchgAlone w := by
  intro w hw
  simp only [emitColReduce, if_true, List.mem_cons, List.not_mem_nil, or_false] at hw
  rcases hw with rfl | rfl <;>
  · intro i hi _
    rw [List.mem_singleton.mp hi]

theorem IsContract.xchgAlone {site : ℕ} (h : IsContract site ws) : ∀ w ∈ ws, XchgAlone w := by
  obtain ⟨ws', rfl, hoff⟩ := h
  rw [List.forall_mem_append]
  refine ⟨fun w hw => xchgAlone_of_not fun i hi => ?_, xchgAlone_emitColReduce site⟩
  have hkind := (hoff i (List.mem_flatten.mpr ⟨w, hw, hi⟩)).kind
  simp [Ins.isXchg, hkind.1, hkind.2]

theorem xchgAlone_single (i : Ins W) : XchgAlone [i] := by
  intro j hj _
  rw [List.mem_singleton.mp hj]

theorem xchgAlone_emitTrunk (bi site : ℕ) (pending : Bool) (blocks : List (Block W)) :
    ∀ w ∈ emitTrunk true bi site pending blocks, XchgAlone w := by
  induction blocks generalizing bi site pending with
  | nil => simp [emitTrunk]
  | cons b bs ih =>
    rw [emitTrunk, List.forall_mem_append]
    refine ⟨?_, ih _ _ _⟩
    cases b with
    | attn b =>
      rw [emitBlock, emitAttnBlock]
      simp only [List.forall_mem_append, List.forall_mem_singleton]
      exact ⟨⟨⟨xchgAlone_single _, (isContract_emitAttnMixer bi b site).xchgAlone⟩,
        xchgAlone_single _⟩, (isContract_emitFfn b.ffn _).xchgAlone⟩
    | dn b =>
      rw [emitBlock, emitDnBlock]
      simp only [List.forall_mem_append, List.forall_mem_singleton]
      exact ⟨⟨⟨xchgAlone_single _, (isContract_emitDnMixer bi b site).xchgAlone⟩,
        xchgAlone_single _⟩, (isContract_emitFfn b.ffn _).xchgAlone⟩

/-- What the pair relies on: the windows of a split program. Exchanges are paired and alone in their
windows, and in every window the order does not matter. -/
structure Splits (V : Type*) (L : List (List (Ins W))) (n : ℕ) : Prop where
  exchanges : Exchanges 0 L.flatten n
  alone : ∀ w ∈ L, XchgAlone w
  hazardFree : ∀ sem : Sem W V, ∀ w ∈ L, HazardFree (w.map (Ins.toOp sem))

/-- **Every emitted program splits**, coalesced or not. -/
theorem splits_program (merge : Bool) (e : EndLeaves W) (blocks : List (Block W)) :
    Splits V (program merge e blocks) (2 * blocks.length) := by
  have halone : ∀ w ∈ emit true e blocks, XchgAlone w := by
    rw [emit, List.forall_mem_append, List.forall_mem_append]
    refine ⟨⟨?_, xchgAlone_emitTrunk 0 0 false blocks⟩, ?_⟩
    · simp [emitPrologue, xchgAlone_single]
    · simp [emitEpilogue, xchgAlone_single]
  have hfree : ∀ sem : Sem W V, ∀ w ∈ emit true e blocks, HazardFree (w.map (Ins.toOp sem)) := by
    intro sem w hw
    exact hazardFree_emit sem true e blocks _ (List.mem_map_of_mem hw)
  cases merge with
  | false => exact ⟨exchanges_emit e blocks, halone, hfree⟩
  | true =>
    refine ⟨?_, xchgAlone_coalesceIns halone, fun sem => ?_⟩
    · rw [program, if_pos rfl, flatten_coalesceIns]
      exact exchanges_emit e blocks
    · intro w hw
      have hco : w.map (Ins.toOp sem) ∈ coalesce (toWindows sem (emit true e blocks)) := by
        rw [← toWindows_coalesceIns]
        exact List.mem_map_of_mem hw
      obtain ⟨gs, -, hgroups, hgs⟩ := coalesce_grouped (hazardFree_emit sem true e blocks)
      rw [hgroups] at hco
      obtain ⟨g, hg, hflat⟩ := List.mem_map.mp hco
      exact hflat ▸ (hgs g hg).hazardFree

theorem flatten_program (merge : Bool) (e : EndLeaves W) (blocks : List (Block W)) :
    (program merge e blocks).flatten = (emit true e blocks).flatten := by
  cases merge with
  | false => rfl
  | true => exact flatten_coalesceIns _

end Windows

/-! ## The pair -/

/-- What the host sets for a pass, on both GPUs (`gpu_set_inputs` and the token). -/
structure Inputs (P F : Type*) : Type _ where
  token : ℕ → F
  maskF16 : ℕ → F
  nKv : ℕ → F
  /-- the positions and the rows of the caches -/
  syms : P

/-- The cells after the host has set its inputs. -/
def Inputs.set {P F : Type*} (inp : Inputs P F) (m : Name → ℕ → F) : Name → ℕ → F :=
  Function.update (Function.update (Function.update m (cell .token) inp.token)
    (cell .maskF16) inp.maskF16) (cell .nKv) inp.nKv

/-- The host sets the same token on both GPUs, and touches no buffer. -/
theorem Mirrored.set {P F : Type*} {m : Fin 2 → Name → ℕ → F} (h : Mirrored true m)
    (inp : Inputs P F) : Mirrored true fun g => inp.set (m g) := by
  intro n hn
  have hbuf : ∀ b, n = buf b → inp.set (m 0) n = inp.set (m 1) n := by
    rintro b rfl
    simpa [Inputs.set] using h _ hn
  rcases hn with hn | hn | hn | ⟨hn, -⟩
  · exact hbuf _ hn
  · exact hbuf _ hn
  · simp [hn, Inputs.set]
  · exact hbuf _ hn

/-- One GPU of the pair: its store, its mailbox, and how far it has come in its pass. -/
structure Lane (F : Type*) : Type _ where
  store : Name → ℕ → F
  /-- the windows of the pass that it has left behind -/
  left : ℕ
  /-- its reduce has published the pass -/
  published : Bool
  /-- the mailbox that it writes, which lies in the memory of the peer -/
  mail : Mail F

/-- The pair: two GPUs, and the number of the pass that the host has begun. What the two have in
common besides is only what the mailboxes hold. -/
structure Tensor (F : Type*) : Type _ where
  /-- the number of the pass, which every reduce carries as its seqno -/
  pass : ℕ
  gpu : Fin 2 → Lane F

/-- A step of the host or of a GPU. -/
inductive TEv : Type where
  | pass
  | window (g : Fin 2)
  | push (g : Fin 2)
  | publish (g : Fin 2)

namespace Tensor

variable {B P F : Type*} [Add F] [Zero F]

section Step

variable (K : Kernel B P F) (up : Fin 2 → W → Option (List B)) (inputs : ℕ → Inputs P F)
  (L : List (List (Ins W)))

/-- After `dual_setup`: all buffers and mailboxes are zero, and no pass is in flight. -/
def start : Tensor F := ⟨0, fun _ => ⟨0, L.length, false, ⟨0, fun _ => 0⟩⟩⟩

/-- GPU `g` has moved. -/
def setLane (s : Tensor F) (g : Fin 2) (c : Lane F) : Tensor F :=
  { s with gpu := Function.update s.gpu g c }

omit [Add F] [Zero F] in
@[simp] theorem setLane_self (s : Tensor F) (g : Fin 2) (c : Lane F) : (s.setLane g c).gpu g = c :=
  Function.update_self ..

omit [Add F] [Zero F] in
theorem setLane_of_ne {s : Tensor F} {g g' : Fin 2} {c : Lane F} (h : g' ≠ g) :
    (s.setLane g c).gpu g' = s.gpu g' := Function.update_of_ne h ..

/-- The operations of GPU `g`, whose inbox is the mailbox that its peer writes. -/
def sem (s : Tensor F) (g : Fin 2) : Sem W (ℕ → F) :=
  semOn K up g (inputs s.pass).syms (s.gpu g.rev).mail.payload

/-- **What the pair can do.** A GPU executes a window in any order of its instructions, pushes,
publishes the number of the pass, or folds when it has heard the number; the host begins a pass when
both are done. -/
inductive Step (s : Tensor F) : TEv → Tensor F → Prop where
  /-- both GPUs are done, and the host begins a pass -/
  | pass (h : ∀ g, (s.gpu g).left = L.length) :
      Step s .pass ⟨s.pass + 1, fun g =>
        { s.gpu g with store := (inputs (s.pass + 1)).set (s.gpu g).store, left := 0 }⟩
  /-- GPU `g` executes a window; a reduce must have heard from the peer -/
  | window {g : Fin 2} {w w' : List (Ins W)} (hw : L[(s.gpu g).left]? = some w)
      (hpush : ∀ i ∈ w, i.call.kind ≠ .xchgPush)
      (hready : ∀ i ∈ w, i.call.kind = .xchgReduce → (s.gpu g).published = true ∧
        Wrap.behind ((s.gpu g.rev).mail.seqno i.site) (BitVec.ofNat 32 s.pass) = false)
      (hp : w.Perm w') :
      Step s (.window g) (s.setLane g { s.gpu g with
        store := w'.foldl (fun m i => i.exec (sem K up inputs s g) m) (s.gpu g).store
        left := (s.gpu g).left + 1, published := false })
  /-- GPU `g` stores its partial in the inbox of the peer -/
  | push {g : Fin 2} {i : Ins W} (hw : L[(s.gpu g).left]? = some [i])
      (hk : i.call.kind = .xchgPush) :
      Step s (.push g) (s.setLane g { s.gpu g with
        left := (s.gpu g).left + 1
        mail := { (s.gpu g).mail with
          payload := Function.update (s.gpu g).mail.payload i.site
            ((s.gpu g).store (buf .projOut)) } })
  /-- the reduce of GPU `g` publishes the pass -/
  | publish {g : Fin 2} {i : Ins W} (hw : L[(s.gpu g).left]? = some [i])
      (hk : i.call.kind = .xchgReduce) (hpub : (s.gpu g).published = false) :
      Step s (.publish g) (s.setLane g { s.gpu g with
        published := true
        mail := { (s.gpu g).mail with
          seqno := Function.update (s.gpu g).mail.seqno i.site (BitVec.ofNat 32 s.pass) } })

/-- The pair as a transition system. -/
def lts : Lts (Tensor F) TEv := ⟨fun s => s = start L, Step K up inputs L⟩

/-- What two GPUs in lockstep hold after `l` windows of a pass. The real GPUs are compared with it
one at a time, each with the windows that it has left behind. -/
def ideal : ℕ → ℕ → Fin 2 → Name → ℕ → F
  | 0, _ => 0
  | p + 1, l => runBoth K up (inputs (p + 1)).syms (L.take l).flatten fun g =>
      (inputs (p + 1)).set (ideal p L.length g)

/-- What they hold when the host has set the inputs of a pass. -/
def entry (p : ℕ) (g : Fin 2) : Name → ℕ → F :=
  (inputs p).set (ideal K up inputs L (p - 1) L.length g)

end Step

/-! ### What a GPU holds -/

section Invariant

variable {K : Kernel B P F} {up : Fin 2 → W → Option (List B)} {inputs : ℕ → Inputs P F}
  {L : List (List (Ins W))} {n : ℕ}

theorem ideal_eq {p l : ℕ} (hp : 0 < p) : ideal K up inputs L p l =
    runBoth K up (inputs p).syms (L.take l).flatten (entry K up inputs L p) := by
  cases p with
  | zero => exact absurd hp (by omega)
  | succ p => rfl

omit [Add F] [Zero F] in
/-- The windows up to and including the next. -/
theorem flatten_take_succ {l : ℕ} {w : List (Ins W)} (hw : L[l]? = some w) :
    (L.take (l + 1)).flatten = (L.take l).flatten ++ w := by
  rw [List.take_add_one, hw, List.flatten_append]
  simp

theorem ideal_succ {p l : ℕ} (hp : 0 < p) {w : List (Ins W)} (hw : L[l]? = some w) :
    ideal K up inputs L p (l + 1) =
      runBoth K up (inputs p).syms w (ideal K up inputs L p l) := by
  rw [ideal_eq hp, ideal_eq hp, flatten_take_succ hw, runBoth, List.foldl_append]
  rfl

/-- **What a GPU holds in pass `p`**: the store of the GPU in lockstep that has left as many windows
behind, and in its mailbox the payloads of this pass and, at each site, the number of this pass or
the last. -/
structure LaneOk (K : Kernel B P F) (up : Fin 2 → W → Option (List B)) (inputs : ℕ → Inputs P F)
    (L : List (List (Ins W))) (p : ℕ) (g : Fin 2) (c : Lane F) : Prop where
  pos : c.left < L.length → 0 < p
  /-- the store of lockstep -/
  store : c.store = ideal K up inputs L p c.left g
  /-- the payload of a site that it has pushed in this pass is what it held then -/
  payload : 0 < p → ∀ a j, a ++ [j] <+: (L.take c.left).flatten → j.call.kind = .xchgPush →
    c.mail.payload j.site =
      runBoth K up (inputs p).syms a (entry K up inputs L p) g (buf .projOut)
  /-- it has published this pass at a site, and is at the reduce or past it, or the last one -/
  seqno : ∀ a i, a ++ [i] <+: L.flatten → i.call.kind = .xchgReduce →
    c.mail.seqno i.site = BitVec.ofNat 32 p ∧ a <+: (L.take c.left).flatten ∨
      c.mail.seqno i.site = BitVec.ofNat 32 p - 1 ∧ ¬ a ++ [i] <+: (L.take c.left).flatten
  published : c.published = true → ∃ i, L[c.left]? = some [i] ∧ i.call.kind = .xchgReduce ∧
    c.mail.seqno i.site = BitVec.ofNat 32 p

theorem behind_pred (x : U32) : Wrap.behind (x - 1) x = true := by
  have hdiff : x - 1 - x = -1 := by ring
  rw [Wrap.behind, hdiff]
  decide

/-- Only the payload of the own site is looked at. -/
theorem exec_inbox {i : Ins W} {g : Fin 2} {p : P} {inbox inbox' : ℕ → ℕ → F}
    (h : i.call.kind = .xchgReduce → inbox i.site = inbox' i.site) (m : Name → ℕ → F) :
    i.exec (semOn K up g p inbox) m = i.exec (semOn K up g p inbox') m := by
  funext n
  refine Ins.exec_congr ?_ rfl
  by_cases hk : i.call.kind = .xchgReduce
  · have hfold : ∀ vs, (semOn K up g p inbox).fold i.site vs =
      (semOn K up g p inbox').fold i.site vs := by
      intro vs
      unfold semOn
      simp only [h hk]
    unfold Ins.values
    simp only [hk]
    exact congrArg (fun v => [v]) (hfold _)
  · exact values_inbox hk g inbox inbox' _

/-- A GPU on its own does what it does in lockstep, if a reduce finds in its inbox what the other
GPU holds in lockstep. -/
theorem foldl_exec_eq {g : Fin 2} {p : P} {inbox : ℕ → ℕ → F} {w : List (Ins W)}
    (halone : XchgAlone w)
    {m : Fin 2 → Name → ℕ → F}
    (hinbox : ∀ i ∈ w, i.call.kind = .xchgReduce → inbox i.site = m g.rev (buf .projOut)) :
    w.foldl (fun m i => i.exec (semOn K up g p inbox) m) (m g) = runBoth K up p w m g := by
  by_cases hred : ∃ i ∈ w, i.call.kind = .xchgReduce
  · obtain ⟨i, hi, hk⟩ := hred
    obtain rfl := halone i hi (by simp [Ins.isXchg, hk])
    exact exec_inbox (fun _ => hinbox i hi hk) (m g)
  · push Not at hred
    clear halone hinbox
    induction w generalizing m with
    | nil => rfl
    | cons i w ih =>
      rw [List.forall_mem_cons] at hred
      have hstep : i.exec (semOn K up g p inbox) (m g) = both K up p i m g :=
        exec_inbox (fun hk => absurd hk hred.1) (m g)
      rw [List.foldl_cons, hstep]
      exact ih hred.2

omit [Add F] [Zero F] in
/-- In a window of the program the order does not matter. -/
theorem foldl_exec_perm {V : Type*} {sem : Sem W V} {w w' : List (Ins W)}
    (hfree : HazardFree (w.map (Ins.toOp sem))) (hp : w.Perm w') (m : Name → V) :
    w'.foldl (fun m i => i.exec sem m) m = w.foldl (fun m i => i.exec sem m) m := by
  have h := hfree.runOps_perm (hp.map _) m
  rw [runOps, runOps, List.foldl_map, List.foldl_map] at h
  exact h.symm

variable {p : ℕ} {g : Fin 2} {c c' : Lane F}

omit [Add F] [Zero F] in
/-- The next window ends a prefix of the program. -/
theorem prefix_flatten {l : ℕ} {w : List (Ins W)} (hw : L[l]? = some w) :
    (L.take l).flatten ++ w <+: L.flatten := by
  rw [← flatten_take_succ hw]
  exact (List.take_prefix _ L).flatten

/-- **A reduce that has heard from its peer finds what the peer held**: the number tells the pass,
and the peer pushes a site only once in a pass. -/
theorem LaneOk.heard (hL : Splits (ℕ → F) L n) (h : LaneOk K up inputs L p g c) (hp : 0 < p) {l : ℕ}
    {i : Ins W} (hw : L[l]? = some [i]) (hk : i.call.kind = .xchgReduce)
    (hready : Wrap.behind (c.mail.seqno i.site) (BitVec.ofNat 32 p) = false) :
    c.mail.payload i.site = ideal K up inputs L p l g (buf .projOut) := by
  have hpre := prefix_flatten hw
  obtain ⟨-, hcontra⟩ | ⟨a', j, ha, hj, hsite⟩ := hL.exchanges.paired.push_before hpre hk
  · cases hcontra
  rcases h.seqno _ _ hpre hk with ⟨-, hleft⟩ | ⟨hold, -⟩
  · rw [ha] at hleft
    have hout : buf .projOut ∉ j.outs := by
      have hmem : j ∈ L.flatten := hpre.subset (by simp [ha])
      rw [hL.exchanges.outs j hmem hj]
      exact List.not_mem_nil
    rw [← hsite, h.payload hp a' j hleft hj, ideal_eq hp, ha, runBoth, runBoth, List.foldl_append,
      List.foldl_cons, List.foldl_nil]
    exact (Ins.exec_of_notMem hout).symm
  · rw [hold, behind_pred] at hready
    exact absurd hready (by simp)

/-- What GPU `g` does in window `w` of the program, except for the store and the mailbox. -/
theorem LaneOk.seqno_next (hL : Splits (ℕ → F) L n) (h : LaneOk K up inputs L p g c)
    {w : List (Ins W)} (hw : L[c.left]? = some w)
    (hpub : ∀ i ∈ w, i.call.kind = .xchgReduce → c.published = true) :
    ∀ a i, a ++ [i] <+: L.flatten → i.call.kind = .xchgReduce →
      c.mail.seqno i.site = BitVec.ofNat 32 p ∧ a <+: (L.take (c.left + 1)).flatten ∨
        c.mail.seqno i.site = BitVec.ofNat 32 p - 1 ∧
          ¬ a ++ [i] <+: (L.take (c.left + 1)).flatten := by
  intro a i hpre hk
  rw [flatten_take_succ hw]
  rcases h.seqno a i hpre hk with ⟨hnow, hle⟩ | ⟨hold, hnot⟩
  · exact Or.inl ⟨hnow, hle.trans (List.prefix_append _ _)⟩
  · by_cases hin : a ++ [i] <+: (L.take c.left).flatten ++ w
    · -- it is the reduce of this window, which has published
      obtain hle | ⟨t, rfl, ht⟩ := prefix_append hin
      · exact absurd hle hnot
      have hi : i ∈ w := ht.subset (by simp)
      obtain rfl := hL.alone w (List.mem_of_getElem? hw) i hi (by simp [Ins.isXchg, hk])
      obtain ⟨i', hi', -, hnow⟩ := h.published (hpub i hi hk)
      rw [hw] at hi'
      obtain rfl : i = i' := by simpa using hi'
      exact Or.inl ⟨hnow, (List.prefix_append _ _).trans hin⟩
    · exact Or.inr ⟨hold, hin⟩

/-- GPU `g` executes a window. -/
theorem LaneOk.window (hL : Splits (ℕ → F) L n) (h : LaneOk K up inputs L p g c)
    {w : List (Ins W)} (hw : L[c.left]? = some w) (hpush : ∀ i ∈ w, i.call.kind ≠ .xchgPush)
    (hpub : ∀ i ∈ w, i.call.kind = .xchgReduce → c.published = true) :
    LaneOk K up inputs L p g { c with
      store := ideal K up inputs L p (c.left + 1) g, left := c.left + 1, published := false } where
  pos _ := h.pos (List.getElem?_eq_some_iff.mp hw).1
  store := rfl
  payload hp a j hpre hj := by
    have hpre : a ++ [j] <+: (L.take (c.left + 1)).flatten := hpre
    rw [flatten_take_succ hw] at hpre
    rcases prefix_append hpre with hpre | ⟨t, -, ht⟩
    · exact h.payload hp a j hpre hj
    · exact absurd hj (hpush j (ht.subset (by simp)))
  seqno := h.seqno_next hL hw hpub
  published := nofun

/-- GPU `g` pushes. -/
theorem LaneOk.push (hL : Splits (ℕ → F) L n) (h : LaneOk K up inputs L p g c) {i : Ins W}
    (hw : L[c.left]? = some [i]) (hk : i.call.kind = .xchgPush) :
    LaneOk K up inputs L p g { c with
      left := c.left + 1
      mail := { c.mail with
        payload := Function.update c.mail.payload i.site (c.store (buf .projOut)) } } where
  pos _ := h.pos (List.getElem?_eq_some_iff.mp hw).1
  store := by
    have hpos := h.pos (List.getElem?_eq_some_iff.mp hw).1
    have hi : i ∈ L.flatten := (prefix_flatten hw).subset (by simp)
    rw [h.store, ideal_succ hpos hw, runBoth, List.foldl_cons, List.foldl_nil]
    funext n
    refine (Ins.exec_of_notMem ?_).symm
    rw [hL.exchanges.outs i hi hk]
    exact List.not_mem_nil
  payload hp a j hpre hj := by
    have hpre : a ++ [j] <+: (L.take (c.left + 1)).flatten := hpre
    have hpre' := hpre.trans (List.take_prefix _ L).flatten
    rw [flatten_take_succ hw] at hpre
    have hnodup : (sitesOf .xchgPush L.flatten).Nodup := by
      rw [hL.exchanges.pushes]
      exact List.nodup_range'
    by_cases hsite : j.site = i.site
    · obtain ⟨rfl, rfl⟩ := site_unique hnodup hpre' (prefix_flatten hw) hj hk hsite
      simp only [Function.update_self]
      rw [h.store, ideal_eq hp]
    · simp only [Function.update_of_ne hsite]
      rcases prefix_append hpre with hpre | ⟨t, -, ht⟩
      · exact h.payload hp a j hpre hj
      · have hji : j ∈ [i] := ht.subset (by simp)
        exact absurd (congrArg Ins.site (List.mem_singleton.mp hji)) hsite
  seqno := by
    refine h.seqno_next hL hw fun j hj hk' => ?_
    rw [List.mem_singleton.mp hj, hk] at hk'
    cases hk'
  published hpub := by
    obtain ⟨i', hi', hk', -⟩ := h.published hpub
    rw [hw] at hi'
    obtain rfl : i = i' := by simpa using hi'
    rw [hk] at hk'
    cases hk'

/-- The reduce of GPU `g` publishes. -/
theorem LaneOk.publish (hL : Splits (ℕ → F) L n) (h : LaneOk K up inputs L p g c) {i : Ins W}
    (hw : L[c.left]? = some [i]) (hk : i.call.kind = .xchgReduce) :
    LaneOk K up inputs L p g { c with
      published := true
      mail := { c.mail with
        seqno := Function.update c.mail.seqno i.site (BitVec.ofNat 32 p) } } where
  pos := h.pos
  store := h.store
  payload := h.payload
  seqno a j hpre hj := by
    have hnodup : (sitesOf .xchgReduce L.flatten).Nodup := by
      rw [hL.exchanges.reduces]
      exact List.nodup_range'
    by_cases hsite : j.site = i.site
    · obtain ⟨rfl, rfl⟩ := site_unique hnodup hpre (prefix_flatten hw) hj hk hsite
      exact Or.inl ⟨Function.update_self .., List.prefix_refl _⟩
    · simp only [Function.update_of_ne hsite]
      exact h.seqno a j hpre hj
  published _ := ⟨i, hw, hk, Function.update_self ..⟩

/-- The host begins a pass. -/
theorem LaneOk.pass (h : LaneOk K up inputs L p g c) (hdone : c.left = L.length) :
    LaneOk K up inputs L (p + 1) g { c with store := (inputs (p + 1)).set c.store, left := 0 } where
  pos _ := Nat.succ_pos p
  store := by
    rw [h.store, hdone]
    rfl
  payload _ a j hpre := by
    have hlen := hpre.length_le
    simp at hlen
  seqno a i hpre hk := by
    have hone : BitVec.ofNat 32 (p + 1) - 1 = BitVec.ofNat 32 p := by
      rw [BitVec.ofNat_add]
      exact add_sub_cancel_right _ _
    rw [hone]
    rcases h.seqno a i hpre hk with ⟨hnow, -⟩ | ⟨-, hnot⟩
    · refine Or.inr ⟨hnow, fun hle => ?_⟩
      have hlen := hle.length_le
      simp at hlen
    · rw [hdone, List.take_length] at hnot
      exact absurd hpre hnot
  published hpub := by
    obtain ⟨i, hi, -⟩ := h.published hpub
    rw [hdone, List.getElem?_eq_none le_rfl] at hi
    cases hi

/-- **In every run both GPUs hold what they would hold in lockstep.** -/
theorem run_ok (hL : Splits (ℕ → F) L n) {τ : List TEv} {s : Tensor F}
    (h : (lts K up inputs L).Run τ s) : ∀ g, LaneOk K up inputs L s.pass g (s.gpu g) := by
  refine h.inv (I := fun _ s => ∀ g, LaneOk K up inputs L s.pass g (s.gpu g)) ?_ ?_
  · rintro s rfl g
    refine ⟨fun h => absurd h (lt_irrefl _), rfl, fun h => absurd h (lt_irrefl _), ?_, nofun⟩
    intro a i hpre _
    refine Or.inl ⟨rfl, ?_⟩
    rw [start, List.take_length]
    exact (List.prefix_append _ _).trans hpre
  · rintro τ s e s' - ih hs
    have hmove : ∀ g c, LaneOk K up inputs L s.pass g c →
        ∀ g', LaneOk K up inputs L (s.setLane g c).pass g' ((s.setLane g c).gpu g') := by
      intro g c hc g'
      by_cases hg : g' = g
      · subst hg
        rw [setLane_self]
        exact hc
      · rw [setLane_of_ne hg]
        exact ih g'
    cases hs with
    | pass hdone => exact fun g => (ih g).pass (hdone g)
    | @window g w w' hw hpush hready hp =>
      refine hmove g _ ?_
      have hpos := (ih g).pos (List.getElem?_eq_some_iff.mp hw).1
      have hmem := List.mem_of_getElem? hw
      have hstore : w'.foldl (fun m i => i.exec (sem K up inputs s g) m) (s.gpu g).store =
          ideal K up inputs L s.pass ((s.gpu g).left + 1) g := by
        rw [foldl_exec_perm (hL.hazardFree _ w hmem) hp, (ih g).store, ideal_succ hpos hw]
        refine foldl_exec_eq (hL.alone w hmem) fun i hi hk => ?_
        obtain rfl := hL.alone w hmem i hi (by simp [Ins.isXchg, hk])
        exact (ih g.rev).heard hL hpos hw hk (hready i hi hk).2
      rw [hstore]
      exact (ih g).window hL hw hpush fun i hi hk => (hready i hi hk).1
    | push hw hk => exact hmove _ _ ((ih _).push hL hw hk)
    | publish hw hk _ => exact hmove _ _ ((ih _).publish hL hw hk)

/-! ### Progress -/

/-- Both GPUs have left the same windows of pass `p` behind. -/
structure Level (p l : ℕ) (s : Tensor F) : Prop where
  pass : s.pass = p
  left : ∀ g, (s.gpu g).left = l
  published : ∀ g, (s.gpu g).published = false

omit [Add F] [Zero F] in
/-- The lanes after each of the two GPUs has moved. -/
theorem Level.of_moves {p l : ℕ} {s : Tensor F} (hpass : s.pass = p) {c₀ c₁ : Lane F}
    (h₀ : c₀.left = l ∧ c₀.published = false) (h₁ : c₁.left = l ∧ c₁.published = false) :
    Level p l ((s.setLane 0 c₀).setLane 1 c₁) := by
  refine ⟨hpass, fun g => ?_, fun g => ?_⟩ <;> rcases g with ⟨_ | _ | _, hg⟩
  · exact h₀.1
  · exact h₁.1
  · omega
  · exact h₀.2
  · exact h₁.2
  · omega

theorem behind_self (x : U32) : Wrap.behind x x = false := by
  have hdiff : x - x = 0 := sub_self x
  rw [Wrap.behind, hdiff]
  decide

/-- Both GPUs can leave the next window behind. -/
theorem Level.next (hL : Splits (ℕ → F) L n) {τ : List TEv} {s : Tensor F} {l : ℕ}
    (h : (lts K up inputs L).Run τ s) (hl : Level p l s) (hlt : l < L.length) :
    ∃ τ' s', (lts K up inputs L).Run τ' s' ∧ Level p (l + 1) s' := by
  have hw : L[l]? = some L[l] := List.getElem?_eq_getElem hlt
  have h₀ := hl.left 0
  have h₁ := hl.left 1
  generalize L[l] = w at hw
  have halone := hL.alone w (List.mem_of_getElem? hw)
  have hw₀ : L[(s.gpu 0).left]? = some w := by rw [h₀, hw]
  have hw₁ : ∀ c, L[((s.setLane 0 c).gpu 1).left]? = some w := by
    intro c
    rw [setLane_of_ne (by decide), h₁, hw]
  have hpub : ∀ c, ((s.setLane 0 c).gpu 1).published = false := by
    intro c
    rw [setLane_of_ne (by decide)]
    exact hl.published 1
  have hleft : ∀ c, ((s.setLane 0 c).gpu 1).left = l := by
    intro c
    rw [setLane_of_ne (by decide)]
    exact h₁
  by_cases hpush : ∃ i ∈ w, i.call.kind = .xchgPush
  · obtain ⟨i, hi, hk⟩ := hpush
    obtain rfl := halone i hi (by simp [Ins.isXchg, hk])
    refine ⟨_, _, .snoc (.snoc h (Step.push hw₀ hk)) (Step.push (hw₁ _) hk), Level.of_moves hl.pass
      ⟨?_, hl.published 0⟩ ⟨?_, hpub _⟩⟩
    · rw [h₀]
    · rw [hleft]
  · push Not at hpush
    by_cases hred : ∃ i ∈ w, i.call.kind = .xchgReduce
    · obtain ⟨i, hi, hk⟩ := hred
      obtain rfl := halone i hi (by simp [Ins.isXchg, hk])
      -- first both publish, then both have heard
      obtain ⟨τ₁, s₁, hrun, hpass, hgpu⟩ : ∃ τ₁ s₁, (lts K up inputs L).Run τ₁ s₁ ∧ s₁.pass = p ∧
          ∀ g, (s₁.gpu g).left = l ∧ (s₁.gpu g).published = true ∧
            (s₁.gpu g).mail.seqno i.site = BitVec.ofNat 32 p := by
        refine ⟨_, _, .snoc (.snoc h (Step.publish hw₀ hk (hl.published 0)))
          (Step.publish (hw₁ _) hk (hpub _)), hl.pass, fun g => ?_⟩
        rcases g with ⟨_ | _ | _, hg⟩
        · exact ⟨h₀, rfl, (Function.update_self ..).trans (by rw [hl.pass])⟩
        · exact ⟨hleft _, rfl, (Function.update_self ..).trans (by rw [← hl.pass]; rfl)⟩
        · omega
      have hready : ∀ (s : Tensor F) (g : Fin 2), s.pass = p → (s.gpu g).published = true →
          (s.gpu g.rev).mail.seqno i.site = BitVec.ofNat 32 p →
          ∀ j ∈ [i], j.call.kind = .xchgReduce → (s.gpu g).published = true ∧
            Wrap.behind ((s.gpu g.rev).mail.seqno j.site) (BitVec.ofNat 32 s.pass) = false := by
        intro s g hs hp hq j hj _
        rw [List.mem_singleton.mp hj, hq, hs]
        exact ⟨hp, behind_self _⟩
      have hat : ∀ g, L[(s₁.gpu g).left]? = some [i] := fun g => by rw [(hgpu g).1, hw]
      refine ⟨_, _, .snoc (.snoc hrun (Step.window (hat 0) hpush
        (hready s₁ 0 hpass (hgpu 0).2.1 (hgpu 1).2.2) (.refl [i]))) (Step.window ?_ hpush
        (hready _ 1 hpass (hgpu 1).2.1 ?_) (.refl [i])), Level.of_moves hpass ⟨?_, rfl⟩ ⟨?_, rfl⟩⟩
      · exact hat 1
      · exact (hgpu 0).2.2
      · rw [(hgpu 0).1]
      · exact congrArg (· + 1) (hgpu 1).1
    · push Not at hred
      have hready : ∀ (s : Tensor F) (g : Fin 2), ∀ i ∈ w, i.call.kind = .xchgReduce →
          (s.gpu g).published = true ∧
            Wrap.behind ((s.gpu g.rev).mail.seqno i.site) (BitVec.ofNat 32 s.pass) = false :=
        fun _ _ i hi hk => absurd hk (hred i hi)
      refine ⟨_, _, .snoc (.snoc h (Step.window hw₀ hpush (hready _ _) (.refl w)))
        (Step.window (hw₁ _) hpush (hready _ _) (.refl w)),
          Level.of_moves hl.pass ⟨?_, rfl⟩ ⟨?_, rfl⟩⟩
      · rw [h₀]
      · rw [hleft]

/-- **Any number of passes can be made.** -/
theorem exists_level (hL : Splits (ℕ → F) L n) (p l : ℕ) (hl : l ≤ L.length) :
    ∃ τ s, (lts K up inputs L).Run τ s ∧ Level (p + 1) l s := by
  induction p generalizing l with
  | zero =>
    induction l with
    | zero =>
      exact ⟨_, _, .snoc (.start rfl) (Step.pass fun _ => rfl), rfl, fun _ => rfl, fun _ => rfl⟩
    | succ l ih =>
      obtain ⟨τ, s, hrun, hs⟩ := ih (by omega)
      exact hs.next hL hrun hl
  | succ p ihp =>
    induction l with
    | zero =>
      obtain ⟨τ, s, hrun, hs⟩ := ihp L.length le_rfl
      exact ⟨_, _, .snoc hrun (Step.pass hs.left), congrArg (· + 1) hs.pass, fun _ => rfl,
        hs.published⟩
    | succ l ih =>
      obtain ⟨τ, s, hrun, hs⟩ := ih (by omega)
      exact hs.next hL hrun hl

end Invariant

/-! ### The trunk -/

/-- The instructions that a GPU has executed when it has left `l` windows of pass `p` behind, in the
order of emission, over all passes. -/
def executed (L : List (List (Ins W))) : ℕ → ℕ → List (Ins W)
  | 0, _ => []
  | p + 1, l => executed L p L.length ++ (L.take l).flatten

section Trunk

variable {K : Kernel B P F} {up : Fin 2 → W → Option (List B)} {inputs : ℕ → Inputs P F}
  {L : List (List (Ins W))} {mirrored : W → Prop}

omit [Add F] [Zero F] in
theorem carries_executed (hL : Carries mirrored true L.flatten true) (p : ℕ) :
    Carries mirrored true (executed L p L.length) true := by
  induction p with
  | zero => exact ⟨trivial, rfl⟩
  | succ p ih =>
    rw [executed, List.take_length]
    exact ih.append hL

omit [Add F] [Zero F] in
theorem guards_executed (hL : Carries mirrored true L.flatten true) (p l : ℕ) :
    Guards mirrored true (executed L p l) := by
  cases p with
  | zero => trivial
  | succ p =>
    have hsplit : L.flatten = (L.take l).flatten ++ (L.drop l).flatten := by
      rw [← List.flatten_append, List.take_append_drop]
    have hrest := hL.guards
    rw [hsplit, guards_append] at hrest
    have hprev := carries_executed hL p
    rw [executed, guards_append, hprev.folds]
    exact ⟨hprev.guards, hrest.1⟩

variable (K inputs) in
/-- In lockstep the trunk is mirrored, over any number of passes. -/
theorem mirrored_ideal (hL : Carries mirrored true L.flatten true)
    (hup : ∀ w, mirrored w → up 0 w = up 1 w) (p l : ℕ) :
    Mirrored (foldsAll true (executed L p l)) (ideal K up inputs L p l) := by
  induction p generalizing l with
  | zero => exact fun _ _ => rfl
  | succ p ih =>
    have hstart : Mirrored true fun g => (inputs (p + 1)).set
      (ideal K up inputs L p L.length g) := by
      have hprev := ih L.length
      rw [(carries_executed hL p).folds] at hprev
      exact hprev.set (inputs (p + 1))
    have hguards := guards_executed hL (p + 1) l
    rw [executed, guards_append, (carries_executed hL p).folds] at hguards
    have hfolds : foldsAll true (executed L (p + 1) l) = foldsAll true (L.take l).flatten := by
      have hprev := (carries_executed hL p).folds
      rw [foldsAll] at hprev
      rw [executed, foldsAll, List.foldl_append, hprev]
      rfl
    rw [hfolds]
    exact hstart.run hguards.2 hup

end Trunk

/-- **The trunk is mirrored, bit for bit.** Whatever the operations compute, whatever weights were
loaded and in whatever order the two GPUs move: when they have left the same windows of a pass
behind, `residual` and `xn` are the same on both, and so is `proj_out` if no contract GEMV has
followed the last reduce. -/
theorem mirrored_trunk (K : Kernel B P F) (f : Gguf.File) (bytes : ℕ → B) (inputs : ℕ → Inputs P F)
    (merge : Bool) {e : EndLeaves Gguf.Bytes} {blocks : List (Block Gguf.Bytes)}
    (hnamed : TrunkNamed e blocks) {τ τ' : List TEv} {s s' : Tensor F}
    (h : (lts K (uploadedWeight f bytes) inputs (program merge e blocks)).Run τ s)
    (h' : (lts K (uploadedWeight f bytes) inputs (program merge e blocks)).Run τ' s')
    (hpass : s.pass = s'.pass) (hleft : (s.gpu 0).left = (s'.gpu 1).left) :
    (s.gpu 0).store (buf .residual) = (s'.gpu 1).store (buf .residual) ∧
      (s.gpu 0).store (buf .xn) = (s'.gpu 1).store (buf .xn) ∧
      ∀ a i b, executed (program merge e blocks) s.pass (s.gpu 0).left = a ++ i :: b →
        i.call.kind = .xchgReduce → (∀ j ∈ b, j.contracts = false) →
        (s.gpu 0).store (buf .projOut) = (s'.gpu 1).store (buf .projOut) := by
  have hL : Carries IsMirrored true (program merge e blocks).flatten true := by
    rw [flatten_program]
    exact carries_emit hnamed.mirrored
  have hmirrored : Mirrored _
      (ideal K (uploadedWeight f bytes) inputs (program merge e blocks) s.pass (s.gpu 0).left) :=
    mirrored_ideal K inputs hL (fun w hw => uploadedWeight_mirrored hw) s.pass (s.gpu 0).left
  have h₀ := (run_ok (splits_program merge e blocks) h 0).store
  have h₁ := (run_ok (splits_program merge e blocks) h' 1).store
  rw [← hpass, ← hleft] at h₁
  rw [h₀, h₁]
  refine ⟨hmirrored _ (Or.inl rfl), hmirrored _ (Or.inr (Or.inl rfl)), fun a i b hab hi hb => ?_⟩
  refine hmirrored _ (Or.inr (Or.inr (Or.inr ⟨rfl, ?_⟩)))
  have hguards := guards_executed hL s.pass (s.gpu 0).left
  rw [hab] at hguards ⊢
  exact folds_of_reduce hguards hi hb

/-- The graph's name of a weight of block 0. -/
def inBlock0 (suffix : String) : Gguf.Bytes := nameOf "blk.0" ++ nameOf suffix

/-- A weight matrix of block 0; its size does not matter here. -/
def leaf0 (suffix : String) : Leaf Gguf.Bytes := ⟨inBlock0 suffix, 2, 2⟩

/-- A network of one attention block. -/
def oneAttn : List (Block Gguf.Bytes) :=
  [.attn ⟨inBlock0 ".attn_norm.weight", leaf0 ".attn_q.weight", leaf0 ".attn_k.weight",
    leaf0 ".attn_v.weight", inBlock0 ".attn_q_norm.weight", inBlock0 ".attn_k_norm.weight",
    leaf0 ".attn_output.weight", inBlock0 ".post_attention_norm.weight",
    ⟨leaf0 ".ffn_gate.weight", leaf0 ".ffn_up.weight", leaf0 ".ffn_down.weight"⟩⟩]

/-- Its embedding and its head. -/
def oneAttnEnd : EndLeaves Gguf.Bytes :=
  ⟨nameOf "token_embd.weight", nameOf "output_norm.weight", ⟨nameOf "output.weight", 2, 2⟩⟩

/-- An operation adds up what it reads. -/
def sumKernel : Kernel ℕ ℕ ℕ := fun pos _ o vs e => (vs.map fun v => v e).sum + pos + o + 1

theorem mirrored_trunk_oneAttn : ∃ τ s,
    (lts sumKernel (uploadedWeight ⟨3, [], [], 32, 0, 0, 0⟩ id) (fun p => ⟨fun _ => 7, 0, 0, p⟩)
      (program true oneAttnEnd oneAttn)).Run τ s ∧ s.pass = 2 ∧
    (s.gpu 0).store (buf .residual) = (s.gpu 1).store (buf .residual) ∧
    (s.gpu 0).store (buf .xn) = (s.gpu 1).store (buf .xn) := by
  have hnamed : TrunkNamed oneAttnEnd oneAttn := by
    refine ⟨rfl, rfl, fun b hb => ⟨nameOf "blk.0", ?_⟩, fun b hb => ⟨nameOf "blk.0", ?_⟩⟩ <;>
    · rw [List.mem_singleton.mp hb]
      rfl
  obtain ⟨τ, s, hrun, hs⟩ := exists_level
    (K := sumKernel) (splits_program true oneAttnEnd oneAttn) 1 3 (by decide)
  obtain ⟨hresidual, hxn, -⟩ := mirrored_trunk sumKernel ⟨3, [], [], 32, 0, 0, 0⟩ id
    (fun p => ⟨fun _ => 7, 0, 0, p⟩) true hnamed hrun hrun rfl ((hs.left 0).trans (hs.left 1).symm)
  exact ⟨τ, s, hrun, hs.pass, hresidual, hxn⟩

end Tensor

end Megakernel.Schedule
