import Megakernel.Serialize
import Megakernel.SplitGrid

/-!
# The emitted program is a split program

`SplitProgram` asks for a number of facts about where pushes, reduces and contract GEMVs stand. Here
each of them is shown of the serialized program (`splitProgram`): two of its instructions are
compared by the windows in front of them, and a GEMV and a push by the pushes in front of them.

The result is `compiled`: for any blocks, any estimates and both ways of the coalescing there is a
split program, with two sites for each block (`exists_push_compiled`).
-/

namespace Megakernel.Schedule

variable {W : Type*}

/-! ## The split program -/

section Program

variable {L L₀ L₁ L₂ : List (Ranged W)} {v w : Ranged W} {n i j k k' s : ℕ}
    {x y : Ins W} {r : ℤ × ℤ}

/-- A window is its instructions and the boundary behind them. -/
theorem length_snoc (h : w.2.length = w.1.length) :
    (instructions 0 (L₁ ++ [w])).length = (instructions 0 L₁).length + w.1.length + 1 := by
  rw [instructions_append, List.length_append, instructions, List.length_append,
    List.length_zipWith, h, min_self]
  rfl

/-- Behind the instructions of a window stands its boundary. -/
theorem getElem?_boundary (h : w.2.length = w.1.length) :
    (instructions 0 (L₁ ++ w :: L₂))[(instructions 0 L₁).length + w.1.length]? =
      some boundaryInstr := by
  have hlen : (List.zipWith (Ins.toInstr (0 + pushes (windows L₁).flatten)) w.1 w.2).length =
      w.1.length := by
    rw [List.length_zipWith, h, min_self]
  rw [instructions_append, List.getElem?_append_right (Nat.le_add_right _ _),
    Nat.add_sub_cancel_left,
    instructions, List.getElem?_append_right hlen.le, hlen, Nat.sub_self, List.getElem?_cons_zero]

/-- An instruction of the exchange is one of a window, and the window is one of the program. -/
theorem exists_stands_of_role (h : roleAt (instructions 0 L) i ≠ .work) :
    ∃ L₁ w L₂ k x r, Stands L i L₁ w L₂ k x r := by
  rcases hins : (instructions 0 L)[i]? with _ | ins
  · rw [roleAt, hins] at h
    exact absurd rfl h
  · refine exists_stands ?_ (List.getElem?_eq_some_iff.mp hins).1
    rw [isCrossing, hins]
    by_contra hb
    have hkind : ins.kind = MacroKind.boundary.code := by
      simpa [Instr.isBoundary] using hb
    refine h ?_
    rw [roleAt, hins]
    simp only [Instr.role, Instr.isBoundary, hkind]
    rfl

/-- A push in the code is a push that has been emitted, at the same site, -/
theorem Serialized.exists_push (h : Serialized L n) (hk : roleAt (instructions 0 L) k = .push s) :
    ∃ L₁ w L₂ l x r, Stands L k L₁ w L₂ l x r ∧ x.call.kind = .xchgPush ∧ x.site = s := by
  obtain ⟨L₁, w, L₂, l, x, r, hs⟩ := exists_stands_of_role (by rw [hk]; nofun)
  rw [hs.role h.kind, Ins.role_eq_push] at hk
  exact ⟨L₁, w, L₂, l, x, r, hs, hk⟩

/-- and the same holds of the exchange as a whole. -/
theorem Serialized.exists_xchg (h : Serialized L n)
    (hk : (roleAt (instructions 0 L) k).isXchg = true) :
    ∃ L₁ w L₂ l x r, Stands L k L₁ w L₂ l x r ∧ x.isXchg = true := by
  obtain ⟨L₁, w, L₂, l, x, r, hs⟩ := exists_stands_of_role fun hw => by
    rw [hw] at hk
    cases hk
  rw [hs.role h.kind] at hk
  exact ⟨L₁, w, L₂, l, x, r, hs, Ins.isXchg_role hk⟩

/-- The window of one instruction behind a window of one instruction. -/
theorem Serialized.stands_next (h : Serialized L n) (hsplit : L = L₁ ++ w :: v :: L₂)
    (hw : w.1 = [x]) (hv : v.1 = [y]) :
    Stands L ((instructions 0 L₁).length + 2) (L₁ ++ [w]) v L₂ 0 y (0, (grid : ℤ)) where
  split := by rw [hsplit, List.append_assoc]; rfl
  ins := by rw [hv]; rfl
  range := by
    rw [(h.ranges v (by simp [hsplit])).single (by rw [hv]; rfl)]
    rfl
  index := by
    rw [length_snoc (h.ranges w (by simp [hsplit])).length, hw]
    rfl

/-- Behind a push stands its boundary, and behind that the reduce of the site. -/
theorem Serialized.roleAt_push_next (h : Serialized L n)
    (hk : roleAt (instructions 0 L) k = .push s) :
    isCrossing (instructions 0 L) (k + 1) = true ∧ roleAt (instructions 0 L) (k + 2) =
      .reduce s := by
  obtain ⟨L₁, w, L₂, l, x, r, hs, hx, rfl⟩ := h.exists_push hk
  obtain ⟨hone, rfl, rfl⟩ := h.alone hs (by simp [Ins.isXchg, hx])
  obtain ⟨v, y, L₃, rfl, hv, hy, hsite⟩ := h.push_next hs hx
  have hindex : k = (instructions 0 L₁).length := hs.index
  constructor
  · have hb : (instructions 0 (L₁ ++ w :: v :: L₃))[(instructions 0 L₁).length + w.1.length]? =
        some boundaryInstr :=
      getElem?_boundary (h.ranges w (by simp [hs.split])).length
    rw [← hs.split, hone, List.length_singleton, ← hindex] at hb
    rw [isCrossing, hb]
    rfl
  · rw [hindex, (h.stands_next hs.split hone hv).role h.kind, Ins.role_eq_reduce]
    exact ⟨hy, hsite⟩

/-- The push of a reduce stands two places in front of it. -/
theorem Serialized.roleAt_reduce_prev (h : Serialized L n)
    (hi : roleAt (instructions 0 L) i = .reduce s) :
    ∃ k, i = k + 2 ∧ roleAt (instructions 0 L) k = .push s := by
  obtain ⟨L₁, w, L₂, l, x, r, hs⟩ := exists_stands_of_role (by rw [hi]; nofun)
  rw [hs.role h.kind, Ins.role_eq_reduce] at hi
  obtain ⟨hx, rfl⟩ := hi
  obtain ⟨hone, rfl, rfl⟩ := h.alone hs (by simp [Ins.isXchg, hx])
  obtain ⟨L₀, v, y, rfl, hv, hy, hsite⟩ := h.reduce_prev hs hx
  have hsplit : L = L₀ ++ v :: w :: L₂ := by rw [hs.split, List.append_assoc]; rfl
  refine ⟨(instructions 0 L₀).length, ?_, ?_⟩
  · exact hs.index.trans (h.stands_next hsplit hv hone).index.symm
  · have hpush : Stands L (instructions 0 L₀).length L₀ v (w :: L₂) 0 y (0, (grid : ℤ)) := by
      refine ⟨hsplit, by rw [hv]; rfl, ?_, rfl⟩
      rw [(h.ranges v (by simp [hsplit])).single (by rw [hv]; rfl)]
      rfl
    rw [hpush.role h.kind, Ins.role_eq_push]
    exact ⟨hy, hsite⟩

/-- An exchange is alone between its boundaries. -/
theorem Serialized.eq_of_bnd (h : Serialized L n) (hi : (roleAt (instructions 0 L) i).isXchg = true)
    (hj : j < (instructions 0 L).length) (hc : isCrossing (instructions 0 L) j = false)
    (hb : bnd (instructions 0 L) j = bnd (instructions 0 L) i) : j = i := by
  obtain ⟨L₁, w, L₂, k, x, r, hs, hx⟩ := h.exists_xchg hi
  obtain ⟨M₁, v, M₂, l, y, q, hs'⟩ := exists_stands hc hj
  rw [hs.bnd h.kind, hs'.bnd h.kind] at hb
  obtain ⟨rfl, rfl, rfl⟩ := hs.same hs' hb.symm
  obtain ⟨hone, rfl, -⟩ := h.alone hs hx
  have hl : l = 0 := by
    have hlt := (List.getElem?_eq_some_iff.mp hs'.ins).1
    rw [hone] at hlt
    exact Nat.lt_one_iff.mp hlt
  rw [hs.index, hs'.index, hl]

/-- A site has one push: of two pushes the later one would have more pushes in front of it. -/
theorem Serialized.push_once (h : Serialized L n) (hk : roleAt (instructions 0 L) k = .push s)
    (hk' : roleAt (instructions 0 L) k' = .push s) : k = k' := by
  obtain ⟨L₁, w, L₂, l, x, r, hs, hx, rfl⟩ := h.exists_push hk
  obtain ⟨M₁, v, M₂, m, y, q, hs', hy, hsite⟩ := h.exists_push hk'
  rw [h.site_push hs hx, h.site_push hs' hy] at hsite
  have hlen : L₁.length = M₁.length := by
    rcases Nat.lt_trichotomy L₁.length M₁.length with hlt | heq | hgt
    · have := h.pushes_lt hs hs' hx hlt
      omega
    · exact heq
    · have := h.pushes_lt hs' hs hy hgt
      omega
  refine h.eq_of_bnd (by rw [hk']; rfl) ?_ ?_ ?_
  · exact (List.getElem?_eq_some_iff.mp hs.getElem?).1
  · rw [isCrossing, hs.getElem?]
    exact isBoundary_toInstr (h.kind w (by simp [hs.split]) x (List.mem_of_getElem? hs.ins))
  · rw [hs.bnd h.kind, hs'.bnd h.kind, hlen]

/-- The contract GEMV of a site stands in a window before the push. In the window of the push it
cannot stand, as the push is alone there, and behind it the pushes are more. -/
theorem Serialized.bnd_gemv_lt (h : Serialized L n) (hi : roleAt (instructions 0 L) i = .gemv s)
    (hk : roleAt (instructions 0 L) k = .push s) :
    bnd (instructions 0 L) i < bnd (instructions 0 L) k := by
  obtain ⟨L₁, w, L₂, l, x, r, hs⟩ := exists_stands_of_role (by rw [hi]; nofun)
  obtain ⟨M₁, v, M₂, m, y, q, hs', hy, rfl⟩ := h.exists_push hk
  rw [hs.role h.kind, Ins.role_eq_gemv] at hi
  obtain ⟨hx, -, hcount⟩ := hi
  rw [h.site_push hs' hy] at hcount
  rw [hs.bnd h.kind, hs'.bnd h.kind]
  rcases Nat.lt_trichotomy L₁.length M₁.length with hlt | heq | hgt
  · exact hlt
  · -- the push would be alone in the window
    obtain ⟨-, rfl, -⟩ := hs.same hs' heq
    have hmem := List.mem_of_getElem? hs.ins
    rw [(h.alone hs' (by simp [Ins.isXchg, hy])).1, List.mem_singleton] at hmem
    subst hmem
    simp [Ins.isXchg, hy] at hx
  · have := h.pushes_lt hs' hs hy hgt
    omega

/-- Nothing else writes `proj_out` between a contract GEMV and the push of its site. Another
contract GEMV there is one of the same site, and a reduce there would have its push there as well.
-/
theorem Serialized.roleAt_writes (h : Serialized L n) (hi : roleAt (instructions 0 L) i = .gemv s)
    (hk : roleAt (instructions 0 L) k = .push s) (hj : (roleAt (instructions 0 L) j).writes = true)
    (hij : bnd (instructions 0 L) i ≤ bnd (instructions 0 L) j)
    (hjk : bnd (instructions 0 L) j ≤ bnd (instructions 0 L) k) :
    roleAt (instructions 0 L) j = .gemv s := by
  obtain ⟨L₁, w, L₂, l, x, r, hs⟩ := exists_stands_of_role (by rw [hi]; nofun)
  obtain ⟨M₁, v, M₂, m, y, q, hs', hy, rfl⟩ := h.exists_push hk
  obtain ⟨N₁, u, N₂, o, z, t, hs₂⟩ := exists_stands_of_role (fun hw => by rw [hw] at hj; cases hj)
  rw [hs.role h.kind, Ins.role_eq_gemv] at hi
  obtain ⟨hx, -, hcount⟩ := hi
  rw [h.site_push hs' hy] at hcount ⊢
  rw [hs.bnd h.kind, hs₂.bnd h.kind] at hij
  rw [hs₂.bnd h.kind, hs'.bnd h.kind] at hjk
  have hle := hs.pushes_le hs₂ hij
  have hle' := hs₂.pushes_le hs' hjk
  rw [hs₂.role h.kind] at hj ⊢
  rcases hrole : z.role (pushes (windows N₁).flatten) with _ | s' | s' | s'
  · rw [hrole] at hj
    cases hj
  · -- another contract GEMV: the pushes before it are as many
    obtain ⟨-, -, rfl⟩ := Ins.role_eq_gemv.mp hrole
    rw [← hle.antisymm (hle'.trans hcount.ge), hcount]
  · rw [hrole] at hj
    cases hj
  · -- a reduce: its push would stand between
    exfalso
    obtain ⟨hz, -⟩ := Ins.role_eq_reduce.mp hrole
    obtain ⟨hone, rfl, rfl⟩ := h.alone hs₂ (by simp [Ins.isXchg, hz])
    obtain ⟨N₀, v₀, p, rfl, hv₀, hp, -⟩ := h.reduce_prev hs₂ hz
    have hsplit : L = N₀ ++ v₀ :: u :: N₂ := by rw [hs₂.split, List.append_assoc]; rfl
    have hpush : Stands L (instructions 0 N₀).length N₀ v₀ (u :: N₂) 0 p (0, (grid : ℤ)) := by
      refine ⟨hsplit, by rw [hv₀]; rfl, ?_, rfl⟩
      rw [(h.ranges v₀ (by simp [hsplit])).single (by rw [hv₀]; rfl)]
      rfl
    rw [List.length_append, List.length_singleton] at hij
    rcases hij.lt_or_eq with hlt | heq
    · have hle₀ := hs.pushes_le hpush (Nat.lt_succ_iff.mp hlt)
      have hlt₀ := h.pushes_lt hpush hs₂ hp (by simp)
      omega
    · obtain ⟨-, rfl, -⟩ := hs.same hs₂ (by simpa using heq)
      have hmem := List.mem_of_getElem? hs.ins
      rw [hone, List.mem_singleton] at hmem
      subst hmem
      simp [Ins.isXchg, hz] at hx

/-- The block that computes row `e` of the GEMV at `i`: the warps of its blocks, `warps` in each,
take rows in turn, as in `warp_slice`. -/
def rowBlock (prog : List (Instr XArgs)) (warps i e : ℕ) : ℕ :=
  match prog[i]? with
  | some ins => ins.blockLo + e % ((ins.blockHi - ins.blockLo) * warps) / warps
  | none => 0

/-- Nothing is emitted that the ISA does not know. -/
theorem exists_kind {site : ℕ} :
    ∀ ins ∈ instructions site L, ∃ kind : MacroKind, ins.kind = kind.code := by
  induction L generalizing site with
  | nil => simp [instructions]
  | cons w L ih =>
    rw [instructions, List.forall_mem_append, List.forall_mem_cons]
    refine ⟨fun ins hins => ?_, ⟨.boundary, rfl⟩, ih⟩
    obtain ⟨m, hm⟩ := List.mem_iff_getElem?.mp hins
    obtain ⟨x, r, -, -, rfl⟩ := List.getElem?_zipWith_eq_some.mp hm
    exact ⟨x.call.kind, rfl⟩

/-- Every instruction is wired. -/
theorem isBad_eq_false {ins : Instr XArgs} (h : ins ∈ instructions 0 L) : ins.isBad = false := by
  obtain ⟨kind, hkind⟩ := exists_kind ins h
  have hlt := kind.code_lt
  rw [Instr.isBad, hkind, (opWired_iff _).mpr hlt, decide_eq_false hlt.not_ge]
  rfl

/-- An instruction that stands in a window is run by the blocks of its range. -/
theorem Serialized.runs_rowBlock (h : Serialized L n) {L₁ : List (Ranged W)} {l warps e : ℕ}
    (hs : Stands L i L₁ w L₂ l x r) (hwarps : 0 < warps) :
    rowBlock (instructions 0 L) warps i e < grid ∧
      runs (instructions 0 L) (rowBlock (instructions 0 L) warps i e) i = true := by
  have hmem : w ∈ L := by simp [hs.split]
  obtain ⟨hlo, hlt, hhi⟩ := (h.ranges w hmem).range r (List.mem_of_getElem? hs.range)
  have hrow : rowBlock (instructions 0 L) warps i e =
      r.1.toNat + e % ((r.2.toNat - r.1.toNat) * warps) / warps := by
    rw [rowBlock, hs.getElem?]
    rfl
  have hpos : 0 < r.2.toNat - r.1.toNat := by omega
  have hdiv : e % ((r.2.toNat - r.1.toNat) * warps) / warps < r.2.toNat - r.1.toNat :=
    Nat.div_lt_of_lt_mul (Nat.mul_comm _ warps ▸ Nat.mod_lt _ (Nat.mul_pos hpos hwarps))
  generalize e % ((r.2.toNat - r.1.toNat) * warps) / warps = d at hrow hdiv
  have hnot : (x.toInstr (pushes (windows L₁).flatten) r).isBoundary = false :=
    isBoundary_toInstr (h.kind w hmem x (List.mem_of_getElem? hs.ins))
  have hbad := isBad_eq_false (List.mem_of_getElem? hs.getElem?)
  have hpart : (x.toInstr (pushes (windows L₁).flatten) r).participates
      (rowBlock (instructions 0 L) warps i e) = true := by
    rw [Instr.participates, decide_eq_true_eq, hrow]
    simp only [Ins.toInstr]
    omega
  refine ⟨by omega, ?_⟩
  rw [runs, hs.getElem?]
  simp only [hnot, hbad, hpart]
  rfl

/-- **The emitted program is a split program**, for vectors of any length, on the grid. -/
def splitProgram (h : Serialized L n) {warps : ℕ} (hwarps : 0 < warps) (N : ℕ) :
    SplitProgram grid N where
  prog := instructions 0 L
  rows := rowBlock (instructions 0 L) warps
  wired _ := isBad_eq_false
  grid ins hins hx := by
    obtain ⟨i, hi⟩ := List.mem_iff_getElem?.mp hins
    have hrole : roleAt (instructions 0 L) i = ins.role := by rw [roleAt, hi]
    rw [← hrole] at hx
    obtain ⟨L₁, w, L₂, k, x, r, hs, hx⟩ := h.exists_xchg hx
    obtain ⟨-, -, rfl⟩ := h.alone hs hx
    obtain rfl := Option.some.inj (hs.getElem?.symm.trans hi)
    exact ⟨rfl, rfl⟩
  push_next _ _ := h.roleAt_push_next
  reduce_prev _ _ := h.roleAt_reduce_prev
  alone _ _ := h.eq_of_bnd
  site_once _ _ _ := h.push_once
  covered k s hk e _ := by
    obtain ⟨L₁, w, L₂, l, x, r, hs, hx, rfl⟩ := h.exists_push hk
    obtain ⟨j, M₁, v, M₂, m, y, q, hs', hrole⟩ := h.exists_gemv hs hx
    exact ⟨j, by rw [hs'.role h.kind, hrole], h.runs_rowBlock hs' hwarps⟩
  gemv_before _ _ _ := h.bnd_gemv_lt
  gemv_last _ _ _ _ := h.roleAt_writes

/-- The sites of the split program are the numbers below twice the number of its blocks. -/
theorem Serialized.exists_push_iff (h : Serialized L n) (s : ℕ) :
    (∃ k, roleAt (instructions 0 L) k = .push s) ↔ s < n := by
  have hsites := h.exchanging.exchanges.pushes
  have hmem : s ∈ sitesOf .xchgPush (windows L).flatten ↔ s < n := by
    rw [hsites, List.mem_range']
    constructor
    · rintro ⟨i, hi, rfl⟩
      omega
    · exact fun hs => ⟨s, hs, by omega⟩
  rw [← hmem]
  constructor
  · rintro ⟨k, hk⟩
    obtain ⟨L₁, w, L₂, l, x, r, hs, hx, rfl⟩ := h.exists_push hk
    refine List.mem_filterMap.mpr ⟨x, ?_, if_pos hx⟩
    rw [flatten_windows hs]
    exact List.mem_append_right _ (List.mem_append_left _ (List.mem_of_getElem? hs.ins))
  · intro hs
    obtain ⟨x, hx, hsite⟩ := List.mem_filterMap.mp hs
    have hkind : x.call.kind = .xchgPush := by
      by_contra hne
      rw [if_neg hne] at hsite
      cases hsite
    rw [if_pos hkind] at hsite
    obtain ⟨a, b, hab⟩ := List.append_of_mem hx
    obtain ⟨L₁, w, L₂, u, t, rfl, hw, -⟩ := exists_of_flatten hab
    have hlen : u.length < w.2.length := by
      rw [(h.ranges w (by simp)).length, hw]
      simp
    have hstands : Stands (L₁ ++ w :: L₂) ((instructions 0 L₁).length + u.length) L₁ w L₂ u.length x
        w.2[u.length] := by
      refine ⟨rfl, ?_, List.getElem?_eq_getElem hlen, rfl⟩
      rw [hw, List.getElem?_append_right le_rfl, Nat.sub_self, List.getElem?_cons_zero]
    refine ⟨_, (hstands.role h.kind).trans (Ins.role_eq_push.mpr ⟨hkind, Option.some.inj hsite⟩)⟩

end Program

/-! ## The compiled program -/

section Compiled

variable {merge : Bool} {e : EndLeaves W} {blocks : List (Block W)} {est : Ins W → SplitGrid.Est}
  {rss : List (List (ℤ × ℤ))} {w : List (Ins W)} {rs : List (ℤ × ℤ)} {k : ℕ}

/-- The loop that deals out the blocks has ended for every window with these ranges. The estimates
may be any numbers at all. -/
def Dealt (est : Ins W → SplitGrid.Est) (ws : List (List (Ins W))) (rss : List (List (ℤ × ℤ))) :
    Prop :=
  List.Forall₂ (fun w rs => ∃ k, SplitGrid.windowRanges k (w.map est) = .ok (some rs)) ws rss

/-- What the compiler deals out of the grid is right for the code: a range for each instruction of
the window, inside of the grid. -/
theorem rangesOk_windowRanges (h : SplitGrid.windowRanges k (w.map est) = .ok (some rs)) :
    RangesOk (w, rs) where
  length := (SplitGrid.tiles_windowRanges h).1.trans (List.length_map est)
  range := (SplitGrid.tiles_windowRanges h).2.mem
  single hone := by
    rw [SplitGrid.windowRanges, if_pos ((List.length_map est).trans hone)] at h
    exact (Option.some.inj (Except.ok.inj h)).symm

/-- Dealing out the grid leaves the windows as they are. -/
theorem Dealt.windows {ws : List (List (Ins W))} (h : Dealt est ws rss) :
    windows (ws.zip rss) = ws :=
  List.map_fst_zip h.length_eq.le

/-- The emitted windows with the ranges that are dealt out can be serialized. -/
theorem serialized_program (h : Dealt est (program merge e blocks) rss) :
    Serialized ((program merge e blocks).zip rss) (2 * blocks.length) where
  exchanging := by
    rw [h.windows]
    exact exchanging_program merge e blocks
  ranges w hw := by
    obtain ⟨k, hk⟩ := (List.forall₂_iff_zip.mp h).2 hw
    exact rangesOk_windowRanges hk

/-- What `compile_schedule.py` writes with `--split` is a split program: coalesced or not, for any
blocks, and whatever the estimates that its ranges go with. -/
def compiled (h : Dealt est (program merge e blocks) rss) {warps : ℕ} (hwarps : 0 < warps) (N : ℕ) :
    SplitProgram grid N :=
  splitProgram (serialized_program h) hwarps N

/-- The compiled program exchanges twice for each block. -/
theorem exists_push_compiled (h : Dealt est (program merge e blocks) rss) {warps : ℕ}
    (hwarps : 0 < warps) (N s : ℕ) :
    (∃ k, roleAt (compiled h hwarps N).prog k = .push s) ↔ s < 2 * blocks.length :=
  (serialized_program h).exists_push_iff s

/-- Every window of positive integer estimates gets its ranges, when it has no more instructions
than there are blocks and the estimates leave room in the range of doubles. -/
theorem exists_dealt {est : Ins W → ℤ} (hest : ∀ i, 1 ≤ est i) {ws : List (List (Ins W))}
    (hws : ∀ w ∈ ws, w ≠ [] ∧ w.length ≤ grid ∧
      2 * (grid * (w.map est).sum : ℚ) < Binary64.tooLarge) :
    ∃ rss, Dealt (fun i => .int (est i)) ws rss := by
  induction ws with
  | nil => exact ⟨[], List.Forall₂.nil⟩
  | cons w ws ih =>
    rw [List.forall_mem_cons] at hws
    obtain ⟨⟨hne, hlen, hlarge⟩, hws⟩ := hws
    obtain ⟨rss, hrss⟩ := ih hws
    obtain ⟨k, rs, hrs⟩ := SplitGrid.exists_windowRanges (mt List.map_eq_nil_iff.mp hne)
      ((List.length_map est).trans_le hlen) (List.forall_mem_map.mpr fun i _ => hest i) hlarge
    refine ⟨rs :: rss, List.Forall₂.cons ⟨k, ?_⟩ hrss⟩
    rwa [List.map_map] at hrs

end Compiled

end Megakernel.Schedule
