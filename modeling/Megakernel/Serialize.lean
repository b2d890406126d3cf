import Megakernel.Exchanging
import Megakernel.Split

/-!
# The serialized program

`compile_schedule.py` writes the instructions window by window, a boundary behind each
(`instructions`), every instruction with the block range that `split_grid` has dealt out to it. An
instruction of the result that is no boundary stands in a window, in some place (`Stands`), and the
boundaries before it are the windows before its own.

In windows that exchange (`Serialized`) the number of the pushes in front of an instruction tells
its site, and so where it stands with respect to the push and the reduce of any site.
-/

namespace Megakernel.Schedule

open Name

variable {W : Type*}

/-! ## The serialized program -/

section Serialize

/-- A window with the block ranges of its instructions. -/
abbrev Ranged (W : Type*) : Type _ := List (Ins W) × List (ℤ × ℤ)

/-- The windows without their ranges. -/
def windows (L : List (Ranged W)) : List (List (Ins W)) := L.map Prod.fst

/-- The pushes among the instructions. -/
def pushes (is : List (Ins W)) : ℕ := (sitesOf .xchgPush is).length

/-- What the exchange sees of an instruction that is serialized, `site` pushes after the first. -/
def Ins.toInstr (site : ℕ) (i : Ins W) (r : ℤ × ℤ) : Instr XArgs where
  kind := i.call.kind.code
  blockLo := r.1.toNat
  blockHi := r.2.toNat
  payload := ⟨if i.isXchg then i.site else site, decide (buf .projOut ∈ i.outs)⟩

/-- The boundary behind a window. -/
def boundaryInstr : Instr XArgs := ⟨MacroKind.boundary.code, 0, grid, ⟨0, false⟩⟩

/-- `instructions`: window after window, each with a boundary behind it. The number of the pushes so
far is carried along, because the site of a contract GEMV is that of the next push. -/
def instructions : ℕ → List (Ranged W) → List (Instr XArgs)
  | _, [] => []
  | site, w :: L => List.zipWith (Ins.toInstr site) w.1 w.2 ++
      boundaryInstr :: instructions (site + pushes w.1) L

/-- The ranges of a window are as `split_grid` deals them out: one for each instruction, none of
them empty, none beyond the grid. -/
structure RangesOk (w : Ranged W) : Prop where
  length : w.2.length = w.1.length
  range : ∀ r ∈ w.2, 0 ≤ r.1 ∧ r.1 < r.2 ∧ r.2 ≤ grid
  /-- a single instruction gets the whole grid -/
  single : w.1.length = 1 → w.2 = [(0, (grid : ℤ))]

/-- Where instruction `i` stands: in the window behind `L₁`, as its instruction `k`. It is
instruction `x` of the emitted window, with range `r`. -/
structure Stands (L : List (Ranged W)) (i : ℕ) (L₁ : List (Ranged W)) (w : Ranged W)
    (L₂ : List (Ranged W)) (k : ℕ) (x : Ins W) (r : ℤ × ℤ) : Prop where
  split : L = L₁ ++ w :: L₂
  ins : w.1[k]? = some x
  range : w.2[k]? = some r
  index : i = (instructions 0 L₁).length + k

/-- The role of an instruction, `site` pushes after the first. -/
def Ins.role (site : ℕ) (x : Ins W) : Role :=
  if x.call.kind = .xchgPush then .push x.site
  else if x.call.kind = .xchgReduce then .reduce x.site
  else if buf .projOut ∈ x.outs then .gemv site
  else .work

variable {L L₁ L₂ M₁ M₂ : List (Ranged W)} {w v : Ranged W} {i j k l site n : ℕ} {x y : Ins W}
  {r q : ℤ × ℤ}

@[simp] theorem pushes_append (a b : List (Ins W)) : pushes (a ++ b) = pushes a + pushes b := by
  simp [pushes, sitesOf]

theorem windows_append (a b : List (Ranged W)) : windows (a ++ b) = windows a ++ windows b :=
  List.map_append

theorem windows_cons (w : Ranged W) (a : List (Ranged W)) :
    windows (w :: a) = w.1 :: windows a := rfl

theorem instructions_append (site : ℕ) (a b : List (Ranged W)) :
    instructions site (a ++ b) =
      instructions site a ++ instructions (site + pushes (windows a).flatten) b := by
  induction a generalizing site with
  | nil => rfl
  | cons w a ih =>
    rw [List.cons_append, instructions, instructions, ih, windows_cons, List.flatten_cons,
      pushes_append, Nat.add_assoc, List.append_assoc, List.cons_append]

theorem code_inj {k k' : MacroKind} (h : k.code = k'.code) : k = k' := by
  revert h
  cases k <;> cases k' <;> decide

theorem isBoundary_toInstr (hx : x.call.kind ≠ .boundary) :
    (x.toInstr site r).isBoundary = false := by
  rw [Instr.isBoundary, beq_eq_false_iff_ne]
  exact fun h => hx (code_inj h)

/-- A window is serialized without boundaries. -/
theorem countP_zipWith (h : ∀ x ∈ w.1, x.call.kind ≠ .boundary) (k : ℕ) :
    ((List.zipWith (Ins.toInstr site) w.1 w.2).take k).countP Instr.isBoundary = 0 := by
  rw [List.countP_eq_zero]
  intro ins hins
  obtain ⟨m, hm⟩ := List.mem_iff_getElem?.mp (List.mem_of_mem_take hins)
  obtain ⟨x, r, hx, -, rfl⟩ := List.getElem?_zipWith_eq_some.mp hm
  rw [isBoundary_toInstr (h x (List.mem_of_getElem? hx))]
  exact Bool.false_ne_true

/-- There are as many boundaries as windows. -/
theorem countP_instructions (h : ∀ w ∈ L, ∀ x ∈ w.1, x.call.kind ≠ .boundary) (site : ℕ) :
    (instructions site L).countP Instr.isBoundary = L.length := by
  induction L generalizing site with
  | nil => rfl
  | cons w L ih =>
    rw [List.forall_mem_cons] at h
    have hwin : (List.zipWith (Ins.toInstr site) w.1 w.2).countP Instr.isBoundary = 0 := by
      rw [← List.take_length (l := List.zipWith (Ins.toInstr site) w.1 w.2)]
      exact countP_zipWith h.1 _
    rw [instructions, List.countP_append, hwin, Nat.zero_add, List.countP_cons_of_pos rfl, ih h.2,
      List.length_cons]

/-- **Every instruction of the program stands in a window**, but for the boundaries. -/
theorem exists_window {ins : Instr XArgs} (h : (instructions site L)[i]? = some ins)
    (hb : ins.isBoundary = false) :
    ∃ L₁ w L₂ k x r, L = L₁ ++ w :: L₂ ∧ w.1[k]? = some x ∧ w.2[k]? = some r ∧
      i = (instructions site L₁).length + k := by
  induction L generalizing site i with
  | nil => cases h
  | cons w L ih =>
    rw [instructions] at h
    rcases Nat.lt_or_ge i (List.zipWith (Ins.toInstr site) w.1 w.2).length with hlt | hge
    · -- in the first window
      rw [List.getElem?_append_left hlt] at h
      obtain ⟨x, r, hx, hr, -⟩ := List.getElem?_zipWith_eq_some.mp h
      exact ⟨[], w, L, i, x, r, rfl, hx, hr, (Nat.zero_add i).symm⟩
    · rw [List.getElem?_append_right hge] at h
      obtain ⟨d, rfl⟩ := Nat.exists_eq_add_of_le hge
      rw [Nat.add_sub_cancel_left] at h
      cases d with
      | zero =>
        obtain rfl : boundaryInstr = ins := Option.some.inj h
        cases hb
      | succ d =>
        obtain ⟨L₁, v, L₂, k, x, r, rfl, hx, hr, rfl⟩ := ih h
        refine ⟨w :: L₁, v, L₂, k, x, r, rfl, hx, hr, ?_⟩
        rw [instructions, List.length_append, List.length_cons]
        omega

theorem Stands.getElem? (h : Stands L i L₁ w L₂ k x r) :
    (instructions 0 L)[i]? = some (x.toInstr (pushes (windows L₁).flatten) r) := by
  have hz : (List.zipWith (Ins.toInstr (pushes (windows L₁).flatten)) w.1 w.2)[k]? =
      some (x.toInstr (pushes (windows L₁).flatten) r) :=
    List.getElem?_zipWith_eq_some.mpr ⟨x, r, h.ins, h.range, rfl⟩
  rw [h.split, h.index, instructions_append, List.getElem?_append_right (Nat.le_add_right _ _),
    Nat.add_sub_cancel_left, Nat.zero_add, instructions,
    List.getElem?_append_left (List.getElem?_eq_some_iff.mp hz).1]
  exact hz

/-- The window of an instruction is the number of the boundaries before it. -/
theorem Stands.bnd (h : Stands L i L₁ w L₂ k x r)
    (hL : ∀ w ∈ L, ∀ x ∈ w.1, x.call.kind ≠ .boundary) :
    Megakernel.bnd (instructions 0 L) i = L₁.length := by
  have hw : ∀ x ∈ w.1, x.call.kind ≠ .boundary := hL w (by simp [h.split])
  have hL₁ : ∀ w ∈ L₁, ∀ x ∈ w.1, x.call.kind ≠ .boundary :=
    fun v hv => hL v (by simp [h.split, hv])
  have hk : k ≤ (List.zipWith (Ins.toInstr (pushes (windows L₁).flatten)) w.1 w.2).length := by
    have h₁ := (List.getElem?_eq_some_iff.mp h.ins).1
    have h₂ := (List.getElem?_eq_some_iff.mp h.range).1
    rw [List.length_zipWith]
    exact (lt_min h₁ h₂).le
  rw [Megakernel.bnd, h.split, h.index, instructions_append, List.take_length_add_append,
    List.countP_append, countP_instructions hL₁, Nat.zero_add, instructions,
    List.take_append_of_le_length hk, countP_zipWith hw, Nat.add_zero]

/-- Serializing an instruction does not change what it has to do with the exchange. -/
theorem Ins.role_toInstr (hx : x.call.kind ≠ .boundary) :
    (x.toInstr site r).role = x.role site := by
  have hpush : x.call.kind.code = MacroKind.xchgPush.code ↔ x.call.kind = .xchgPush :=
    ⟨code_inj, fun h => by rw [h]⟩
  have hreduce : x.call.kind.code = MacroKind.xchgReduce.code ↔ x.call.kind = .xchgReduce :=
    ⟨code_inj, fun h => by rw [h]⟩
  have hb : (x.toInstr site r).isBoundary = false := isBoundary_toInstr hx
  rw [Instr.role, Ins.role, hb]
  simp only [Ins.toInstr, hpush, hreduce, Ins.isXchg]
  by_cases h₁ : x.call.kind = .xchgPush
  · simp [h₁]
  · by_cases h₂ : x.call.kind = .xchgReduce
    · simp [h₂]
    · simp [h₁, h₂]

/-- The role of instruction `i` is that of the emitted instruction that stands there. -/
theorem Stands.role (h : Stands L i L₁ w L₂ k x r)
    (hL : ∀ w ∈ L, ∀ x ∈ w.1, x.call.kind ≠ .boundary) :
    roleAt (instructions 0 L) i = x.role (pushes (windows L₁).flatten) := by
  have hx := hL w (by simp [h.split]) x (List.mem_of_getElem? h.ins)
  rw [roleAt, h.getElem?]
  exact Ins.role_toInstr hx

theorem exists_stands (h : isCrossing (instructions 0 L) i = false)
    (hi : i < (instructions 0 L).length) : ∃ L₁ w L₂ k x r, Stands L i L₁ w L₂ k x r := by
  have hins := List.getElem?_eq_getElem hi
  rw [isCrossing, hins] at h
  obtain ⟨L₁, w, L₂, k, x, r, hsplit, hx, hr, hidx⟩ := exists_window hins h
  exact ⟨L₁, w, L₂, k, x, r, hsplit, hx, hr, hidx⟩

/-- Two instructions with as many boundaries before them stand in the same window. -/
theorem Stands.same (h : Stands L i L₁ w L₂ k x r) (h' : Stands L j M₁ v M₂ l y q)
    (hlen : L₁.length = M₁.length) : L₁ = M₁ ∧ w = v ∧ L₂ = M₂ := by
  obtain ⟨h₁, h₂⟩ := List.append_inj (h.split.symm.trans h'.split) hlen
  exact ⟨h₁, List.cons_eq_cons.mp h₂⟩

end Serialize

/-! ## The positions that the exchange relies on -/

/-- A split program, serialized: its windows exchange, and they have their block ranges. All that
follows is about such a program, whatever it was emitted from. -/
structure Serialized (L : List (Ranged W)) (n : ℕ) : Prop where
  exchanging : Exchanging (windows L) n
  ranges : ∀ w ∈ L, RangesOk w

section Positions

variable {L L₁ L₂ M₁ M₂ : List (Ranged W)} {w v : Ranged W} {i j k l site n s : ℕ} {x y : Ins W}
  {r q : ℤ × ℤ}

theorem Ins.role_eq_push : x.role site = .push s ↔ x.call.kind = .xchgPush ∧ x.site = s := by
  rw [Ins.role]
  split_ifs with h₁ h₂ h₃ <;> simp [h₁]

theorem Ins.role_eq_reduce : x.role site = .reduce s ↔ x.call.kind = .xchgReduce ∧ x.site = s := by
  rw [Ins.role]
  split_ifs with h₁ h₂ h₃
  · simp [h₁]
  · simp [h₂]
  · simp [h₂]
  · simp [h₂]

theorem Ins.role_eq_gemv : x.role site = .gemv s ↔
    x.isXchg = false ∧ buf .projOut ∈ x.outs ∧ site = s := by
  rw [Ins.role, Ins.isXchg]
  split_ifs with h₁ h₂ h₃
  · simp [h₁]
  · simp [h₂]
  · simp [h₁, h₂, h₃]
  · simp [h₃]

theorem Ins.isXchg_role (h : (x.role site).isXchg = true) : x.isXchg = true := by
  rw [Ins.role] at h
  split_ifs at h with h₁ h₂ h₃
  · simp [Ins.isXchg, h₁]
  · simp [Ins.isXchg, h₂]
  · cases h
  · cases h

theorem Serialized.kind (h : Serialized L n) : ∀ w ∈ L, ∀ x ∈ w.1, x.call.kind ≠ .boundary :=
  fun _ hw => (h.exchanging.computes _ (List.mem_map_of_mem hw)).2

theorem flatten_windows (h : Stands L i L₁ w L₂ k x r) :
    (windows L).flatten = (windows L₁).flatten ++ (w.1 ++ (windows L₂).flatten) := by
  rw [h.split, windows_append, windows_cons, List.flatten_append, List.flatten_cons]

/-- An exchange has its window and the grid for itself. -/
theorem Serialized.alone (h : Serialized L n) (hs : Stands L i L₁ w L₂ k x r)
    (hx : x.isXchg = true) : w.1 = [x] ∧ k = 0 ∧ r = (0, (grid : ℤ)) := by
  have hw : w ∈ L := by simp [hs.split]
  have hone : w.1 = [x] :=
    h.exchanging.alone _ (List.mem_map_of_mem hw) x (List.mem_of_getElem? hs.ins) hx
  have hk : k = 0 := by
    have hlt := (List.getElem?_eq_some_iff.mp hs.ins).1
    rw [hone] at hlt
    exact Nat.lt_one_iff.mp hlt
  have hrange := hs.range
  rw [(h.ranges w hw).single (by rw [hone]; rfl), hk] at hrange
  exact ⟨hone, hk, (Option.some.inj hrange).symm⟩

/-- **A site is the number of the pushes before it.** With this a comparison of sites becomes one of
positions. -/
theorem Serialized.site_push (h : Serialized L n) (hs : Stands L i L₁ w L₂ k x r)
    (hx : x.call.kind = .xchgPush) : x.site = pushes (windows L₁).flatten := by
  obtain ⟨hone, -, -⟩ := h.alone hs (by simp [Ins.isXchg, hx])
  have hsites := h.exchanging.exchanges.pushes
  have hsingle : sitesOf .xchgPush [x] = [x.site] := by simp [sitesOf, hx]
  rw [flatten_windows hs, hone, sitesOf, List.filterMap_append, List.filterMap_append, ← sitesOf,
    ← sitesOf, hsingle] at hsites
  have hat := congrArg (·[(sitesOf .xchgPush (windows L₁).flatten).length]?) hsites
  simp only [List.singleton_append, List.getElem?_append_right le_rfl, Nat.sub_self,
    List.getElem?_cons_zero] at hat
  obtain ⟨hlt, heq⟩ := List.getElem?_eq_some_iff.mp hat.symm
  rw [← heq, List.getElem_range', pushes]
  omega

/-- **Behind a push stands the reduce of its site**, in the next window. -/
theorem Serialized.push_next (h : Serialized L n) (hs : Stands L i L₁ w L₂ k x r)
    (hx : x.call.kind = .xchgPush) : ∃ v y L₃, L₂ = v :: L₃ ∧ v.1 = [y] ∧
      y.call.kind = .xchgReduce ∧ y.site = x.site := by
  obtain ⟨hone, -, -⟩ := h.alone hs (by simp [Ins.isXchg, hx])
  have hex := h.exchanging.exchanges
  have hflat := flatten_windows hs
  rw [hone] at hflat
  have hpre : (windows L₁).flatten ++ [x] <+: (windows L).flatten :=
    ⟨_, by rw [hflat, List.append_assoc]⟩
  -- the reduce of the site, and the push before it
  have hmem : x.site ∈ sitesOf .xchgReduce (windows L).flatten := by
    rw [hex.reduces, ← hex.pushes]
    exact List.mem_filterMap.mpr ⟨x, hpre.subset (by simp), by simp [hx]⟩
  obtain ⟨y, hy, hsite⟩ := List.mem_filterMap.mp hmem
  have hkind : y.call.kind = .xchgReduce := by
    by_contra hne
    simp [hne] at hsite
  rw [if_pos hkind] at hsite
  obtain ⟨a, b, hab⟩ := List.append_of_mem hy
  have hprey : a ++ [y] <+: (windows L).flatten := ⟨b, by rw [hab, List.append_assoc]; rfl⟩
  rcases hex.paired.push_before hprey hkind with ⟨-, hnone⟩ | ⟨a', p, rfl, hp, hpsite⟩
  · cases hnone
  · have hnodup : (sitesOf .xchgPush (windows L).flatten).Nodup := by
      rw [hex.pushes]
      exact List.nodup_range'
    have hprep : a' ++ [p] <+: (windows L).flatten := (List.prefix_append _ _).trans hprey
    obtain ⟨rfl, rfl⟩ := site_unique hnodup hprep hpre hp hx
      (hpsite.trans (Option.some.inj hsite))
    rw [hflat, List.append_assoc, List.append_right_inj] at hab
    have hrest : (windows L₂).flatten = y :: b := (List.cons_eq_cons.mp hab).2
    cases L₂ with
    | nil => cases hrest
    | cons v L₃ =>
      have hv : v ∈ L := by simp [hs.split]
      have hcomp := (h.exchanging.computes _ (List.mem_map_of_mem hv)).1
      obtain ⟨z, t, hz⟩ := List.exists_cons_of_ne_nil hcomp
      rw [windows_cons, List.flatten_cons, hz, List.cons_append] at hrest
      obtain rfl := (List.cons_eq_cons.mp hrest).1
      refine ⟨v, z, L₃, rfl, ?_, hkind, Option.some.inj hsite⟩
      exact h.exchanging.alone _ (List.mem_map_of_mem hv) z (by simp [hz])
        (by simp [Ins.isXchg, hkind])

/-- **In front of a reduce stands the push of its site**, in the window before. -/
theorem Serialized.reduce_prev (h : Serialized L n) (hs : Stands L i L₁ w L₂ k x r)
    (hx : x.call.kind = .xchgReduce) : ∃ L₀ v y, L₁ = L₀ ++ [v] ∧ v.1 = [y] ∧
      y.call.kind = .xchgPush ∧ y.site = x.site := by
  obtain ⟨hone, -, -⟩ := h.alone hs (by simp [Ins.isXchg, hx])
  have hpre : (windows L₁).flatten ++ [x] <+: (windows L).flatten :=
    ⟨_, by rw [flatten_windows hs, hone, List.append_assoc]⟩
  rcases h.exchanging.exchanges.paired.push_before hpre hx with ⟨-, hnone⟩ |
    ⟨a, p, hflat, hp, hsite⟩
  · cases hnone
  · rcases List.eq_nil_or_concat L₁ with rfl | ⟨L₀, v, rfl⟩
    · simp [windows] at hflat
    · have hv : v ∈ L := by simp [hs.split]
      obtain ⟨z, t, hz⟩ := (List.eq_nil_or_concat v.1).resolve_left
        (h.exchanging.computes _ (List.mem_map_of_mem hv)).1
      have hlast : ((windows L₀).flatten ++ z) ++ [t] = a ++ [p] := by
        rw [← hflat, List.concat_eq_append, windows_append, List.flatten_append]
        simp [windows, hz]
      obtain rfl := (List.append_singleton_inj.mp hlast).2
      refine ⟨L₀, v, t, List.concat_eq_append, ?_, hp, hsite⟩
      exact h.exchanging.alone _ (List.mem_map_of_mem hv) t (by simp [hz])
        (by simp [Ins.isXchg, hp])

/-- Where an instruction of the flattened windows stands: in a window, behind the windows before it
and the instructions before it there. -/
theorem exists_of_flatten {a b : List (Ins W)} (h : (windows L).flatten = a ++ x :: b) :
    ∃ L₁ w L₂ u t, L = L₁ ++ w :: L₂ ∧ w.1 = u ++ x :: t ∧ a = (windows L₁).flatten ++ u := by
  induction L generalizing a with
  | nil => simp [windows] at h
  | cons w L ih =>
    rw [windows_cons, List.flatten_cons] at h
    rcases List.append_eq_append_iff.mp h with ⟨a', rfl, hrest⟩ | ⟨c, hw, hrest⟩
    · obtain ⟨L₁, v, L₂, u, t, rfl, hv, rfl⟩ := ih hrest
      exact ⟨w :: L₁, v, L₂, u, t, rfl, hv, by simp [windows_cons]⟩
    · cases c with
      | nil =>
        obtain ⟨L₁, v, L₂, u, t, rfl, hv, hnil⟩ := ih (a := []) hrest.symm
        refine ⟨w :: L₁, v, L₂, u, t, rfl, hv, ?_⟩
        rw [windows_cons, List.flatten_cons, List.append_assoc, ← hnil, hw, List.append_nil,
          List.append_nil]
      | cons z c =>
        obtain ⟨rfl, rfl⟩ := List.cons_eq_cons.mp hrest
        exact ⟨[], w, L, a, c, rfl, hw, rfl⟩

theorem pushes_eq_zero {is : List (Ins W)} (h : ∀ i ∈ is, i.call.kind ≠ .xchgPush) :
    pushes is = 0 := by
  rw [pushes, List.length_eq_zero_iff, sitesOf, List.filterMap_eq_nil_iff]
  exact fun i hi => if_neg (h i hi)

/-- **Before a push stands a contract GEMV of its site.** -/
theorem Serialized.exists_gemv (h : Serialized L n) (hs : Stands L i L₁ w L₂ k x r)
    (hx : x.call.kind = .xchgPush) : ∃ j M₁ v M₂ l y q, Stands L j M₁ v M₂ l y q ∧
      y.role (pushes (windows M₁).flatten) = .gemv x.site := by
  obtain ⟨hone, -, -⟩ := h.alone hs (by simp [Ins.isXchg, hx])
  have hflat := flatten_windows hs
  rw [hone] at hflat
  obtain ⟨a₁, y, a₂, hsplit, hy, hproj, hno⟩ := h.exchanging.contracted _ x _ hflat hx
  obtain ⟨M₁, v, M₂, u, t, rfl, hv, rfl⟩ := exists_of_flatten hsplit
  have hvL : v ∈ L := by simp [hs.split]
  have hykind : y.call.kind ≠ .xchgPush := fun hk => by simp [Ins.isXchg, hk] at hy
  -- the window of the GEMV has no push
  have hu : ∀ p ∈ u, p.call.kind ≠ .xchgPush := by
    intro p hp hk
    have halone := h.exchanging.alone _ (List.mem_map_of_mem hvL) p (by simp [hv, hp])
      (by simp [Ins.isXchg, hk])
    have hmem : y ∈ v.1 := by simp [hv]
    rw [halone, List.mem_singleton] at hmem
    exact hykind (hmem ▸ hk)
  have hcount : pushes (windows (M₁ ++ v :: M₂)).flatten = pushes (windows M₁).flatten := by
    rw [hsplit, pushes_append, pushes_append, pushes_eq_zero hu,
      pushes_eq_zero (List.forall_mem_cons.mpr ⟨hykind, hno⟩)]
    omega
  have hlen : u.length < v.2.length := by
    rw [(h.ranges v hvL).length, hv]
    simp
  refine ⟨_, M₁, v, M₂ ++ w :: L₂, u.length, y, v.2[u.length], ⟨?_, ?_, ?_, rfl⟩, ?_⟩
  · rw [hs.split, List.append_assoc, List.cons_append]
  · rw [hv, List.getElem?_append_right le_rfl, Nat.sub_self, List.getElem?_cons_zero]
  · exact List.getElem?_eq_getElem hlen
  · rw [Ins.role_eq_gemv, h.site_push hs hx, hcount]
    exact ⟨hy, hproj, rfl⟩

/-- Of two windows the first one stands behind what is in front of the second. -/
theorem Stands.before (h : Stands L i L₁ w L₂ k x r) (h' : Stands L j M₁ v M₂ l y q)
    (hlt : L₁.length < M₁.length) : ∃ B, M₁ = L₁ ++ w :: B := by
  have hpre : L₁ ++ [w] <+: M₁ := by
    refine List.prefix_of_prefix_length_le ?_ ⟨v :: M₂, h'.split.symm⟩ ?_
    · exact ⟨L₂, by rw [h.split, List.append_assoc]; rfl⟩
    · rw [List.length_append]
      exact hlt
  obtain ⟨B, hB⟩ := hpre
  exact ⟨B, by rw [← hB, List.append_assoc]; rfl⟩

/-- The pushes in front of a window do not get fewer. -/
theorem Stands.pushes_le (h : Stands L i L₁ w L₂ k x r) (h' : Stands L j M₁ v M₂ l y q)
    (hle : L₁.length ≤ M₁.length) :
    pushes (windows L₁).flatten ≤ pushes (windows M₁).flatten := by
  rcases hle.lt_or_eq with hlt | heq
  · obtain ⟨B, rfl⟩ := h.before h' hlt
    rw [windows_append, List.flatten_append, pushes_append]
    exact Nat.le_add_right _ _
  · rw [(h.same h' heq).1]

/-- Behind a push there are more, since the push counts itself. -/
theorem Serialized.pushes_lt (hL : Serialized L n) (h : Stands L i L₁ w L₂ k x r)
    (h' : Stands L j M₁ v M₂ l y q) (hx : x.call.kind = .xchgPush)
    (hlt : L₁.length < M₁.length) :
    pushes (windows L₁).flatten < pushes (windows M₁).flatten := by
  obtain ⟨B, rfl⟩ := h.before h' hlt
  have hone : pushes w.1 = 1 := by
    rw [(hL.alone h (by simp [Ins.isXchg, hx])).1]
    simp [pushes, sitesOf, hx]
  rw [windows_append, windows_cons, List.flatten_append, List.flatten_cons, pushes_append,
    pushes_append, hone]
  omega

end Positions

end Megakernel.Schedule
