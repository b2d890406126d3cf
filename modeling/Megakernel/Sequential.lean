import Mathlib.Logic.Relation
import Megakernel.Interference
import Megakernel.Passes

/-!
# Programs as sequential code

What a program means if its instructions are executed one after another, each of
them for all the blocks that take part in it. An op is what one block runs inside
`op_dispatch`: a local state and a step function on it and the memory. Its
footprint is a parameter of the model, and the step function keeps to it.

A block on its own (`Solo`) walks through the instructions of one window in its
private copy of the memory. `seqRun_of_solo` puts the walks of all blocks of a
window together: if no block touches what another one writes, the merged memory
is the one sequential execution computes.

A window is the unit here: `winFp` gathers what a block may touch between two boundaries, and
`ConflictFree` compares the blocks with each other. Two instructions of one block may conflict as
they like.
-/

namespace Megakernel

open Relation

/-- What the instructions do: the code of an op, by block. `α` are addresses, `β` values,
`L` the local state of a block inside an op. -/
structure OpSem (π α β L : Type*) : Type _ where
  /-- entering `op_dispatch` -/
  init : Instr π → ℕ → L
  /-- one step of the op; `none`: the op returns -/
  step : Instr π → ℕ → L → (α → β) → Option (L × (α → β))
  /-- what the block may read and write for this instruction -/
  fp : Instr π → ℕ → Footprint α
  confined : ∀ ins b l, (fp ins b).Local (step ins b l)

variable {π α β L : Type*} {n : ℕ} {sem : OpSem π α β L} {prog : List (Instr π)}

/-! ## Sequential execution -/

/-- Block `b` runs the op from local state `l` to its return. Nothing else happens to the memory in
between, which is what makes this the sequential meaning of the op. -/
inductive OpRun (sem : OpSem π α β L) (ins : Instr π) (b : ℕ) : L → (α → β) → (α → β) → Prop where
  | ret {l : L} {m : α → β} : sem.step ins b l m = none → OpRun sem ins b l m m
  | step {l l' : L} {m m' m'' : α → β} : sem.step ins b l m = some (l', m') →
      OpRun sem ins b l' m' m'' → OpRun sem ins b l m m''

/-- The given blocks run instruction `i`, one after another. -/
inductive InstrRun (sem : OpSem π α β L) (prog : List (Instr π)) (i : ℕ) :
    List (Fin n) → (α → β) → (α → β) → Prop where
  | nil {m : α → β} : InstrRun sem prog i [] m m
  | cons {ins : Instr π} {b : Fin n} {bs : List (Fin n)} {m m' m'' : α → β} :
      prog[i]? = some ins → OpRun sem ins b (sem.init ins b) m m' →
      InstrRun sem prog i bs m' m'' → InstrRun sem prog i (b :: bs) m m''

/-- The blocks that take part in instruction `i`. -/
def participants (n : ℕ) (prog : List (Instr π)) (i : ℕ) : List (Fin n) :=
  (List.finRange n).filter fun b => runs prog b i

/-- Instructions `i` to `j - 1`, one after another, each of them by all the blocks that take part in
it. -/
inductive SeqRun (n : ℕ) (sem : OpSem π α β L) (prog : List (Instr π)) (i : ℕ) :
    ℕ → (α → β) → (α → β) → Prop where
  | refl {m : α → β} : SeqRun n sem prog i i m m
  | snoc {j : ℕ} {m m' m'' : α → β} : SeqRun n sem prog i j m m' →
      InstrRun sem prog j (participants n prog j) m' m'' → SeqRun n sem prog i (j + 1) m m''

/-- An op has one result. -/
theorem OpRun.unique {ins : Instr π} {b : ℕ} {l : L} {m m₁ m₂ : α → β}
    (h₁ : OpRun sem ins b l m m₁) (h₂ : OpRun sem ins b l m m₂) : m₁ = m₂ := by
  induction h₁ with
  | ret hn =>
    cases h₂ with
    | ret => rfl
    | step hs =>
      rw [hn] at hs
      cases hs
  | step hs _ ih =>
    cases h₂ with
    | ret hn =>
      rw [hs] at hn
      cases hn
    | step hs' h₂ =>
      rw [hs] at hs'
      cases hs'
      exact ih h₂

theorem InstrRun.unique {i : ℕ} {bs : List (Fin n)} {m m₁ m₂ : α → β}
    (h₁ : InstrRun sem prog i bs m m₁) (h₂ : InstrRun sem prog i bs m m₂) : m₁ = m₂ := by
  induction h₁ with
  | nil =>
    cases h₂
    rfl
  | cons hi ho _ ih =>
    cases h₂ with
    | cons hi' ho' h₂ =>
      rw [hi] at hi'
      cases hi'
      obtain rfl := ho.unique ho'
      exact ih h₂

theorem SeqRun.le {i j : ℕ} {m m' : α → β} (h : SeqRun n sem prog i j m m') : i ≤ j := by
  induction h with
  | refl => exact le_rfl
  | snoc _ _ ih => exact ih.trans (Nat.le_succ _)

/-- **Sequential execution has one result.** -/
theorem SeqRun.unique {i j : ℕ} {m m₁ m₂ : α → β} (h₁ : SeqRun n sem prog i j m m₁)
    (h₂ : SeqRun n sem prog i j m m₂) : m₁ = m₂ := by
  induction h₁ generalizing m₂ with
  | refl =>
    cases h₂ with
    | refl => rfl
    | snoc h _ => exact absurd h.le (Nat.not_succ_le_self _)
  | snoc h₁ hi ih =>
    cases h₂ with
    | refl => exact absurd h₁.le (Nat.not_succ_le_self _)
    | snoc h₂ hi' =>
      obtain rfl := ih h₂
      exact hi.unique hi'

theorem SeqRun.trans {i j k : ℕ} {m m' m'' : α → β} (h₁ : SeqRun n sem prog i j m m')
    (h₂ : SeqRun n sem prog j k m' m'') : SeqRun n sem prog i k m m'' := by
  induction h₂ with
  | refl => exact h₁
  | snoc _ hi ih => exact .snoc (ih h₁) hi

/-- A crossing has no participants. -/
theorem runs_eq_false_of_isCrossing {b i : ℕ} (h : isCrossing prog i = true) :
    runs prog b i = false := by
  rw [isCrossing] at h
  rw [runs]
  rcases hi : prog[i]? with _ | ins
  · rfl
  · rw [hi] at h
    simp only at h
    simp [h]

theorem skips_eq_false_of_isCrossing {b i : ℕ} (h : isCrossing prog i = true) :
    skips prog b i = false := by
  rw [isCrossing] at h
  rw [skips]
  rcases hi : prog[i]? with _ | ins
  · rfl
  · rw [hi] at h
    simp only at h
    simp [h]

/-- Executing an OP_BOUNDARY does nothing. -/
theorem SeqRun.crossing {i j : ℕ} {m m' : α → β} (h : SeqRun n sem prog i j m m')
    (hx : isCrossing prog j = true) : SeqRun n sem prog i (j + 1) m m' := by
  refine h.snoc ?_
  have hnil : participants n prog j = [] := by
    simp [participants, runs_eq_false_of_isCrossing hx]
  rw [hnil]
  exact .nil

/-- An op runs in the same way in every memory that agrees on its footprint. -/
theorem OpRun.lift {ins : Instr π} {b : ℕ} {f : Footprint α}
    (hr : (sem.fp ins b).touches ⊆ f.touches) (hw : (sem.fp ins b).writes ⊆ f.writes) {l : L}
    {m m' : α → β} (h : OpRun sem ins b l m m') :
    ∀ {M : α → β}, Set.EqOn m M f.touches →
      ∃ M', OpRun sem ins b l M M' ∧ Set.EqOn M' m' f.touches ∧ ∀ a, a ∉ f.writes → M' a = M a := by
  have hloc := fun l => (sem.confined ins b l).mono hr hw
  induction h with
  | ret hn =>
    intro M he
    exact ⟨M, .ret ((hloc _).stuck _ _ he hn), he.symm, fun _ _ => rfl⟩
  | step hs _ ih =>
    intro M he
    obtain ⟨M₁, hs₁, he₁⟩ := (hloc _).depends _ _ he _ _ hs
    obtain ⟨M', hrun, hin, hout⟩ := ih he₁
    refine ⟨M', .step hs₁ hrun, hin, fun a ha => ?_⟩
    rw [hout a ha, (hloc _).frame _ _ _ hs₁ a ha]

/-! ## A block on its own -/

/-- Where a block stands in the program: before an instruction or inside its op, with the local
state that the op has reached. -/
inductive Spot (L : Type*) : Type _ where
  | before (i : ℕ)
  | inside (i : ℕ) (l : L)

/-- A block walks over the program in a private memory. It does not cross boundaries, so that a walk
belongs to one window. -/
inductive Solo (sem : OpSem π α β L) (prog : List (Instr π)) (b : ℕ) :
    Spot L × (α → β) → Spot L × (α → β) → Prop where
  | skip {i : ℕ} {m : α → β} : skips prog b i = true →
      Solo sem prog b (.before i, m) (.before (i + 1), m)
  | enter {i : ℕ} {ins : Instr π} {m : α → β} : runs prog b i = true → prog[i]? = some ins →
      Solo sem prog b (.before i, m) (.inside i (sem.init ins b), m)
  | tick {i : ℕ} {ins : Instr π} {l l' : L} {m m' : α → β} : prog[i]? = some ins →
      sem.step ins b l m = some (l', m') → Solo sem prog b (.inside i l, m) (.inside i l', m')
  | finish {i : ℕ} {ins : Instr π} {l : L} {m : α → β} : prog[i]? = some ins →
      sem.step ins b l m = none → Solo sem prog b (.inside i l, m) (.before (i + 1), m)

/-- A walk that goes on after an op has run it to its end. -/
theorem Solo.opRun {b i k : ℕ} {ins : Instr π} (hi : prog[i]? = some ins)
    {x : Spot L × (α → β)} {μ : α → β} (h : ReflTransGen (Solo sem prog b) x (.before k, μ)) :
    ∀ {l : L} {m : α → β}, x = (.inside i l, m) →
      ∃ m', OpRun sem ins b l m m' ∧
        ReflTransGen (Solo sem prog b) (.before (i + 1), m') (.before k, μ) := by
  induction h using ReflTransGen.head_induction_on with
  | refl =>
    intro l m hx
    cases hx
  | head hs hrest ih =>
    rintro l m rfl
    cases hs with
    | tick hi' hstep =>
      rw [hi] at hi'
      cases hi'
      obtain ⟨m', hrun, hwalk⟩ := ih rfl
      exact ⟨m', .step hstep hrun, hwalk⟩
    | finish hi' hstep =>
      rw [hi] at hi'
      cases hi'
      exact ⟨m, .ret hstep, hrest⟩

/-- A walk from instruction `i` to a later one first deals with `i`. -/
theorem Solo.advance {b i k : ℕ} (hik : i ≠ k) {m μ : α → β}
    (h : ReflTransGen (Solo sem prog b) (.before i, m) (.before k, μ)) :
    ∃ m', ReflTransGen (Solo sem prog b) (.before (i + 1), m') (.before k, μ) ∧
      (runs prog b i = true →
        ∃ ins, prog[i]? = some ins ∧ OpRun sem ins b (sem.init ins b) m m') ∧
      (runs prog b i = false → m' = m) := by
  rcases ReflTransGen.cases_head h with heq | ⟨x, hs, hrest⟩
  · cases heq
    exact absurd rfl hik
  · cases hs with
    | skip hk =>
      refine ⟨m, hrest, fun hr => ?_, fun _ => rfl⟩
      rw [runs] at hr
      rw [skips] at hk
      rcases hi : prog[i]? with _ | ins
      · rw [hi] at hr
        cases hr
      · rw [hi] at hr hk
        simp only [Bool.and_eq_true, Bool.not_eq_true'] at hr hk
        rw [hr.2] at hk
        cases hk.2
    | @enter _ ins _ hr hi =>
      obtain ⟨m', hrun, hwalk⟩ := Solo.opRun hi hrest rfl
      refine ⟨m', hwalk, fun _ => ⟨ins, hi, hrun⟩, fun hn => ?_⟩
      rw [hr] at hn
      cases hn

/-- At a crossing a walk ends. -/
theorem Solo.eq_of_crossing {b i : ℕ} (hx : isCrossing prog i = true) {m : α → β}
    {y : Spot L × (α → β)} (h : ReflTransGen (Solo sem prog b) (.before i, m) y) :
    y = (.before i, m) := by
  rcases ReflTransGen.cases_head h with heq | ⟨x, hs, -⟩
  · exact heq.symm
  · cases hs with
    | skip hk =>
      rw [skips_eq_false_of_isCrossing hx] at hk
      cases hk
    | enter hr =>
      rw [runs_eq_false_of_isCrossing hx] at hr
      cases hr

/-! ## The blocks of a window -/

/-- What block `b` may touch in window `A`: the footprints of the instructions behind
the `A`-th boundary that it takes part in. -/
def winFp (sem : OpSem π α β L) (prog : List (Instr π)) (A b : ℕ) : Footprint α where
  reads := { a | ∃ i ins, prog[i]? = some ins ∧ bnd prog i = A ∧ runs prog b i = true ∧
    a ∈ (sem.fp ins b).reads }
  writes := { a | ∃ i ins, prog[i]? = some ins ∧ bnd prog i = A ∧ runs prog b i = true ∧
    a ∈ (sem.fp ins b).writes }

/-- Within a window no block touches what another one writes: footprints conflict only between
instructions of one block, and those the block executes in order anyway. -/
def ConflictFree (n : ℕ) (sem : OpSem π α β L) (prog : List (Instr π)) : Prop :=
  ∀ (i j : ℕ) (ins ins' : Instr π) (b b' : Fin n), b ≠ b' → bnd prog i = bnd prog j →
    prog[i]? = some ins → prog[j]? = some ins' → runs prog b i = true → runs prog b' j = true →
    (sem.fp ins b).Indep (sem.fp ins' b')

section Window

variable {A b i : ℕ} {ins : Instr π}

theorem writes_subset_winFp (hi : prog[i]? = some ins) (hA : bnd prog i = A)
    (hr : runs prog b i = true) : (sem.fp ins b).writes ⊆ (winFp sem prog A b).writes :=
  fun _ ha => ⟨i, ins, hi, hA, hr, ha⟩

theorem touches_subset_winFp (hi : prog[i]? = some ins) (hA : bnd prog i = A)
    (hr : runs prog b i = true) : (sem.fp ins b).touches ⊆ (winFp sem prog A b).touches := by
  rintro a (ha | ha)
  · exact Or.inl ⟨i, ins, hi, hA, hr, ha⟩
  · exact Or.inr ⟨i, ins, hi, hA, hr, ha⟩

/-- What a block touches in a window it touches for one of its instructions. -/
theorem exists_of_mem_touches {a : α} (ha : a ∈ (winFp sem prog A b).touches) :
    ∃ i ins, prog[i]? = some ins ∧ bnd prog i = A ∧ runs prog b i = true ∧
      a ∈ (sem.fp ins b).touches := by
  rcases ha with ⟨i, ins, hi, hA, hr, ha⟩ | ⟨i, ins, hi, hA, hr, ha⟩
  · exact ⟨i, ins, hi, hA, hr, Or.inl ha⟩
  · exact ⟨i, ins, hi, hA, hr, Or.inr ha⟩

end Window

theorem ConflictFree.pairwise (h : ConflictFree n sem prog) (A : ℕ) :
    Pairwise fun b b' : Fin n => (winFp sem prog A b).Indep (winFp sem prog A b') := by
  have key : ∀ b b' : Fin n, b ≠ b' →
      Disjoint (winFp sem prog A b).writes (winFp sem prog A b').touches := by
    intro b b' hne
    rw [Set.disjoint_left]
    rintro a ⟨i, ins, hi, hA, hr, ha⟩ ha'
    obtain ⟨j, ins', hj, hA', hr', ha'⟩ := exists_of_mem_touches ha'
    have hind := h i j ins ins' b b' hne (hA.trans hA'.symm) hi hj hr hr'
    exact Set.disjoint_left.mp hind.1 ha ha'
  intro b b' hne
  exact ⟨key b b' hne, key b' b hne.symm⟩

section SeqOfSolo

variable {A i : ℕ} {m₀ : α → β}

/-- One instruction: if each participating block has a run of its op in its private
memory, they run it one after another in the merged memory. -/
theorem instrRun_of_solo (hcf : ConflictFree n sem prog) (hA : bnd prog i = A)
    (μ' : Fin n → α → β) :
    ∀ (bs : List (Fin n)) (μ : Fin n → α → β) (M : α → β), bs.Nodup →
      (∀ b ∈ bs, runs prog b i = true →
        ∃ ins, prog[i]? = some ins ∧ OpRun sem ins b (sem.init ins b) (μ b) (μ' b)) →
      (∀ b ∈ bs, runs prog b i = false → μ' b = μ b) →
      Footprint.Merged (fun b : Fin n => winFp sem prog A b) μ m₀ M →
      ∃ M', InstrRun sem prog i (bs.filter fun b => runs prog b i) M M' ∧
        Footprint.Merged (fun b : Fin n => winFp sem prog A b)
          (fun b => if b ∈ bs then μ' b else μ b) m₀ M' := by
  intro bs
  induction bs with
  | nil =>
    intro μ M _ _ _ hM
    exact ⟨M, .nil, by simpa using hM⟩
  | cons b bs ih =>
    intro μ M hnd hruns hskips hM
    obtain ⟨hnot, hnd⟩ := List.nodup_cons.mp hnd
    have hother : ∀ b' ∈ bs, Function.update μ b (μ' b) b' = μ b' := fun b' hb' =>
      Function.update_of_ne (fun h : b' = b => hnot (h ▸ hb')) _ _
    have hfun : (fun b' => if b' ∈ bs then μ' b' else Function.update μ b (μ' b) b') =
        fun b' => if b' ∈ b :: bs then μ' b' else μ b' := by
      funext b'
      rcases eq_or_ne b' b with rfl | hne
      · simp
      · simp [hne]
    have hrest := fun M₁ (hM₁ : Footprint.Merged _ (Function.update μ b (μ' b)) m₀ M₁) =>
      ih (Function.update μ b (μ' b)) M₁ hnd
        (fun b' hb' hr => by
          rw [hother b' hb']
          exact hruns b' (List.mem_cons_of_mem _ hb') hr)
        (fun b' hb' hr => by
          rw [hother b' hb']
          exact hskips b' (List.mem_cons_of_mem _ hb') hr) hM₁
    by_cases hr : runs prog b i = true
    · obtain ⟨ins, hi, hrun⟩ := hruns b List.mem_cons_self hr
      obtain ⟨M₁, hrun₁, hin, hout⟩ := hrun.lift (touches_subset_winFp hi hA hr)
        (writes_subset_winFp hi hA hr) (hM.agree b).symm
      obtain ⟨M', hrun', hM'⟩ := hrest M₁ (hM.update (hcf.pairwise A) hin hout)
      rw [hfun] at hM'
      refine ⟨M', ?_, hM'⟩
      rw [List.filter_cons, if_pos hr]
      exact .cons hi hrun₁ hrun'
    · have hsame : Function.update μ b (μ' b) = μ := by
        rw [hskips b List.mem_cons_self (Bool.not_eq_true _ ▸ hr), Function.update_eq_self]
      obtain ⟨M', hrun', hM'⟩ := hrest M (by rwa [hsame])
      rw [hfun] at hM'
      refine ⟨M', ?_, hM'⟩
      rw [List.filter_cons, if_neg hr]
      exact hrun'

/-- **A window as sequential code.** If every block has walked from `lo` to the crossing
at `hi` in its private memory, and the shared memory is what they have made of `m₀`, then
sequential execution of `lo` to `hi - 1` takes `m₀` to the shared memory. -/
theorem seqRun_of_solo (hcf : ConflictFree n sem prog) {lo hi : ℕ} (hle : lo ≤ hi)
    (hlo : bnd prog lo = A) (hhi : bnd prog hi = A) (hx : isCrossing prog hi = true)
    {μ : Fin n → α → β} {m : α → β}
    (hsolo : ∀ b : Fin n, ReflTransGen (Solo sem prog b) (.before lo, m₀) (.before hi, μ b))
    (hm : Footprint.Merged (fun b : Fin n => winFp sem prog A b) μ m₀ m) :
    SeqRun n sem prog lo hi m₀ m := by
  -- after the first `k` instructions every block has a rest of its walk left
  have key : ∀ k, lo ≤ k → k ≤ hi → ∃ (ρ : Fin n → α → β) (M : α → β),
      SeqRun n sem prog lo k m₀ M ∧
      Footprint.Merged (fun b : Fin n => winFp sem prog A b) ρ m₀ M ∧
      ∀ b : Fin n, ReflTransGen (Solo sem prog b) (.before k, ρ b) (.before hi, μ b) := by
    intro k hk
    induction k, hk using Nat.le_induction with
    | base =>
      intro _
      exact ⟨fun _ => m₀, m₀, .refl, .start, hsolo⟩
    | succ k hk ih =>
      intro hkhi
      obtain ⟨ρ, M, hseq, hM, hrest⟩ := ih (Nat.le_of_succ_le hkhi)
      have hA : bnd prog k = A :=
        le_antisymm ((bnd_mono (Nat.le_of_succ_le hkhi)).trans hhi.le) (hlo.ge.trans (bnd_mono hk))
      choose ρ' hrest' hruns hskips using fun b => Solo.advance (Nat.ne_of_lt hkhi) (hrest b)
      obtain ⟨M', hrun, hM'⟩ := instrRun_of_solo hcf hA ρ' (List.finRange n) ρ M
        (List.nodup_finRange n) (fun b _ => hruns b) (fun b _ => hskips b) hM
      simp only [List.mem_finRange, if_true] at hM'
      exact ⟨ρ', M', hseq.snoc hrun, hM', hrest'⟩
  obtain ⟨ρ, M, hseq, hM, hrest⟩ := key hi hle le_rfl
  have hρ : ρ = μ := by
    funext b
    have := Solo.eq_of_crossing hx (hrest b)
    exact (Prod.mk.inj this).2.symm
  rw [hρ] at hM
  rwa [hm.unique hM]

end SeqOfSolo

end Megakernel
