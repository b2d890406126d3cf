import Megakernel.ParityGate
import Mathlib.Data.List.Dedup
import Mathlib.Algebra.Order.BigOperators.Group.List
import Mathlib.Analysis.SpecialFunctions.Log.Basic
import Mathlib.Data.List.Forall2

/-!
# What a passed gate means

`gate_sound_iff` says for which pairs of dump trees exit code 0 means what it
should (`Agree`). The gate looks for a greatest difference and compares that with
the tolerance, so a difference that is NaN speaks against nothing: it is dropped
by `max` and by the running maximum, or it makes the maximum itself a NaN that is
not greater than the tolerance. Nor does the gate check that all rows are there
to be compared. Where everything is there and ordered (`Ordered`), a passed gate
is right, and otherwise only where another comparison fails (`Uncaught`).

The proof has two halves. One says what the code computes (`main_eq_zero_iff`), lane by lane and
without any assumption on the numbers. The other compares this with what a passed gate should mean,
and only there does it matter whether a number is one.
-/

namespace Megakernel.Compare

open Ieee Value

variable {K : Type} [FiniteArith K] {A B : Type}

/-! ## What is read -/

/-- What the gate reads from two trees, when nothing raises on the way. -/
structure Loaded (K : Type) where
  idxR : Index
  idxC : Index
  /-- Where the tokens first differ. -/
  div : Option ℕ
  logR : List (List (Value K))
  logC : List (List (Value K))
  rmsR : List (Key × Value K)
  rmsC : List (Key × Value K)
  stR : List (Key × String × ℤ)
  stC : List (Key × String × ℤ)

namespace Loaded

/-- The number of logits rows that are comparable. -/
def rows (L : Loaded K) : ℕ := nRowsCmp L.idxR.config.steps L.div

/-- The number of steps that are comparable. -/
def steps (L : Loaded K) : ℕ := nStepsCmp L.idxR.config.steps L.div

end Loaded

/-- Both sequences have the same token at `i`. -/
def SameToken (tokR tokC : List ℤ) (i : ℕ) : Prop := ∃ t, tokR[i]? = some t ∧ tokC[i]? = some t

/-- The sequences have different tokens at `i`. -/
def OtherToken (tokR tokC : List ℤ) (i : ℕ) : Prop :=
  ∃ t t', tokR[i]? = some t ∧ tokC[i]? = some t' ∧ t ≠ t'

/-- Of the `n` tokens from `s` on, the first that differ are those at `div`. Behind it the runs have
different contexts, so that nothing further can be compared. -/
def Diverge (tokR tokC : List ℤ) (s n : ℕ) : Option ℕ → Prop
  | none => ∀ i, s ≤ i → i < s + n → SameToken tokR tokC i
  | some d => s ≤ d ∧ d < s + n ∧ (∀ i, s ≤ i → i < d → SameToken tokR tokC i) ∧
      OtherToken tokR tokC d

/-- The trees can be read, and `L` is what they hold. -/
structure Read (ref cand : Tree K) (L : Loaded K) : Prop where
  idxR : loadIndex ref = .ok L.idxR
  idxC : loadIndex cand = .ok L.idxC
  div : Diverge L.idxR.emittedTokens L.idxC.emittedTokens 0 L.idxR.config.steps L.div
  logR : loadLogits ref L.idxR = .ok L.logR
  logC : loadLogits cand L.idxC = .ok L.logC
  rmsR : loadNodesRms ref = .ok L.rmsR
  rmsC : loadNodesRms cand = .ok L.rmsC
  stR : loadFiles ref "state" = .ok L.stR
  stC : loadFiles cand "state" = .ok L.stC

/-- The state file of a key is in both trees, with the same size on record and the same bytes. -/
def SameFile (ref cand : Tree K) (L : Loaded K) (k : Key) : Prop :=
  ∃ r c bytes, L.stR.lookup k = some r ∧ L.stC.lookup k = some c ∧ r.2 = c.2 ∧
    ref.content r.1 = some bytes ∧ cand.content c.1 = some bytes

/-! ## What a passed gate should mean -/

/-- The divergence of two rows is a number within the tolerance. -/
def Within (tol : Value K) (x y : List (Value K)) : Prop := ∃ k, klNats [x] [y] = .ok [k] ∧ k ≤ tol

/-- **What exit code 0 should mean**: up to the first divergence of the tokens, its row of logits
included, everything that is comparable is in both trees and within its tolerance. It is stated
without the code of the lanes. -/
structure Agree (digit : Char → Bool) (args : Args K) (ref cand : Tree K) (L : Loaded K) :
    Prop where
  logits : ∀ i < L.rows, ∃ x y, L.logR[i]? = some x ∧ L.logC[i]? = some y ∧ x.length = y.length ∧
    Within args.klTol x y ∧ Within args.klTol y x
  nodes : ∀ k, k ∈ residKeys digit L.steps L.rmsR ↔ k ∈ residKeys digit L.steps L.rmsC
  residual : ∀ k ∈ residKeys digit L.steps L.rmsR, ∃ a b, L.rmsC.lookup k = some a ∧
    L.rmsR.lookup k = some b ∧ relDiff a b ≤ args.rmsTol
  states : ∀ k, k ∈ keysBelow L.steps L.stR ↔ k ∈ keysBelow L.steps L.stC
  state : ∀ k ∈ keysBelow L.steps L.stR, SameFile ref cand L k

/-- All rows that are comparable are there, and all that is compared is ordered: the tolerances, the
logits, and the RMS values as far as their difference depends on it. A condition on the inputs
alone. -/
structure Ordered (digit : Char → Bool) (args : Args K) (L : Loaded K) : Prop where
  klTol : args.klTol ≠ nan
  logits : ∀ i < L.rows, ∃ x y, L.logR[i]? = some x ∧ L.logC[i]? = some y ∧ x.length = y.length ∧
    (∀ v ∈ x, v.Finite) ∧ ∀ v ∈ y, v.Finite
  rmsTol : (∃ k, k ∈ residKeys digit L.steps L.rmsR) → args.rmsTol ≠ nan
  residual : ∀ k ∈ residKeys digit L.steps L.rmsR, ∀ a b, L.rmsC.lookup k = some a →
    L.rmsR.lookup k = some b → a.Eq b ∨ b = fin 0 ∨ a ≠ nan ∧ b.Finite

/-! ## What a passed gate does mean -/

/-- A token is the index of an element of a row, perhaps counted from the end. -/
def InRow (xs : List A) (i : ℤ) : Prop := -(xs.length : ℤ) ≤ i ∧ i < xs.length

/-- The lane of the logits has nothing against these divergences: none is greater than the
tolerance, as far as no NaN hides it. -/
structure LogitsUncaught (tol : Value K) (fwd rev : List (Value K)) : Prop where
  someFwd : fwd ≠ []
  someRev : rev ≠ []
  kl : nan ∈ fwd ∨ (∀ x ∈ fwd, ¬ tol < x) ∧ (nan ∈ rev ∨ ∀ x ∈ rev, ¬ tol < x)

/-- The lane of the tokens has nothing against a divergence at `d`. -/
structure TokensUncaught (tol : Value K) (fwd rev : List (Value K)) (L : Loaded K) (d : ℕ) :
    Prop where
  band : ∃ f r, fwd[d]? = some f ∧ rev[d]? = some r ∧ f ≤ tol ∧ ¬ tol < r
  inRow : ∃ tokR tokC rowR rowC, L.idxR.emittedTokens[d]? = some tokR ∧
    L.idxC.emittedTokens[d]? = some tokC ∧ L.logR[d]? = some rowR ∧ L.logC[d]? = some rowC ∧
    InRow rowR tokR ∧ InRow rowR tokC ∧ InRow rowC tokC ∧ InRow rowC tokR

/-- No comparison speaks against the pair, where a comparison with a NaN speaks against nothing.
This is what the code computes, lane by lane. -/
structure Uncaught (digit : Char → Bool) (args : Args K) (ref cand : Tree K) (L : Loaded K) :
    Prop where
  indices : checkIndices args L.idxR L.idxC = .ok ()
  logits : ∃ fwd rev, klNats (L.logR.take L.rows) (L.logC.take L.rows) = .ok fwd ∧
    klNats (L.logC.take L.rows) (L.logR.take L.rows) = .ok rev ∧
    LogitsUncaught args.klTol fwd rev ∧
    ∀ d, L.div = some d → TokensUncaught args.klTol fwd rev L d
  nodes : ∀ k, k ∈ residKeys digit L.steps L.rmsR ↔ k ∈ residKeys digit L.steps L.rmsC
  rmsTol : ¬ args.rmsTol < fin (-1)
  residual : ∀ k ∈ residKeys digit L.steps L.rmsR, ∃ a b, L.rmsC.lookup k = some a ∧
    L.rmsR.lookup k = some b ∧ ¬ args.rmsTol < relDiff a b
  states : ∀ k, k ∈ keysBelow L.steps L.stR ↔ k ∈ keysBelow L.steps L.stC
  state : ∀ k ∈ keysBelow L.steps L.stR, SameFile ref cand L k

/-! ## Computations that may raise -/

/-- A step and what follows succeed if the step does and what follows does with its result. -/
theorem bind_ok {x : Except Abort A} {f : A → Except Abort B} {b : B} :
    x >>= f = .ok b ↔ ∃ a, x = .ok a ∧ f a = .ok b := by
  cases x with
  | error e =>
    constructor
    · intro h
      cases h
    · rintro ⟨a, h, -⟩
      cases h
  | ok a =>
    constructor
    · intro h
      exact ⟨a, rfl, h⟩
    · rintro ⟨a', ha, h⟩
      cases ha
      exact h

@[simp] theorem orRaise_ok {o : Option A} {a : A} : orRaise o = .ok a ↔ o = some a := by
  cases o with
  | none => simp [orRaise]
  | some b => simp [orRaise]

/-- A loop that may raise succeeds if it does for every element, and its results stand in the order
of the elements. -/
theorem mapM_ok {f : A → Except Abort B} {l : List A} {r : List B} :
    l.mapM f = .ok r ↔ List.Forall₂ (fun a b => f a = .ok b) l r := by
  induction l generalizing r with
  | nil =>
    rw [List.mapM_nil, List.forall₂_nil_left_iff]
    exact ⟨fun h => (Except.ok.inj h).symm, fun h => congrArg Except.ok h.symm⟩
  | cons a l ih =>
    rw [List.mapM_cons, List.forall₂_cons_left_iff]
    simp only [bind_ok]
    constructor
    · rintro ⟨b, hb, bs, hbs, h⟩
      cases h
      exact ⟨b, bs, hb, ih.mp hbs, rfl⟩
    · rintro ⟨b, bs, hb, hbs, rfl⟩
      exact ⟨b, hb, bs, ih.mpr hbs, rfl⟩

/-- An index finds something if it is in the row. Negative indices count from the end, as in Python.
-/
theorem item_ok_iff {xs : List A} {i : ℤ} : (∃ x, item xs i = .ok x) ↔ InRow xs i := by
  have hget : ∀ n : ℕ, (∃ x, orRaise xs[n]? = .ok x) ↔ n < xs.length := by
    intro n
    simp only [orRaise_ok, List.getElem?_eq_some_iff]
    exact ⟨fun ⟨_, h, _⟩ => h, fun h => ⟨_, h, rfl⟩⟩
  rw [item, InRow]
  split_ifs with hpos hneg
  · rw [hget]
    omega
  · rw [hget]
    omega
  · simp only [exists_false, false_iff]
    omega

/-- The search for the first difference finds it. -/
theorem firstDiff_ok_iff {tokR tokC : List ℤ} {s n : ℕ} {div : Option ℕ} :
    firstDiff tokR tokC (List.range' s n) = .ok div ↔ Diverge tokR tokC s n div := by
  induction n generalizing s with
  | zero =>
    cases div with
    | none => exact iff_of_true rfl fun i hsi his => absurd hsi (by omega)
    | some d =>
      exact iff_of_false (by simp [firstDiff]) fun h => absurd h.1 (by have := h.2.1; omega)
  | succ n ih =>
    rw [List.range'_succ, firstDiff]
    simp only [bind_ok, orRaise_ok]
    constructor
    · rintro ⟨r, hr, c, hc, h⟩
      by_cases hne : r ≠ c
      · rw [if_pos hne] at h
        cases h
        exact ⟨le_refl s, by omega, fun i hsi his => absurd hsi (by omega), r, c, hr, hc, hne⟩
      · rw [if_neg hne, ih] at h
        have hsame : SameToken tokR tokC s := ⟨r, hr, by rw [hc, not_ne_iff.mp hne]⟩
        have hcons : ∀ i, s ≤ i → (s + 1 ≤ i → SameToken tokR tokC i) → SameToken tokR tokC i := by
          intro i hsi hi
          obtain heq | hlt := Nat.eq_or_lt_of_le hsi
          · exact heq ▸ hsame
          · exact hi hlt
        cases div with
        | none => exact fun i hsi hin => hcons i hsi fun hlt => h i hlt (by omega)
        | some d =>
          obtain ⟨hsd, hdn, hbefore, hother⟩ := h
          exact ⟨by omega, by omega, fun i hsi hid => hcons i hsi fun hlt => hbefore i hlt hid,
            hother⟩
    · intro h
      cases div with
      | none =>
        obtain ⟨t, hr, hc⟩ := h s (le_refl s) (by omega)
        refine ⟨t, hr, t, hc, ?_⟩
        rw [if_neg (not_not.mpr rfl), ih]
        exact fun i hsi hin => h i (by omega) (by omega)
      | some d =>
        obtain ⟨hsd, hdn, hbefore, hother⟩ := h
        obtain rfl | hlt := Nat.eq_or_lt_of_le hsd
        · obtain ⟨t, t', hr, hc, hne⟩ := hother
          exact ⟨t, hr, t', hc, if_pos hne⟩
        · obtain ⟨t, hr, hc⟩ := hbefore s (le_refl s) hlt
          refine ⟨t, hr, t, hc, ?_⟩
          rw [if_neg (not_not.mpr rfl), ih]
          exact ⟨hlt, by omega, fun i hsi hid => hbefore i (by omega) hid, hother⟩

/-! ## The lanes -/

/-- The lane of the logits is silent just if nothing is greater than the tolerance, as far as no NaN
hides it. -/
theorem logitsLane_ok_nil {args : Args K} {fwd rev : List (Value K)} :
    logitsLane args fwd rev = .ok [] ↔ LogitsUncaught args.klTol fwd rev := by
  cases fwd with
  | nil => exact iff_of_false (by simp [logitsLane, maxOf, bind_ok]) fun h => h.someFwd rfl
  | cons x xs =>
    cases rev with
    | nil => exact iff_of_false (by simp [logitsLane, maxOf, bind_ok]) fun h => h.someRev rfl
    | cons y ys =>
      have hsilent : logitsLane args (x :: xs) (y :: ys) = .ok [] ↔
          ¬ args.klTol < pyMax (amax x xs) (amax y ys) := by
        simp [logitsLane, maxOf, bind_ok]
      have hmax : ¬ args.klTol < pyMax (amax x xs) (amax y ys) ↔
          nan ∈ x :: xs ∨ (∀ v ∈ x :: xs, ¬ args.klTol < v) ∧
            (nan ∈ y :: ys ∨ ∀ v ∈ y :: ys, ¬ args.klTol < v) := by
        rw [lt_pyMax, lt_amax, lt_amax, ne_eq, amax_eq_nan]
        by_cases hx : nan ∈ x :: xs
        · simp only [hx, not_true_eq_false, false_and, or_self, not_false_eq_true, true_or]
        by_cases hy : nan ∈ y :: ys
        · simp only [hx, hy, not_true_eq_false, not_false_eq_true, false_and, true_and, and_false,
            or_false, false_or, true_or, and_true, not_exists, not_and]
        · simp only [hx, hy, not_false_eq_true, true_and, not_or, false_or, not_exists, not_and]
      rw [hsilent, hmax]
      exact ⟨fun h => ⟨List.cons_ne_nil x xs, List.cons_ne_nil y ys, h⟩, fun h => h.kl⟩

/-- At a position where the tokens part, the lane has nothing to say just if the two divergences
there do not speak against it and the four logits that it prints can be looked up. -/
theorem tokenLane_ok_nil {args : Args K} {L : Loaded K} {fwd rev : List (Value K)} {d : ℕ} :
    tokenLane args L.idxR L.idxC L.logR L.logC fwd rev (some d) = .ok [] ↔
      TokensUncaught args.klTol fwd rev L d := by
  have hband : ∀ f r : Value K, (if pyMax f r ≤ args.klTol then ([] : List (Violation K)) else
      [.greedyDivergence d (pyMax f r)]) = [] ↔ f ≤ args.klTol ∧ ¬ args.klTol < r := by
    intro f r
    rw [← pyMax_le]
    by_cases h : pyMax f r ≤ args.klTol
    · rw [if_pos h]
      exact iff_of_true rfl h
    · rw [if_neg h]
      exact iff_of_false (List.cons_ne_nil _ _) h
  simp only [tokenLane, bind_ok, orRaise_ok, Except.ok.injEq]
  constructor
  · rintro ⟨f, hf, r, hr, tokR, htokR, tokC, htokC, rowR, hrowR, rowC, hrowC, a₁, h₁,
      a₂, h₂, a₃, h₃,
      a₄, h₄, h⟩
    obtain ⟨hle, hnot⟩ := (hband f r).mp h
    refine ⟨⟨f, r, hf, hr, hle, hnot⟩, tokR, tokC, rowR, rowC, htokR, htokC, hrowR, hrowC, ?_⟩
    exact ⟨item_ok_iff.mp ⟨a₁, h₁⟩, item_ok_iff.mp ⟨a₂, h₂⟩, item_ok_iff.mp ⟨a₃, h₃⟩,
      item_ok_iff.mp ⟨a₄, h₄⟩⟩
  · rintro ⟨⟨f, r, hf, hr, hle, hnot⟩, tokR, tokC, rowR, rowC, htokR, htokC, hrowR,
      hrowC, h₁, h₂, h₃,
      h₄⟩
    obtain ⟨a₁, h₁⟩ := item_ok_iff.mpr h₁
    obtain ⟨a₂, h₂⟩ := item_ok_iff.mpr h₂
    obtain ⟨a₃, h₃⟩ := item_ok_iff.mpr h₃
    obtain ⟨a₄, h₄⟩ := item_ok_iff.mpr h₄
    exact ⟨f, hf, r, hr, tokR, htokR, tokC, htokC, rowR, hrowR, rowC, hrowC, a₁, h₁, a₂, h₂, a₃, h₃,
      a₄, h₄, (hband f r).mpr ⟨hle, hnot⟩⟩

/-- Equal sets of keys, in whatever order the files list them. -/
theorem sameKeys_iff {keysR keysC : List Key} :
    sameKeys keysR keysC = true ↔ ∀ k, k ∈ keysR ↔ k ∈ keysC := by
  rw [sameKeys, Bool.and_eq_true, List.all_eq_true, List.all_eq_true]
  simp only [decide_eq_true_eq]
  exact ⟨fun h k => ⟨h.1 k, h.2 k⟩, fun h => ⟨fun k => (h k).mp, fun k => (h k).mpr⟩⟩

/-- Sorting neither adds keys nor drops any. -/
theorem mem_sortedKeys {keys : List Key} {k : Key} : k ∈ sortedKeys keys ↔ k ∈ keys := by
  rw [sortedKeys, List.mem_mergeSort, List.mem_dedup]

/-- Every key is mapped to something of which `P` holds. -/
theorem mapM_ok_forall {f : A → Except Abort B} {l : List A} {P : B → Prop} :
    (∃ r, l.mapM f = .ok r ∧ ∀ b ∈ r, P b) ↔ ∀ a ∈ l, ∃ b, f a = .ok b ∧ P b := by
  simp only [mapM_ok]
  induction l with
  | nil => simp
  | cons a l ih =>
    rw [List.forall_mem_cons, ← ih]
    constructor
    · rintro ⟨r, hr, hP⟩
      obtain ⟨b, bs, hb, hbs, rfl⟩ := List.forall₂_cons_left_iff.mp hr
      rw [List.forall_mem_cons] at hP
      exact ⟨⟨b, hb, hP.1⟩, bs, hbs, hP.2⟩
    · rintro ⟨⟨b, hb, hPb⟩, bs, hbs, hP⟩
      exact ⟨b :: bs, .cons hb hbs, List.forall_mem_cons.mpr ⟨hPb, hP⟩⟩

/-- The residual lane has no violation if both trees have the same nodes and no relative difference
is above the tolerance. The running maximum starts at -1, so that a tolerance below that is always
exceeded. A difference that is no number is above nothing. -/
theorem residualLane_ok_nil {digit : Char → Bool} {args : Args K} {n : ℕ}
    {rmsR rmsC : List (Key × Value K)} :
    residualLane digit args n rmsR rmsC = .ok [] ↔
      (∀ k, k ∈ residKeys digit n rmsR ↔ k ∈ residKeys digit n rmsC) ∧ ¬ args.rmsTol < fin (-1) ∧
      ∀ k ∈ residKeys digit n rmsR, ∃ a b, rmsC.lookup k = some a ∧ rmsR.lookup k = some b ∧
        ¬ args.rmsTol < relDiff a b := by
  rw [residualLane]
  by_cases hkeys : sameKeys (residKeys digit n rmsR) (residKeys digit n rmsC) = true
  · have hmax : ∀ rels : List (Value K), ¬ args.rmsTol < rels.foldl pyMax (fin (-1)) ↔
        ¬ args.rmsTol < fin (-1) ∧ ∀ rel ∈ rels, ¬ args.rmsTol < rel := by
      intro rels
      rw [lt_foldl_pyMax (by simp), not_or, not_exists]
      simp only [not_and]
    have hrels := mapM_ok_forall (l := sortedKeys (residKeys digit n rmsR))
      (f := fun k => do
        let a ← orRaise (rmsC.lookup k)
        let b ← orRaise (rmsR.lookup k)
        .ok (relDiff a b))
      (P := fun rel => ¬ args.rmsTol < rel)
    simp only [bind_ok, orRaise_ok, Except.ok.injEq, mem_sortedKeys] at hrels
    simp only [hkeys, not_true_eq_false, if_false, bind_ok, Except.ok.injEq, ite_eq_right_iff,
      reduceCtorEq, imp_false, hmax]
    rw [← sameKeys_iff]
    simp only [hkeys, true_and]
    constructor
    · rintro ⟨rels, hmap, hone, hall⟩
      refine ⟨hone, fun k hk => ?_⟩
      obtain ⟨-, ⟨a, ha, b, hb, rfl⟩, hnot⟩ := hrels.mp ⟨rels, hmap, hall⟩ k hk
      exact ⟨a, b, ha, hb, hnot⟩
    · rintro ⟨hone, hall⟩
      obtain ⟨rels, hmap, hall⟩ := hrels.mpr fun k hk => by
        obtain ⟨a, b, ha, hb, hnot⟩ := hall k hk
        exact ⟨relDiff a b, ⟨a, ha, b, hb, rfl⟩, hnot⟩
      exact ⟨rels, hmap, hone, hall⟩
  · refine iff_of_false (by simp [hkeys, failStructural]) fun h => hkeys (sameKeys_iff.mpr h.1)

omit [FiniteArith K] in
/-- A state file has no mismatch if the files of both trees hold the same. -/
theorem mismatch_ok_none {ref cand : Tree K} {L : Loaded K} {k : Key} :
    mismatch ref cand L.stR L.stC k = .ok none ↔ SameFile ref cand L k := by
  simp only [mismatch, bind_ok, orRaise_ok]
  constructor
  · rintro ⟨r, hr, c, hc, h⟩
    by_cases hsize : r.2 = c.2
    · rw [if_neg (not_not.mpr hsize)] at h
      obtain ⟨br, hbr, h⟩ := bind_ok.mp h
      obtain ⟨bc, hbc, h⟩ := bind_ok.mp h
      rw [orRaise_ok] at hbr hbc
      by_cases hbytes : br = bc
      · exact ⟨r, c, br, hr, hc, hsize, hbr, hbytes ▸ hbc⟩
      · rw [if_neg hbytes] at h
        cases h
    · rw [if_pos hsize] at h
      cases h
  · rintro ⟨r, c, bytes, hr, hc, hsize, hbr, hbc⟩
    refine ⟨r, hr, c, hc, ?_⟩
    rw [if_neg (not_not.mpr hsize)]
    exact bind_ok.mpr ⟨bytes, orRaise_ok.mpr hbr, bind_ok.mpr ⟨bytes, orRaise_ok.mpr hbc, by simp⟩⟩

omit [FiniteArith K] in
/-- The state lane has no violation if the trees have the same state files and these hold the same.
-/
theorem stateLane_ok_nil {ref cand : Tree K} {L : Loaded K} {n : ℕ} :
    stateLane ref cand n L.stR L.stC = .ok [] ↔
      (∀ k, k ∈ keysBelow n L.stR ↔ k ∈ keysBelow n L.stC) ∧
      ∀ k ∈ keysBelow n L.stR, SameFile ref cand L k := by
  rw [stateLane]
  by_cases hkeys : sameKeys (keysBelow n L.stR) (keysBelow n L.stC) = true
  · have hfound := mapM_ok_forall (l := sortedKeys (keysBelow n L.stR))
      (f := mismatch ref cand L.stR L.stC) (P := fun o => o = none)
    simp only [mem_sortedKeys, exists_eq_right, mismatch_ok_none] at hfound
    rw [← sameKeys_iff, ← hfound]
    simp [hkeys, bind_ok, List.filterMap_eq_nil_iff]
  · exact iff_of_false (by simp [hkeys, failStructural]) fun h => hkeys (sameKeys_iff.mpr h.1)

/-- **What exit code 0 does mean**: the trees can be read, and no comparison speaks against them.
The rest is the relation of `Uncaught` to `Agree`. -/
theorem main_eq_zero_iff {digit : Char → Bool} {args : Args K} {ref cand : Tree K} :
    main digit args ref cand = 0 ↔
      ∃ L, Read ref cand L ∧ Uncaught digit args ref cand L := by
  have hmain : main digit args ref cand = 0 ↔ violations digit args ref cand = .ok [] := by
    rw [main]
    split <;> simp_all
  rw [hmain]
  simp only [violations, bind_ok, Except.ok.injEq, List.append_eq_nil_iff, List.range_eq_range',
    firstDiff_ok_iff]
  constructor
  · rintro ⟨idxR, hidxR, idxC, hidxC, u, hcheck, div, hdiv, logR, hlogR, logC, hlogC,
      fwd, hfwd, rev,
      hrev, v₁, hv₁, v₂, hv₂, rmsR, hrmsR, rmsC, hrmsC, v₃, hv₃, stR, hstR, stC, hstC, v₄, hv₄,
      ⟨⟨rfl, rfl⟩, rfl⟩, rfl⟩
    let L : Loaded K := ⟨idxR, idxC, div, logR, logC, rmsR, rmsC, stR, stC⟩
    obtain ⟨hnodes, hone, hresid⟩ := residualLane_ok_nil.mp hv₃
    obtain ⟨hstates, hstate⟩ := stateLane_ok_nil (L := L).mp hv₄
    refine ⟨L, ⟨hidxR, hidxC, hdiv, hlogR, hlogC, hrmsR, hrmsC, hstR, hstC⟩, hcheck,
      ⟨fwd, rev, hfwd, hrev, logitsLane_ok_nil.mp hv₁, ?_⟩, hnodes, hone, hresid, hstates, hstate⟩
    intro d hd
    refine tokenLane_ok_nil.mp ?_
    rw [← hd]
    exact hv₂
  · rintro ⟨L, hread, hcheck, ⟨fwd, rev, hfwd, hrev, hlogits, htokens⟩, hnodes, hone,
      hresid, hstates,
      hstate⟩
    refine ⟨L.idxR, hread.idxR, L.idxC, hread.idxC, (), hcheck, L.div, hread.div,
      L.logR, hread.logR,
      L.logC, hread.logC, fwd, hfwd, rev, hrev, [], logitsLane_ok_nil.mpr hlogits, [], ?_, L.rmsR,
      hread.rmsR, L.rmsC, hread.rmsC, [], residualLane_ok_nil.mpr ⟨hnodes, hone, hresid⟩, L.stR,
      hread.stR, L.stC, hread.stC, [], stateLane_ok_nil.mpr ⟨hstates, hstate⟩,
      ⟨⟨rfl, rfl⟩, rfl⟩, rfl⟩
    cases hd : L.div with
    | none => rfl
    | some d => exact tokenLane_ok_nil.mpr (htokens d hd)

/-! ## The divergence of two rows -/

/-- The divergence of rows of logarithms. -/
def klOf (p : List (Value K) × List (Value K)) : Except Abort (Value K) := do
  let cols ← broadcast p.1 p.2
  .ok (sum (cols.map fun p => exp p.1 * (p.1 - p.2)))

/-- Rows of equal length are subtracted element by element. -/
theorem broadcast_ok {a : List A} {b : List B} (h : a.length = b.length) :
    broadcast a b = .ok (a.zip b) := by
  unfold broadcast
  rw [if_pos h]

/-- A row of logarithms is as long as the row of logits. -/
theorem length_logSoftmax {x u : List (Value K)} (h : logSoftmax x = .ok u) :
    x.length = u.length := by
  cases x with
  | nil => simp [logSoftmax] at h
  | cons v xs =>
    cases h
    rw [List.length_map]

/-- The divergences are computed row by row: both rows to logarithms of probabilities, and these to
one number. -/
theorem klNats_ok_iff {a b : List (List (Value K))} {ks : List (Value K)}
    (h : a.length = b.length) :
    klNats a b = .ok ks ↔ ∃ la lb, List.Forall₂ (fun x u => logSoftmax x = .ok u) a la ∧
      List.Forall₂ (fun x u => logSoftmax x = .ok u) b lb ∧
      List.Forall₂ (fun p k => klOf p = .ok k) (la.zip lb) ks := by
  simp only [klNats, bind_ok, mapM_ok]
  constructor
  · rintro ⟨la, ha, lb, hb, rows, hrows, hks⟩
    rw [broadcast_ok (by rw [← ha.length_eq, ← hb.length_eq, h])] at hrows
    cases hrows
    exact ⟨la, lb, ha, hb, hks.imp fun p k hp => by rw [klOf, bind_ok]; exact hp⟩
  · rintro ⟨la, lb, ha, hb, hks⟩
    refine ⟨la, ha, lb, hb, la.zip lb, ?_, hks.imp fun p k hp => bind_ok.mp hp⟩
    exact broadcast_ok (by rw [← ha.length_eq, ← hb.length_eq, h])

/-- Where both sides have the same rows, the rows are compared one by one. -/
theorem klNats_forall₂ {a b : List (List (Value K))} {ks : List (Value K)} (h : a.length = b.length)
    (hks : klNats a b = .ok ks) :
    List.Forall₂ (fun p k => klNats [p.1] [p.2] = .ok [k]) (a.zip b) ks := by
  obtain ⟨la, lb, ha, hb, hkl⟩ := (klNats_ok_iff h).mp hks
  clear hks h
  induction ha generalizing b lb ks with
  | nil =>
    rw [List.zip_nil_left, List.forall₂_nil_left_iff] at hkl
    rw [hkl, List.zip_nil_left]
    exact .nil
  | cons hx ha ih =>
    cases hb with
    | nil =>
      rw [List.zip_nil_right, List.forall₂_nil_left_iff] at hkl
      rw [hkl, List.zip_nil_right]
      exact .nil
    | cons hy hb =>
      cases hkl with
      | cons hk hkl =>
        refine .cons ?_ (ih _ hb hkl)
        exact (klNats_ok_iff (by simp)).mpr ⟨_, _, .cons hx .nil, .cons hy .nil, .cons hk .nil⟩

/-- The divergence of two rows, written out as the sum it is. -/
theorem klNats_singleton {x y : List (Value K)} {k : Value K} (h : x.length = y.length)
    (hk : klNats [x] [y] = .ok [k]) : ∃ u v, logSoftmax x = .ok u ∧ logSoftmax y = .ok v ∧
      u.length = v.length ∧ k = sum ((u.zip v).map fun p => exp p.1 * (p.1 - p.2)) := by
  obtain ⟨la, lb, ha, hb, hkl⟩ := (klNats_ok_iff (by simp)).mp hk
  obtain ⟨u, la, hu, hla, rfl⟩ := List.forall₂_cons_left_iff.mp ha
  obtain ⟨v, lb, hv, hlb, rfl⟩ := List.forall₂_cons_left_iff.mp hb
  rw [List.zip_cons_cons, List.forall₂_cons_left_iff] at hkl
  obtain ⟨k', ks, hk', -, heq⟩ := hkl
  obtain ⟨rfl, -⟩ := List.cons.inj heq
  have hlen : u.length = v.length := by rw [← length_logSoftmax hu, ← length_logSoftmax hv, h]
  rw [klOf, broadcast_ok hlen] at hk'
  exact ⟨u, v, hu, hv, hlen, (Except.ok.inj hk').symm⟩

/-- An element that is not finite has no finite logarithm. -/
theorem logSoftmax_not_finite {x u : List (Value K)} (h : logSoftmax x = .ok u) {v : Value K}
    (hv : v ∈ x) (hfin : ¬ v.Finite) : ∃ w ∈ u, w = nan ∨ w = negInf := by
  cases x with
  | nil => simp at hv
  | cons x xs =>
    cases h
    refine ⟨_, List.mem_map_of_mem hv, ?_⟩
    cases v with
    | nan => exact Or.inl rfl
    | fin k => exact absurd ⟨k, rfl⟩ hfin
    | posInf =>
      obtain hm | hm := amax_of_posInf hv
      · rw [hm, sub_nan, nan_sub]
        exact Or.inl rfl
      · rw [hm, posInf_sub_posInf, nan_sub]
        exact Or.inl rfl
    | negInf =>
      obtain hm | hm := negInf_sub (amax x xs)
      · rw [hm, nan_sub]
        exact Or.inl rfl
      · rw [hm]
        exact negInf_sub _

/-- Finite values have finite logarithms. -/
theorem logSoftmax_finite {x u : List (Value K)} (h : logSoftmax x = .ok u)
    (hfin : ∀ v ∈ x, v.Finite) : ∀ v ∈ u, v.Finite := by
  obtain ⟨ks, rfl⟩ := forall_finite_iff.mp hfin
  cases ks with
  | nil => simp [logSoftmax] at h
  | cons k ks =>
    cases h
    obtain ⟨m, hmem, hm⟩ := amax_map_fin k ks
    have hexp : ((fin k :: ks.map fin).map fun v => exp (v - fin m)) =
        ((k :: ks).map fun k => FiniteArith.exp (k - m)).map fin := by
      simp
    have hpos : 0 < FiniteArith.sum ((k :: ks).map fun k => FiniteArith.exp (k - m)) := by
      apply FiniteArith.sum_pos
      · intro e he
        obtain ⟨k', -, rfl⟩ := List.mem_map.mp he
        exact FiniteArith.exp_nonneg _
      · exact ⟨_, List.mem_map_of_mem hmem, FiniteArith.exp_sub_self_pos m⟩
    rw [hm, hexp, sum_map_fin, log_fin hpos]
    intro v hv
    obtain ⟨w, hw, rfl⟩ := List.mem_map.mp hv
    obtain ⟨k', rfl⟩ := hfin w hw
    exact ⟨_, rfl⟩

/-- **The divergence of finite rows is a number.** -/
theorem kl_ne_nan {x y : List (Value K)} {k : Value K} (hlen : x.length = y.length)
    (hk : klNats [x] [y] = .ok [k]) (hx : ∀ v ∈ x, v.Finite) (hy : ∀ v ∈ y, v.Finite) :
    k ≠ nan := by
  obtain ⟨u, v, hu, hv, -, rfl⟩ := klNats_singleton hlen hk
  have hu := logSoftmax_finite hu hx
  have hv := logSoftmax_finite hv hy
  have hterms : ∀ t ∈ (u.zip v).map fun p => exp p.1 * (p.1 - p.2), t.Finite := by
    intro t ht
    obtain ⟨p, hp, rfl⟩ := List.mem_map.mp ht
    obtain ⟨a, ha⟩ := hu p.1 (List.of_mem_zip hp).1
    obtain ⟨b, hb⟩ := hv p.2 (List.of_mem_zip hp).2
    exact ⟨_, by rw [ha, hb, exp_fin, fin_sub_fin, fin_mul_fin]⟩
  obtain ⟨ks, hks⟩ := forall_finite_iff.mp hterms
  rw [hks, sum_map_fin]
  simp

/-- **A divergence that is a number is one of a finite row**: there is no infinity to hide
behind. -/
theorem finite_of_kl_ne_nan {x y : List (Value K)} {k : Value K} (hlen : x.length = y.length)
    (hk : klNats [x] [y] = .ok [k]) (hnan : k ≠ nan) : ∀ v ∈ x, v.Finite := by
  intro v hv
  by_contra hfin
  obtain ⟨u, u', hu, -, hlen', rfl⟩ := klNats_singleton hlen hk
  obtain ⟨w, hw, hbad⟩ := logSoftmax_not_finite hu hv hfin
  obtain ⟨i, hi, rfl⟩ := List.mem_iff_getElem.mp hw
  apply hnan
  apply sum_nan
  refine List.mem_map.mpr ⟨(u[i], u'.get ⟨i, hlen' ▸ hi⟩), ?_, exp_mul_sub_eq_nan hbad⟩
  exact List.mem_iff_getElem.mpr ⟨i, by simpa [← hlen'] using hi, List.getElem_zip⟩

/-- The relative difference is a number just if the values are equal, or the reference is zero, or
it is finite and the candidate is a number. -/
theorem relDiff_ne_nan_iff {a b : Value K} :
    relDiff a b ≠ nan ↔ a.Eq b ∨ b = fin 0 ∨ a ≠ nan ∧ b.Finite := by
  rw [relDiff]
  by_cases heq : a.Eq b
  · simp [heq]
  rw [if_neg heq]
  by_cases hzero : b = fin 0
  · rw [hzero, if_neg (not_not.mpr ⟨by simp, rfl⟩)]
    simp
  rw [if_pos fun h => hzero h.2]
  simp only [heq, hzero, false_or]
  cases b with
  | nan => simp [Value.Finite]
  | negInf =>
    have hnan : (a - negInf).abs / (negInf : Value K).abs = nan := by
      cases a with
      | negInf => exact absurd ⟨by simp, rfl⟩ heq
      | nan => rfl
      | fin k => rfl
      | posInf => rfl
    simp [hnan, Value.Finite]
  | posInf =>
    have hnan : (a - posInf).abs / (posInf : Value K).abs = nan := by
      cases a with
      | posInf => exact absurd ⟨by simp, rfl⟩ heq
      | nan => rfl
      | fin k => rfl
      | negInf => rfl
    simp [hnan, Value.Finite]
  | fin k =>
    have hfin : (fin k).Finite := ⟨k, rfl⟩
    cases a with
    | nan => simp
    | negInf => exact iff_of_true (abs_div_abs_fin_ne_nan (Or.inr rfl)) ⟨by simp, hfin⟩
    | posInf => exact iff_of_true (abs_div_abs_fin_ne_nan (Or.inr rfl)) ⟨by simp, hfin⟩
    | fin l => exact iff_of_true (abs_div_abs_fin_ne_nan (Or.inl ⟨l - k, rfl⟩)) ⟨by simp, hfin⟩

/-! ## The verdict -/

/-- What stands at a position of the first list has a partner at the same position of the second, -/
theorem forall₂_getElem? {R : A → B → Prop} {l : List A} {r : List B} (h : List.Forall₂ R l r)
    {i : ℕ} {a : A} (ha : l[i]? = some a) : ∃ b, r[i]? = some b ∧ R a b := by
  induction h generalizing i with
  | nil => simp at ha
  | cons hab _ ih =>
    cases i with
    | zero =>
      cases ha
      exact ⟨_, rfl, hab⟩
    | succ i => exact ih ha

/-- and what is in the second comes from something in the first. -/
theorem forall₂_mem_right {R : A → B → Prop} {l : List A} {r : List B} (h : List.Forall₂ R l r)
    {b : B} (hb : b ∈ r) : ∃ a ∈ l, R a b := by
  induction h with
  | nil => simp at hb
  | cons hab _ ih =>
    obtain rfl | hb := List.mem_cons.mp hb
    · exact ⟨_, List.mem_cons_self, hab⟩
    · obtain ⟨a, ha, hab⟩ := ih hb
      exact ⟨a, List.mem_cons_of_mem _ ha, hab⟩

/-- Finite rows that are not caught are within the tolerance. -/
theorem within_of_not_lt {tol : Value K} {a b : List (List (Value K))} {ks : List (Value K)}
    (htol : tol ≠ nan) (hlen : a.length = b.length) (hks : klNats a b = .ok ks)
    (hrows : ∀ p ∈ a.zip b, p.1.length = p.2.length ∧ (∀ v ∈ p.1, v.Finite) ∧ ∀ v ∈ p.2, v.Finite) :
    nan ∉ ks ∧ ((∀ k ∈ ks, ¬ tol < k) → ∀ p ∈ a.zip b, Within tol p.1 p.2) := by
  have hkl := klNats_forall₂ hlen hks
  have hnan : ∀ k ∈ ks, k ≠ nan := by
    intro k hk
    obtain ⟨p, hp, hpk⟩ := forall₂_mem_right hkl hk
    obtain ⟨hwidth, hx, hy⟩ := hrows p hp
    exact kl_ne_nan hwidth hpk hx hy
  refine ⟨fun h => hnan nan h rfl, fun hnot p hp => ?_⟩
  obtain ⟨i, hi⟩ := List.mem_iff_getElem?.mp hp
  obtain ⟨k, hk, hpk⟩ := forall₂_getElem? hkl hi
  have hmem := List.mem_of_getElem? hk
  exact ⟨k, hpk, (not_lt_iff (hnan k hmem) htol).mp (hnot k hmem)⟩

/-- What agrees is ordered, for nothing that is unordered is within a tolerance. -/
theorem Agree.ordered {digit : Char → Bool} {args : Args K} {ref cand : Tree K} {L : Loaded K}
    (h : Agree digit args ref cand L) : Ordered digit args L := by
  have hrow : 0 < L.rows := by
    unfold Loaded.rows nRowsCmp
    split <;> omega
  refine ⟨?_, ?_, ?_, ?_⟩
  · obtain ⟨x, y, -, -, -, ⟨k, -, hle⟩, -⟩ := h.logits 0 hrow
    exact ne_nan_of_le_right hle
  · intro i hi
    obtain ⟨x, y, hx, hy, hlen, ⟨k, hk, hle⟩, k', hk', hle'⟩ := h.logits i hi
    exact ⟨x, y, hx, hy, hlen, finite_of_kl_ne_nan hlen hk (ne_nan_of_le_left hle),
      finite_of_kl_ne_nan hlen.symm hk' (ne_nan_of_le_left hle')⟩
  · rintro ⟨k, hk⟩
    obtain ⟨a, b, -, -, hle⟩ := h.residual k hk
    exact ne_nan_of_le_right hle
  · intro k hk a b ha hb
    obtain ⟨a', b', ha', hb', hle⟩ := h.residual k hk
    rw [ha] at ha'
    rw [hb] at hb'
    cases ha'
    cases hb'
    exact relDiff_ne_nan_iff.mp (ne_nan_of_le_left hle)

omit [FiniteArith K] in
/-- Row `i` of what is compared of both files. -/
theorem getElem?_zip_take {L : Loaded K} {i : ℕ} {p : List (Value K) × List (Value K)} :
    ((L.logR.take L.rows).zip (L.logC.take L.rows))[i]? = some p ↔
      i < L.rows ∧ L.logR[i]? = some p.1 ∧ L.logC[i]? = some p.2 := by
  rw [List.getElem?_zip_eq_some, List.getElem?_take, List.getElem?_take]
  split_ifs with hi <;> simp [hi]

/-- What is ordered is compared row by row, and the rows are finite. -/
theorem Ordered.zip {digit : Char → Bool} {args : Args K} {L : Loaded K}
    (h : Ordered digit args L) : (L.logR.take L.rows).length = (L.logC.take L.rows).length ∧
      ∀ p ∈ (L.logR.take L.rows).zip (L.logC.take L.rows),
        p.1.length = p.2.length ∧ (∀ v ∈ p.1, v.Finite) ∧ ∀ v ∈ p.2, v.Finite := by
  have hle : L.rows ≤ L.logR.length ∧ L.rows ≤ L.logC.length := by
    cases hrows : L.rows with
    | zero => exact ⟨Nat.zero_le _, Nat.zero_le _⟩
    | succ n =>
      obtain ⟨x, y, hx, hy, -⟩ := h.logits n (by omega)
      exact ⟨(List.getElem?_eq_some_iff.mp hx).1, (List.getElem?_eq_some_iff.mp hy).1⟩
  constructor
  · rw [List.length_take, List.length_take, min_eq_left hle.1, min_eq_left hle.2]
  · intro p hp
    obtain ⟨i, hi⟩ := List.mem_iff_getElem?.mp hp
    obtain ⟨hrow, hx, hy⟩ := getElem?_zip_take.mp hi
    obtain ⟨x, y, hx', hy', hok⟩ := h.logits i hrow
    rw [hx] at hx'
    rw [hy] at hy'
    cases hx'
    cases hy'
    exact hok

/-- What is ordered and not caught agrees. -/
theorem Uncaught.agree {digit : Char → Bool} {args : Args K} {ref cand : Tree K} {L : Loaded K}
    (h : Uncaught digit args ref cand L) (hord : Ordered digit args L) :
    Agree digit args ref cand L := by
  obtain ⟨fwd, rev, hfwd, hrev, hlogits, -⟩ := h.logits
  obtain ⟨hlen, hrows⟩ := hord.zip
  have hswap : ∀ p ∈ (L.logC.take L.rows).zip (L.logR.take L.rows),
      p.1.length = p.2.length ∧ (∀ v ∈ p.1, v.Finite) ∧ ∀ v ∈ p.2, v.Finite := by
    intro p hp
    have hmem := List.mem_map_of_mem (f := Prod.swap) hp
    rw [List.zip_swap] at hmem
    obtain ⟨hwidth, hx, hy⟩ := hrows p.swap hmem
    exact ⟨hwidth.symm, hy, hx⟩
  obtain ⟨hfwdNan, hfwdWithin⟩ := within_of_not_lt hord.klTol hlen hfwd hrows
  obtain ⟨hrevNan, hrevWithin⟩ := within_of_not_lt hord.klTol hlen.symm hrev hswap
  obtain ⟨hfwdNot, hrevKl⟩ := hlogits.kl.resolve_left hfwdNan
  have hrevNot := hrevKl.resolve_left hrevNan
  refine ⟨?_, h.nodes, ?_, h.states, h.state⟩
  · intro i hi
    obtain ⟨x, y, hx, hy, hwidth, -⟩ := hord.logits i hi
    have hmem : (x, y) ∈ (L.logR.take L.rows).zip (L.logC.take L.rows) :=
      List.mem_of_getElem? (getElem?_zip_take.mpr ⟨hi, hx, hy⟩)
    have hmem' := List.mem_map_of_mem (f := Prod.swap) hmem
    rw [List.zip_swap] at hmem'
    exact ⟨x, y, hx, hy, hwidth, hfwdWithin hfwdNot _ hmem, hrevWithin hrevNot _ hmem'⟩
  · intro k hk
    obtain ⟨a, b, ha, hb, hnot⟩ := h.residual k hk
    have hnan := relDiff_ne_nan_iff.mpr (hord.residual k hk a b ha hb)
    exact ⟨a, b, ha, hb, (not_lt_iff hnan (hord.rmsTol ⟨k, hk⟩)).mp hnot⟩

omit [FiniteArith K] in
/-- What is read from two trees is determined by them, so that a verdict can be about the trees. -/
theorem Read.unique {ref cand : Tree K} {L L' : Loaded K} (h : Read ref cand L)
    (h' : Read ref cand L') : L = L' := by
  obtain ⟨hidxR, hidxC, hdiv, hlogR, hlogC, hrmsR, hrmsC, hstR, hstC⟩ := h
  obtain ⟨hidxR', hidxC', hdiv', hlogR', hlogC', hrmsR', hrmsC', hstR', hstC'⟩ := h'
  cases L
  cases L'
  cases hidxR.symm.trans hidxR'
  cases hidxC.symm.trans hidxC'
  cases (firstDiff_ok_iff.mpr hdiv).symm.trans (firstDiff_ok_iff.mpr hdiv')
  cases hlogR.symm.trans hlogR'
  cases hlogC.symm.trans hlogC'
  cases hrmsR.symm.trans hrmsR'
  cases hrmsC.symm.trans hrmsC'
  cases hstR.symm.trans hstR'
  cases hstC.symm.trans hstC'
  rfl

/-- **Exit code 0 means what it should if and only if all that is compared is there and ordered**,
or some comparison that is ordered fails, or the trees cannot be read. -/
theorem gate_sound_iff (digit : Char → Bool) (args : Args K) (ref cand : Tree K) :
    (main digit args ref cand = 0 → ∃ L, Read ref cand L ∧ Agree digit args ref cand L) ↔
      ∀ L, Read ref cand L → Uncaught digit args ref cand L → Ordered digit args L := by
  constructor
  · intro h L hread hun
    obtain ⟨L', hread', hagree⟩ := h (main_eq_zero_iff.mpr ⟨L, hread, hun⟩)
    rw [hread.unique hread']
    exact hagree.ordered
  · intro h hzero
    obtain ⟨L, hread, hun⟩ := main_eq_zero_iff.mp hzero
    exact ⟨L, hread, hun.agree (h L hread hun)⟩

/-! ## A tree without a single number -/

/-- Exact arithmetic. -/
noncomputable scoped instance : FiniteArith ℝ where
  exp := Real.exp
  log := Real.log
  sum := List.sum
  exp_nonneg x := (Real.exp_pos x).le
  exp_sub_self_pos x := Real.exp_pos _
  sum_pos l hnonneg := by
    rintro ⟨x, hx, hpos⟩
    exact lt_of_lt_of_le hpos (List.single_le_sum hnonneg x hx)

/-- The divergence of rows of one value. -/
theorem klNats_one (x y : Value K) : klNats [[x]] [[y]] =
    .ok [sum [exp (x - x - log (sum [exp (x - x)])) *
      (x - x - log (sum [exp (x - x)]) - (y - y - log (sum [exp (y - y)])))]] := rfl

/-- A run of no step, with one row of one logit. -/
def bareIndex : Index := ⟨some "mk-oracle/v1", ⟨1, 0, 1, "none", 256⟩, [0], [], 1, 1⟩

/-- The tree of such a run. -/
noncomputable def bareTree (logit : Value ℝ) : Tree ℝ where
  index := .index bareIndex
  logits := some [logit]
  nodes := some []
  files := some []
  content _ := none

/-- The default tolerances. -/
noncomputable def defaultArgs : Args ℝ := ⟨fin 0.02, fin 0.02, false⟩

/-- What the gate reads from two such trees. -/
noncomputable def bareLoaded (r c : Value ℝ) : Loaded ℝ :=
  ⟨bareIndex, bareIndex, none, [[r]], [[c]], [], [], [], []⟩

theorem read_bareLoaded (r c : Value ℝ) : Read (bareTree r) (bareTree c) (bareLoaded r c) where
  idxR := rfl
  idxC := rfl
  div _ _ hi := absurd hi (Nat.not_lt_zero _)
  logR := rfl
  logC := rfl
  rmsR := rfl
  rmsC := rfl
  stR := rfl
  stC := rfl

/-- A candidate whose only logit is NaN is not caught. -/
theorem uncaught_bareLoaded : Uncaught Char.isDigit defaultArgs (bareTree (fin 0)) (bareTree nan)
    (bareLoaded (fin 0) nan) where
  indices := rfl
  logits := by
    refine ⟨_, _, klNats_one (fin 0) nan, klNats_one nan (fin 0), ⟨by simp, by simp, Or.inl ?_⟩,
      fun d hd => nomatch hd⟩
    rw [List.mem_singleton, nan_sub, nan_sub, sub_nan, mul_nan, sum_nan List.mem_cons_self]
  nodes _ := Iff.rfl
  rmsTol := by
    simp only [defaultArgs, fin_lt_fin]
    norm_num
  residual k hk := absurd hk List.not_mem_nil
  states _ := Iff.rfl
  state k hk := absurd hk List.not_mem_nil

/-- The gate passes a candidate whose only logit is NaN. -/
theorem not_gate_sound :
    ¬ (main Char.isDigit defaultArgs (bareTree (fin 0)) (bareTree nan) = 0 →
      ∃ L, Read (bareTree (fin 0)) (bareTree nan) L ∧
        Agree Char.isDigit defaultArgs (bareTree (fin 0)) (bareTree nan) L) := by
  intro h
  obtain ⟨L, hread, hagree⟩ := h (main_eq_zero_iff.mpr
    ⟨_, read_bareLoaded _ _, uncaught_bareLoaded⟩)
  rw [hread.unique (read_bareLoaded _ _)] at hagree
  obtain ⟨x, y, -, hy, -, -, hfin⟩ := hagree.ordered.logits 0 (Nat.zero_lt_one)
  cases hy
  obtain ⟨k, hk⟩ := hfin nan List.mem_cons_self
  cases hk

end Megakernel.Compare
