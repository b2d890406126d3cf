import Mathlib.Data.List.Basic
import Mathlib.Data.Fintype.Basic
import Megakernel.Numerals

/-!
# Labelled transition systems and their runs

A small library: a transition system is a set of initial states and a labelled
step relation, a *run* is a finite sequence of steps from an initial state. A
run keeps the labels it took as a history, newest first, so that "`a` happened
before `b`" is a statement about lists and no ghost state has to be added to
the system itself.

The rules that the proofs need:

* `Run.inv`: a predicate on (history, state) that holds initially and is kept by
  every step holds after every run;
* `Run.project`: a map to another system that sends every step to a step or to
  a stutter sends runs to runs;
* `Run.length_le_rank`: a rank that every step raises bounds the length of a run.

A system whose steps are computed by a function can also be *replayed*: a list
of labels is a run as soon as `replay` does not get stuck on it.
-/

/-- A labelled transition system over states `σ` and labels `ε`. Both parts are predicates, so that
a system may start in many states and a label may lead to many; a system that is computed by a
function is `ofFun`. -/
structure Lts (σ ε : Type*) where
  /-- the initial states -/
  init : σ → Prop
  /-- `step s e s'`: from `s`, doing `e` leads to `s'` -/
  step : σ → ε → σ → Prop

namespace Lts

variable {σ ε σ' ε' : Type*}

/-- `T.Run τ s`: some run of `T` with history `τ` (newest label first) ends in `s`. The newest label
comes first so that a further step is a `cons`, and the induction over a run is one over its
history. -/
inductive Run (T : Lts σ ε) : List ε → σ → Prop where
  /-- the empty run, at an initial state -/
  | start {s : σ} : T.init s → Run T [] s
  /-- one more step -/
  | snoc {τ : List ε} {s s' : σ} {e : ε} : Run T τ s → T.step s e s' → Run T (e :: τ) s'

variable {T : Lts σ ε}

/-- **Invariant rule.** A predicate of history and state that every step keeps holds after every
run. The step case may use that the pre-state is reached by a run, and so whatever has been proved
of all runs before. -/
theorem Run.inv {I : List ε → σ → Prop} (h₀ : ∀ s, T.init s → I [] s)
    (hstep : ∀ τ s e s', T.Run τ s → I τ s → T.step s e s' → I (e :: τ) s') :
    ∀ {τ : List ε} {s : σ}, T.Run τ s → I τ s := by
  intro τ s h
  induction h with
  | start hs => exact h₀ _ hs
  | snoc hr hs ih => exact hstep _ _ _ _ hr ih hs

/-- The last step of a nonempty run. -/
theorem Run.of_cons {τ : List ε} {e : ε} {s' : σ} (h : T.Run (e :: τ) s') :
    ∃ s, T.Run τ s ∧ T.step s e s' := by
  cases h with
  | snoc hr hs => exact ⟨_, hr, hs⟩

/-- A run passes through a state for every earlier point of its history: what happened up to there
is a run of its own. -/
theorem Run.of_append {τ₁ τ₂ : List ε} {s' : σ} (h : T.Run (τ₁ ++ τ₂) s') :
    ∃ s, T.Run τ₂ s := by
  induction τ₁ generalizing s' with
  | nil => exact ⟨s', h⟩
  | cons e τ ih =>
    obtain ⟨s, hr, -⟩ := h.of_cons
    exact ih hr

/-- A system with fewer initial states and steps has fewer runs. -/
theorem Run.mono {T' : Lts σ ε} (h₀ : ∀ s, T.init s → T'.init s)
    (hstep : ∀ s e s', T.step s e s' → T'.step s e s') {τ : List ε} {s : σ} (h : T.Run τ s) :
    T'.Run τ s := by
  induction h with
  | start hs => exact .start (h₀ _ hs)
  | snoc _ hs ih => exact .snoc ih (hstep _ _ _ hs)

/-- **Projection rule** (stuttering simulation). If `f` maps initial states to
initial states and every step of `T` labelled `e` to a step labelled `a` when
`g e = some a`, and to no change when `g e = none`, then runs project to runs.
The step case may use the projected run up to the pre-state. -/
theorem Run.project {A : Lts σ' ε'} (f : σ → σ') (g : ε → Option ε')
    (h₀ : ∀ s, T.init s → A.init (f s))
    (hstep : ∀ τ s e s', T.Run τ s → A.Run (τ.filterMap g) (f s) → T.step s e s' →
      match g e with
      | some a => A.step (f s) a (f s')
      | none => f s' = f s) :
    ∀ {τ : List ε} {s : σ}, T.Run τ s → A.Run (τ.filterMap g) (f s) := by
  intro τ s h
  induction h with
  | start hs => exact .start (h₀ _ hs)
  | @snoc τ s s' e hr hs ih =>
    have key := hstep _ _ _ _ hr ih hs
    rcases hg : g e with _ | a
    · rw [hg] at key
      rw [List.filterMap_cons_none hg, key]
      exact ih
    · rw [hg] at key
      rw [List.filterMap_cons_some hg]
      exact .snoc ih key

/-- **Rank rule.** A rank that every step raises bounds the length of a run: no run is longer than
what the rank has gained since its start. -/
theorem Run.length_le_rank {rank : σ → ℕ}
    (hstep : ∀ τ s e s', T.Run τ s → T.step s e s' → rank s < rank s') {τ : List ε} {s : σ}
    (h : T.Run τ s) : τ.length ≤ rank s := by
  induction h with
  | start => exact Nat.zero_le _
  | snoc hr hs ih => exact ih.trans_lt (hstep _ _ _ _ hr hs)

/-- No step leads on. In a system whose steps include everybody's, this is termination or deadlock,
and which of them it is has to be read off the state. -/
def Stuck (T : Lts σ ε) (s : σ) : Prop := ∀ e s', ¬T.step s e s'

/-- If the runs are of bounded length, every run leads to a state from which no step leads on. -/
theorem Run.exists_stuck {N : ℕ} (hbound : ∀ τ s, T.Run τ s → τ.length ≤ N) {τ : List ε} {s : σ}
    (h : T.Run τ s) : ∃ τ' s', T.Run τ' s' ∧ T.Stuck s' := by
  induction hn : N - τ.length using Nat.strong_induction_on generalizing τ s with
  | _ n ih =>
    by_cases hs : T.Stuck s
    · exact ⟨τ, s, h, hs⟩
    · simp only [Stuck, not_forall, not_not] at hs
      obtain ⟨e, s', hstep⟩ := hs
      have hlen := hbound _ _ (h.snoc hstep)
      rw [List.length_cons] at hlen
      exact ih _ (by rw [List.length_cons]; omega) (h.snoc hstep) rfl

/-- The steps that meet a condition on the state before them. An assumption about the environment is
stated as such a restriction, and every invariant of the full system holds in it (`Run.mono`). -/
def restrict (T : Lts σ ε) (C : σ → ε → Prop) : Lts σ ε where
  init := T.init
  step s e s' := T.step s e s' ∧ C s e

theorem Run.of_restrict {C : σ → ε → Prop} {τ : List ε} {s : σ} (h : (T.restrict C).Run τ s) :
    T.Run τ s := by
  refine Run.mono ?_ ?_ h
  · exact fun _ => id
  · rintro s e s' ⟨hs, -⟩
    exact hs

/-- The transition system of a step function, from one initial state. -/
def ofFun (s₀ : σ) (f : σ → ε → Option σ) : Lts σ ε where
  init s := s = s₀
  step s e s' := f s e = some s'

/-- If every step leads to one state, so does every history. -/
theorem Run.unique_of (h₀ : ∀ s s', T.init s → T.init s' → s = s')
    (hstep : ∀ s e s₁ s₂, T.step s e s₁ → T.step s e s₂ → s₁ = s₂) {τ : List ε} {s s' : σ}
    (h : T.Run τ s) (h' : T.Run τ s') : s = s' := by
  induction h generalizing s' with
  | start hs =>
    cases h' with
    | start hs' => exact h₀ _ _ hs hs'
  | snoc _ hs ih =>
    obtain ⟨s₁, hr, hs'⟩ := h'.of_cons
    obtain rfl := ih hr
    exact hstep _ _ _ _ hs hs'

/-- A history of a step function leads to one state. -/
theorem Run.unique {s₀ : σ} {f : σ → ε → Option σ} {τ : List ε} {s s' : σ}
    (h : (ofFun s₀ f).Run τ s) (h' : (ofFun s₀ f).Run τ s') : s = s' := by
  refine Run.unique_of (fun s s' hs hs' => ?_) (fun s e s₁ s₂ hs₁ hs₂ => ?_) h h'
  · exact hs.trans hs'.symm
  · exact Option.some.inj (hs₁.symm.trans hs₂)

/-- Run a step function along a history (newest label first). As a computation it decides whether a
concrete list of labels is a history, which is how the example runs are checked. -/
def replay (f : σ → ε → Option σ) (s₀ : σ) : List ε → Option σ
  | [] => some s₀
  | e :: τ => (replay f s₀ τ).bind fun s => f s e

theorem run_of_replay {f : σ → ε → Option σ} {s₀ : σ} :
    ∀ {τ : List ε} {s : σ}, replay f s₀ τ = some s → (ofFun s₀ f).Run τ s
  | [], _, h => .start (Option.some.inj h).symm
  | _ :: _, _, h => by
    obtain ⟨s, hs, he⟩ := Option.bind_eq_some_iff.mp h
    exact .snoc (run_of_replay hs) he

/-- A history that replays to the end is the history of a run. -/
theorem exists_run_of_isSome (f : σ → ε → Option σ) (s₀ : σ) (τ : List ε)
    (h : (replay f s₀ τ).isSome = true) :
    ∃ s, replay f s₀ τ = some s ∧ (ofFun s₀ f).Run τ s := by
  obtain ⟨s, hs⟩ := Option.isSome_iff_exists.mp h
  exact ⟨s, hs, run_of_replay hs⟩

/-- The same for the steps that meet a decidable condition. -/
theorem exists_run_restrict (f : σ → ε → Option σ) (s₀ : σ) (C : σ → ε → Prop)
    [∀ s e, Decidable (C s e)] (τ : List ε)
    (h : (replay (fun s e => if C s e then f s e else none) s₀ τ).isSome = true) :
    ∃ s, ((ofFun s₀ f).restrict C).Run τ s := by
  obtain ⟨s, -, hr⟩ := exists_run_of_isSome _ s₀ τ h
  refine ⟨s, hr.mono ?_ ?_⟩
  · exact fun _ => id
  · intro s e s' hs
    obtain ⟨hC, hf⟩ := Option.ite_none_right_eq_some.mp hs
    exact ⟨hf, hC⟩

end Lts
