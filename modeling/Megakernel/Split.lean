import Megakernel.Progress

/-!
# The split program, as the exchange sees it

The split program is the single-GPU schedule with a push and a reduce behind every
column-split contract projection (`emit_col_reduce`). Of its instructions the
exchange is concerned with four roles: the GEMVs that write the partial of a site
to `proj_out`, the pushes, the reduces, and the rest, which touches neither
`proj_out` nor the mailboxes.

`SplitProgram` collects what the emitter and the block-range assignment guarantee
of the positions of these instructions. The counting lemmas turn that into
inequalities between boundary counts, which is the form the proofs use. That the
compiled programs have these properties is shown where they are emitted
(`Schedule.compiled`).

A role is read off the kind and off one flag, whether the instruction writes `proj_out`. So the
definition applies to any list of instructions, and whether such a list is a split program is a
matter of the fields below, each of which is about positions only.
-/

namespace Megakernel

/-- The payload fields the exchange uses. -/
structure XArgs : Type where
  /-- mailbox site; for a contract projection the site that folds its result -/
  site : ℕ
  /-- the instruction writes `proj_out` -/
  contract : Bool

/-- What an instruction has to do with the exchange. The sites come with the roles, since all that
is said about the exchange is said for one site at a time. -/
inductive Role : Type where
  | work
  /-- a contract GEMV that writes the partial of site `s` -/
  | gemv (s : ℕ)
  /-- OP_XCHG_PUSH -/
  | push (s : ℕ)
  /-- OP_XCHG_REDUCE -/
  | reduce (s : ℕ)
  deriving DecidableEq

/-- The role of an instruction, by its kind and its output. -/
def Instr.role (ins : Instr XArgs) : Role :=
  if ins.kind = MacroKind.xchgPush.code then .push ins.payload.site
  else if ins.kind = MacroKind.xchgReduce.code then .reduce ins.payload.site
  else if ins.isBoundary = false ∧ ins.payload.contract then .gemv ins.payload.site
  else .work

/-- The role of instruction `i`. An index beyond the program has no role in the exchange, so that
the statements about positions need no bounds. -/
def roleAt (prog : List (Instr XArgs)) (i : ℕ) : Role :=
  match prog[i]? with
  | some ins => ins.role
  | none => .work

/-- Push and reduce of a site. -/
def Role.isXchg : Role → Bool
  | .push _ | .reduce _ => true
  | _ => false

/-- The roles that write `proj_out`. -/
def Role.writes : Role → Bool
  | .gemv _ | .reduce _ => true
  | _ => false

/-- A program with its exchange sites, for `n` blocks and vectors of `N` elements. The fields are
what the protocol needs to know about the positions of the instructions, and nothing is said of what
else the program does. -/
structure SplitProgram (n N : ℕ) : Type where
  prog : List (Instr XArgs)
  /-- the block that computes element `e` in the contract GEMV at `i` -/
  rows : ℕ → ℕ → ℕ
  wired : ∀ ins ∈ prog, ins.isBad = false
  /-- a single-instruction window gets the whole grid -/
  grid : ∀ ins ∈ prog, ins.role.isXchg = true → ins.blockLo = 0 ∧ ins.blockHi = n
  /-- behind a push: its boundary, then the reduce of the site -/
  push_next : ∀ k s, roleAt prog k = .push s →
    isCrossing prog (k + 1) = true ∧ roleAt prog (k + 2) = .reduce s
  /-- in front of a reduce: the push of the site -/
  reduce_prev : ∀ r s, roleAt prog r = .reduce s → ∃ k, r = k + 2 ∧ roleAt prog k = .push s
  /-- push and reduce are alone in their windows -/
  alone : ∀ i j, (roleAt prog i).isXchg = true → j < prog.length → isCrossing prog j = false →
    bnd prog j = bnd prog i → j = i
  /-- a site is emitted once -/
  site_once : ∀ k k' s, roleAt prog k = .push s → roleAt prog k' = .push s → k = k'
  /-- every element of the partial is computed by some block -/
  covered : ∀ k s, roleAt prog k = .push s → ∀ e < N, ∃ i, roleAt prog i = .gemv s ∧
    rows i e < n ∧ runs prog (rows i e) i = true
  /-- the contract GEMV of a site stands in a window before the push -/
  gemv_before : ∀ i k s, roleAt prog i = .gemv s → roleAt prog k = .push s → bnd prog i < bnd prog k
  /-- nothing else writes `proj_out` between the contract GEMV and the push -/
  gemv_last : ∀ i k s j, roleAt prog i = .gemv s → roleAt prog k = .push s →
    (roleAt prog j).writes = true → bnd prog i ≤ bnd prog j → bnd prog j ≤ bnd prog k →
    roleAt prog j = .gemv s

namespace SplitProgram

variable {n N : ℕ} (P : SplitProgram n N)

/-- An instruction with a role is one of the program and no boundary. -/
theorem exists_of_role {i : ℕ} (h : roleAt P.prog i ≠ .work) :
    ∃ ins, P.prog[i]? = some ins ∧ ins.isBoundary = false ∧ ins.role = roleAt P.prog i := by
  rw [roleAt] at h ⊢
  rcases hi : P.prog[i]? with _ | ins
  · rw [hi] at h
    exact absurd rfl h
  · rw [hi] at h
    refine ⟨ins, rfl, ?_, rfl⟩
    by_contra hb
    have hk : ins.kind = MacroKind.boundary.code := by
      simpa [Instr.isBoundary] using hb
    have h₁ : ins.kind ≠ MacroKind.xchgPush.code := by rw [hk]; decide
    have h₂ : ins.kind ≠ MacroKind.xchgReduce.code := by rw [hk]; decide
    refine h ?_
    simp only
    rw [Instr.role, if_neg h₁, if_neg h₂, if_neg (fun hc => hb hc.1)]

theorem lt_length {i : ℕ} (h : roleAt P.prog i ≠ .work) : i < P.prog.length := by
  obtain ⟨ins, hi, -⟩ := P.exists_of_role h
  exact (List.getElem?_eq_some_iff.mp hi).1

theorem not_crossing {i : ℕ} (h : roleAt P.prog i ≠ .work) : isCrossing P.prog i = false := by
  obtain ⟨ins, hi, hb, -⟩ := P.exists_of_role h
  rw [isCrossing, hi]
  exact hb

/-- Every block takes part in a push and in a reduce. -/
theorem runs_of_isXchg {i : ℕ} (h : (roleAt P.prog i).isXchg = true) (b : Fin n) :
    runs P.prog b i = true := by
  have hne : roleAt P.prog i ≠ .work := fun hw => by rw [hw] at h; cases h
  obtain ⟨ins, hi, hb, hr⟩ := P.exists_of_role hne
  have hmem := List.mem_of_getElem? hi
  obtain ⟨hlo, hhi⟩ := P.grid ins hmem (hr ▸ h)
  rw [runs, hi]
  simp [hb, P.wired ins hmem, Instr.participates, hlo, hhi]

/-- The reduce of a site stands in the window behind the push. -/
theorem bnd_reduce {k s : ℕ} (h : roleAt P.prog k = .push s) :
    bnd P.prog (k + 2) = bnd P.prog k + 1 := by
  have hne : roleAt P.prog k ≠ .work := by rw [h]; nofun
  obtain ⟨hx, hred⟩ := P.push_next k s h
  have hlen := P.lt_length (i := k + 2) (by rw [hred]; nofun)
  obtain ⟨ins, hi, hb, -⟩ := P.exists_of_role hne
  have h₁ : bnd P.prog (k + 1) = bnd P.prog k := by
    rw [bnd_succ hi, hb]
    rfl
  rw [bnd_succ_of_isCrossing hx (by omega), h₁]

/-- The push that belongs to a reduce: two places in front of it, with their boundary between them.
-/
theorem exists_push {r s : ℕ} (h : roleAt P.prog r = .reduce s) :
    ∃ k, roleAt P.prog k = .push s ∧ bnd P.prog r = bnd P.prog k + 1 ∧ r = k + 2 := by
  obtain ⟨k, rfl, hk⟩ := P.reduce_prev r s h
  exact ⟨k, hk, P.bnd_reduce hk, rfl⟩

/-- A site has one reduce. -/
theorem reduce_once {r r' s : ℕ} (h : roleAt P.prog r = .reduce s)
    (h' : roleAt P.prog r' = .reduce s) : r = r' := by
  obtain ⟨k, hk, -, rfl⟩ := P.exists_push h
  obtain ⟨k', hk', -, rfl⟩ := P.exists_push h'
  rw [P.site_once k k' s hk hk']

/-- **What can have written `proj_out` last**, between a site's contract GEMV and the end of its
reduce: the contract GEMV, or the reduce itself. It is the one place where the order of the emitters
enters the argument about data. -/
theorem writer_between {i k s j : ℕ} (hi : roleAt P.prog i = .gemv s)
    (hk : roleAt P.prog k = .push s) (hj : (roleAt P.prog j).writes = true)
    (h₁ : bnd P.prog i ≤ bnd P.prog j) (h₂ : bnd P.prog j ≤ bnd P.prog k + 1) :
    roleAt P.prog j = .gemv s ∨ j = k + 2 := by
  rcases Nat.lt_or_ge (bnd P.prog k) (bnd P.prog j) with hlt | hle
  · right
    have hne : roleAt P.prog j ≠ .work := fun hw => by rw [hw] at hj; cases hj
    have hred := (P.push_next k s hk).2
    refine P.alone (k + 2) j (by rw [hred]; rfl) (P.lt_length hne) (P.not_crossing hne) ?_
    rw [P.bnd_reduce hk]
    omega
  · exact Or.inl (P.gemv_last i k s j hi hk hj h₁ hle)

end SplitProgram

/-! ## One site -/

/-- A contract GEMV, its push and its reduce, for one block and one element. -/
def oneSiteProg : List (Instr XArgs) :=
  [⟨MacroKind.mmvqQ4_0.code, 0, 1, ⟨0, true⟩⟩, ⟨MacroKind.boundary.code, 0, 0, ⟨0, false⟩⟩,
    ⟨MacroKind.xchgPush.code, 0, 1, ⟨0, false⟩⟩, ⟨MacroKind.boundary.code, 0, 0, ⟨0, false⟩⟩,
    ⟨MacroKind.xchgReduce.code, 0, 1, ⟨0, false⟩⟩]

theorem roleAt_oneSiteProg (i : ℕ) :
    roleAt oneSiteProg i = if i = 0 then .gemv 0 else if i = 2 then .push 0
      else if i = 4 then .reduce 0 else .work := by
  rcases i with _ | _ | _ | _ | _ | i <;> rfl

theorem roleAt_oneSiteProg_cases (i : ℕ) :
    (i = 0 ∧ roleAt oneSiteProg i = .gemv 0) ∨ (i = 2 ∧ roleAt oneSiteProg i = .push 0) ∨
      (i = 4 ∧ roleAt oneSiteProg i = .reduce 0) ∨ roleAt oneSiteProg i = .work := by
  rw [roleAt_oneSiteProg]
  split
  · exact Or.inl ⟨‹_›, rfl⟩
  · split
    · exact Or.inr (Or.inl ⟨‹_›, rfl⟩)
    · split
      · exact Or.inr (Or.inr (Or.inl ⟨‹_›, rfl⟩))
      · exact Or.inr (Or.inr (Or.inr rfl))

/-- The smallest split program, on which the example runs of the exchange are computed. -/
def oneSite : SplitProgram 1 1 where
  prog := oneSiteProg
  rows _ _ := 0
  wired := by decide
  grid := by decide
  push_next k s h := by
    rcases roleAt_oneSiteProg_cases k with ⟨rfl, hr⟩ | ⟨rfl, hr⟩ | ⟨rfl, hr⟩ | hr <;>
      rw [hr] at h <;> cases h
    exact ⟨rfl, rfl⟩
  reduce_prev r s h := by
    rcases roleAt_oneSiteProg_cases r with ⟨rfl, hr⟩ | ⟨rfl, hr⟩ | ⟨rfl, hr⟩ | hr <;>
      rw [hr] at h <;> cases h
    exact ⟨2, rfl, rfl⟩
  alone i j h hj hx hb := by
    have hall : ∀ j < 5, isCrossing oneSiteProg j = false → ∀ i < 5,
        (roleAt oneSiteProg i).isXchg = true → bnd oneSiteProg j = bnd oneSiteProg i → j = i := by
      decide
    refine hall j hj hx i ?_ h hb
    rcases roleAt_oneSiteProg_cases i with ⟨rfl, hr⟩ | ⟨rfl, hr⟩ | ⟨rfl, hr⟩ | hr
    · decide
    · decide
    · decide
    · rw [hr] at h
      cases h
  site_once k k' s h h' := by
    rcases roleAt_oneSiteProg_cases k with ⟨rfl, hr⟩ | ⟨rfl, hr⟩ | ⟨rfl, hr⟩ | hr <;>
      rw [hr] at h <;> cases h
    rcases roleAt_oneSiteProg_cases k' with ⟨rfl, hr⟩ | ⟨rfl, hr⟩ | ⟨rfl, hr⟩ | hr <;>
      rw [hr] at h' <;> cases h'
  covered k s h e he := by
    rcases roleAt_oneSiteProg_cases k with ⟨rfl, hr⟩ | ⟨rfl, hr⟩ | ⟨rfl, hr⟩ | hr <;>
      rw [hr] at h <;> cases h
    exact ⟨0, rfl, Nat.one_pos, rfl⟩
  gemv_before i k s hi hk := by
    rcases roleAt_oneSiteProg_cases i with ⟨rfl, hr⟩ | ⟨rfl, hr⟩ | ⟨rfl, hr⟩ | hr <;>
      rw [hr] at hi <;> cases hi
    rcases roleAt_oneSiteProg_cases k with ⟨rfl, hr⟩ | ⟨rfl, hr⟩ | ⟨rfl, hr⟩ | hr <;>
      rw [hr] at hk <;> cases hk
    decide
  gemv_last i k s j hi hk hj h₁ h₂ := by
    rcases roleAt_oneSiteProg_cases i with ⟨rfl, hr⟩ | ⟨rfl, hr⟩ | ⟨rfl, hr⟩ | hr <;>
      rw [hr] at hi <;> cases hi
    rcases roleAt_oneSiteProg_cases k with ⟨rfl, hr⟩ | ⟨rfl, hr⟩ | ⟨rfl, hr⟩ | hr <;>
      rw [hr] at hk <;> cases hk
    rcases roleAt_oneSiteProg_cases j with ⟨rfl, hr⟩ | ⟨rfl, hr⟩ | ⟨rfl, hr⟩ | hr
    · exact hr
    · rw [hr] at hj
      cases hj
    · exact absurd h₂ (by decide)
    · rw [hr] at hj
      cases hj

end Megakernel
