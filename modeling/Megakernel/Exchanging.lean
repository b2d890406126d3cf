import Megakernel.TensorPass

/-!
# The windows of a split program

The emitters put a push and a reduce behind every contract GEMV (`emit_col_reduce`). What this
leaves of the windows for the exchange is collected in `Exchanging`: a reduce follows the push of
its site directly, sites are counted up, an exchange is alone in its window, and before each push
stands a GEMV that writes `proj_out` (`Contracted`). Coalescing keeps all of this, since it neither
reorders instructions nor touches a window with an exchange (`exchanging_program`).
-/

namespace Megakernel.Schedule

open Name

variable {W : Type*}

/-! ## What the emitters guarantee -/

/-- Before every push, and behind the push before it, stands a contract GEMV: an instruction that
makes `proj_out` and is no exchange itself. -/
def Contracted (is : List (Ins W)) : Prop :=
  ∀ a p b, is = a ++ p :: b → p.call.kind = .xchgPush →
    ∃ a₁ x a₂, a = a₁ ++ x :: a₂ ∧ x.isXchg = false ∧ buf .projOut ∈ x.outs ∧
      ∀ y ∈ a₂, y.call.kind ≠ .xchgPush

/-- A window has instructions, and no boundary among them. The boundary behind it comes in when the
windows are serialized. -/
def Computes (w : List (Ins W)) : Prop := w ≠ [] ∧ ∀ i ∈ w, i.call.kind ≠ .boundary

/-- What the windows of a split program are, for the exchange. It does not speak of operations or
weights, and of the windows it keeps only which instructions stand together. -/
structure Exchanging (L : List (List (Ins W))) (n : ℕ) : Prop where
  exchanges : Exchanges 0 L.flatten n
  alone : ∀ w ∈ L, XchgAlone w
  computes : ∀ w ∈ L, Computes w
  contracted : Contracted L.flatten

section Emitters

variable {a b is : List (Ins W)} {ws : List (List (Ins W))} {w : List (Ins W)} {site : ℕ}

theorem contracted_of_not (h : ∀ i ∈ is, i.call.kind ≠ .xchgPush) : Contracted is := by
  rintro a p b rfl hp
  exact absurd hp (h p (by simp))

/-- Two parts of which each has its contract GEMVs before its own pushes. -/
theorem Contracted.append (ha : Contracted a) (hb : Contracted b) : Contracted (a ++ b) := by
  intro c p d heq hp
  rcases List.append_eq_append_iff.mp heq with ⟨c', rfl, hcd⟩ | ⟨a', rfl, hcd⟩
  · -- the push is in the second part
    obtain ⟨a₁, x, a₂, rfl, hx⟩ := hb c' p d hcd hp
    exact ⟨a ++ a₁, x, a₂, by simp, hx⟩
  · cases a' with
    | nil =>
      obtain ⟨a₁, x, a₂, hnil, -⟩ := hb [] p d hcd.symm hp
      simp at hnil
    | cons y a' =>
      obtain ⟨rfl, rfl⟩ := List.cons_eq_cons.mp hcd
      exact ha c p a' rfl hp

/-- A mixer or an FFN with a GEMV that writes `proj_out`. -/
theorem IsContract.contracted (h : IsContract site (ws ++ emitColReduce true site)) {x : Ins W}
    (hx : x ∈ ws.flatten) (hproj : buf .projOut ∈ x.outs) :
    Contracted (ws ++ emitColReduce true site).flatten := by
  obtain ⟨ws', heq, hoff⟩ := h
  obtain rfl := List.append_cancel_right heq
  have hpush : ∀ i ∈ ws.flatten, i.call.kind ≠ .xchgPush := fun i hi => (hoff i hi).kind.1
  have hexchange : (ws ++ emitColReduce true site).flatten =
      (ws.flatten ++ [emitXchgPush site]) ++ [emitXchgReduce site] := by
    simp [emitColReduce]
  rw [hexchange]
  refine Contracted.append (fun c p d hcd hp => ?_) (contracted_of_not (by simp [emitXchgReduce]))
  -- the push is the one of the site
  have hc : c = ws.flatten := by
    rcases List.eq_nil_or_concat d with rfl | ⟨d, z, rfl⟩
    · exact (List.append_singleton_inj.mp hcd).1.symm
    · have hws : ws.flatten ++ [emitXchgPush site] = (c ++ p :: d) ++ [z] := by simpa using hcd
      have hmem : p ∈ ws.flatten := by
        rw [(List.append_singleton_inj.mp hws).1]
        simp
      exact absurd hp (hpush p hmem)
  obtain ⟨a₁, a₂, hsplit⟩ := List.append_of_mem hx
  refine ⟨a₁, x, a₂, hc.trans hsplit, ?_, hproj, fun y hy => hpush y (by simp [hsplit, hy])⟩
  simp [Ins.isXchg, (hoff x hx).kind.1, (hoff x hx).kind.2]

theorem contracted_emitFfn (b : FfnLeaves W) (site : ℕ) :
    Contracted (emitFfn true b site).flatten := by
  have h := isContract_emitFfn b site
  rw [emitFfn] at h ⊢
  exact h.contracted (x := emitMmvq true b.down (colCall true .mmvqQ4_0 b.down nFf) .projOut)
    (by simp) (by simp [emitMmvq])

theorem contracted_emitDnMixer (bi : ℕ) (b : DnLeaves W) (site : ℕ) :
    Contracted (emitDnMixer true bi b site).flatten := by
  have h := isContract_emitDnMixer bi b site
  rw [emitDnMixer] at h ⊢
  exact h.contracted (x := emitMmvq true b.out (colCall true .mmvqAr16 b.out 6144) .projOut)
    (by simp) (by simp [emitMmvq])

theorem contracted_emitAttnMixer (bi : ℕ) (b : AttnLeaves W) (site : ℕ) :
    Contracted (emitAttnMixer true bi b site).flatten := by
  have h := isContract_emitAttnMixer bi b site
  rw [emitAttnMixer] at h ⊢
  exact h.contracted (x := emitMmvq true b.o (colCall true .mmvqQ4_0 b.o 6144) .projOut)
    (by simp) (by simp [emitMmvq])

theorem contracted_emitRmsnorm (w : W) (add : Option Buf) (extra : List (String × Arg)) :
    Contracted [[emitRmsnorm w .residual .xn add extra]].flatten := by
  refine contracted_of_not fun i hi => ?_
  rw [List.flatten_singleton, List.mem_singleton] at hi
  cases add <;> simp [hi, emitRmsnorm, rmsnormCall]

theorem contracted_emitTrunk (bi site : ℕ) (pending : Bool) (blocks : List (Block W)) :
    Contracted (emitTrunk true bi site pending blocks).flatten := by
  induction blocks generalizing bi site pending with
  | nil => exact contracted_of_not (by simp [emitTrunk])
  | cons b bs ih =>
    rw [emitTrunk, List.flatten_append]
    refine Contracted.append ?_ (ih _ _ _)
    cases b with
    | attn b =>
      rw [emitBlock, emitAttnBlock, List.flatten_append, List.flatten_append, List.flatten_append]
      exact (((contracted_emitRmsnorm _ _ _).append (contracted_emitAttnMixer bi b site)).append
        (contracted_emitRmsnorm _ _ _)).append (contracted_emitFfn b.ffn _)
    | dn b =>
      rw [emitBlock, emitDnBlock, List.flatten_append, List.flatten_append, List.flatten_append]
      exact (((contracted_emitRmsnorm _ _ _).append (contracted_emitDnMixer bi b site)).append
        (contracted_emitRmsnorm _ _ _)).append (contracted_emitFfn b.ffn _)

theorem contracted_emit (e : EndLeaves W) (blocks : List (Block W)) :
    Contracted (emit true e blocks).flatten := by
  rw [emit, List.flatten_append, List.flatten_append]
  refine Contracted.append (Contracted.append (contracted_of_not ?_)
    (contracted_emitTrunk 0 0 false blocks)) (contracted_of_not ?_)
  · simp [emitPrologue]
  · simp [emitEpilogue, emitFinalNorm, emitRmsnorm, rmsnormCall, headCall, logitsCall]

theorem Computes.append {v w : List (Ins W)} (hv : Computes v) (hw : Computes w) :
    Computes (v ++ w) :=
  ⟨by simp [hv.1], List.forall_mem_append.mpr ⟨hv.2, hw.2⟩⟩

theorem computes_emitBlock (bi site : ℕ) (pending : Bool) (b : Block W) :
    ∀ w ∈ emitBlock true bi site pending b, Computes w := by
  cases b <;> cases pending <;>
  simp [emitBlock, emitAttnBlock, emitDnBlock, emitAttnMixer, emitDnMixer, emitFfn, emitColReduce,
    emitRmsnorm, emitQuant, emitMmvq, emitXchgPush, emitXchgReduce, pendingAdd,
    Computes, rmsnormCall,
    quantCall, rowCall, colCall, fusedCall, ropeCall, appendCall, decodeCall, fattnReduceCall,
    attnGateCall, gemvF16Call, stateLoadCall, gatesCall, convCall, siluCall, l2normCall, stepCall,
    gatedCall, stateStoreCall]

theorem computes_emit (e : EndLeaves W) (blocks : List (Block W)) :
    ∀ w ∈ emit true e blocks, Computes w := by
  have htrunk : ∀ (bi site : ℕ) (pending : Bool), ∀ w ∈ emitTrunk true bi site pending blocks,
      Computes w := by
    induction blocks with
    | nil => simp [emitTrunk]
    | cons b bs ih =>
      intro bi site pending
      rw [emitTrunk, List.forall_mem_append]
      exact ⟨computes_emitBlock bi site pending b, ih _ _ _⟩
  rw [emit, List.forall_mem_append, List.forall_mem_append]
  refine ⟨⟨?_, htrunk 0 0 false⟩, ?_⟩
  · simp [emitPrologue, Computes]
  · simp [emitEpilogue, emitFinalNorm, emitRmsnorm, rmsnormCall, headCall, logitsCall, Computes]

/-- Windows that are put together still have instructions, and no boundary. -/
theorem computes_coalesceIns (h : ∀ w ∈ ws, Computes w) : ∀ w ∈ coalesceIns ws, Computes w := by
  rw [coalesceIns]
  induction ws using List.reverseRecOn with
  | nil => simp
  | append_singleton ws w ih =>
    rw [List.forall_mem_append, List.forall_mem_singleton] at h
    have ih := ih h.1
    rw [List.foldl_append, List.foldl_cons, List.foldl_nil]
    generalize ws.foldl coalesceInsStep [] = ms at ih
    rw [coalesceInsStep]
    rcases List.eq_nil_or_concat ms with rfl | ⟨ms, l, rfl⟩
    · simpa using h.2
    · rw [List.concat_eq_append, List.forall_mem_append, List.forall_mem_singleton] at ih
      rw [List.concat_eq_append, List.getLast?_concat]
      simp only [List.dropLast_concat]
      split
      · rw [List.forall_mem_append, List.forall_mem_singleton]
        exact ⟨ih.1, ih.2.append h.2⟩
      · rw [List.forall_mem_append, List.forall_mem_append, List.forall_mem_singleton,
          List.forall_mem_singleton]
        exact ⟨ih, h.2⟩

/-- **Every emitted program exchanges**, coalesced or not: twice for each block. -/
theorem exchanging_program (merge : Bool) (e : EndLeaves W) (blocks : List (Block W)) :
    Exchanging (program merge e blocks) (2 * blocks.length) := by
  have hsplits : Splits Unit (program merge e blocks) _ := splits_program merge e blocks
  refine ⟨hsplits.exchanges, hsplits.alone, ?_, ?_⟩
  · cases merge with
    | false => exact computes_emit e blocks
    | true => exact computes_coalesceIns (computes_emit e blocks)
  · rw [flatten_program]
    exact contracted_emit e blocks

end Emitters

end Megakernel.Schedule
