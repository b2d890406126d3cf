import Megakernel.KvRun

/-!
# The merge of the partial records

OP_FATTN_REDUCE of `k0/ops/attn.cuh` merges the partial records of a head chunk by
chunk. A record whose maximum reads `-inf` is taken to have never been written: it
is counted into `fattn_error` and skipped. This works if the buffer holds `-inf`
before the decode, as the comment at MK_FATTN_SENTINEL says; the harness fills
the buffer with zeros when it allocates it, and nobody writes `-inf` there later.
So the buffer never holds the sentinel (`FattnState.run_unmarked`), no record is
ever counted, and a record that the decode fails to write is merged with what an
earlier layer or pass has left in its place (`lost_detected_iff`).

Which records a decode loses is a label of the run, so that a fault can be placed anywhere. The runs
without a fault are those in which the label is always empty, and in them nothing is said to be
detected.
-/

namespace Megakernel

open F32

variable {F H : Type*} [F32 F]

/-! ## OP_FATTN_REDUCE -/

/-- The state of a thread that merges the records of a head: `max_val`, `rowsum`, `acc`, and what it
has added to the error cell. A thread has one output dimension. -/
structure Merge (F : Type*) : Type _ where
  maxVal : WithBot F
  rowsum : F
  acc : F
  error : ℕ

/-- Before the first chunk. -/
def Merge.init : Merge F := ⟨⊥, 0, 0, 0⟩

/-- The weight of a side: `expf` of the difference to the new maximum, flushed to zero below the
threshold. A side that is flushed is lost for good. -/
def ftzScale (x : WithBot F) (maxNew : F) : F :=
  WithBot.unbotD 0 (x.map fun y => if ftz ≤ y - maxNew then expf (y - maxNew) else 0)

/-- One chunk, for the output dimension `d`. -/
def Merge.record (d : ℕ) (st : Merge F) (rec : Record F) : Merge F :=
  match rec.max with
  | none => { st with error := st.error + if d = 0 then 1 else 0 }
  | some m =>
    let maxNew := fmaxf m st.maxVal
    let scaleVal := ftzScale st.maxVal maxNew
    let scaleAdd := ftzScale (m : WithBot F) maxNew
    { st with
      acc := scaleVal * st.acc + scaleAdd * rec.acc d
      rowsum := scaleVal * st.rowsum + scaleAdd * rec.sum
      maxVal := maxNew }

/-- The merge of the chunks `cs` of head `h`. -/
def mergeChunks (partials : ℕ → ℕ → Record F) (h d : ℕ) (cs : List ℕ) : Merge F :=
  cs.foldl (fun st c => st.record d (partials h c)) Merge.init

/-- `op_fattn_reduce`: the output. -/
def fattnReduce (nChunks : ℕ) (partials : ℕ → ℕ → Record F) (h d : ℕ) : F :=
  (mergeChunks partials h d (List.range nChunks)).acc /
    (mergeChunks partials h d (List.range nChunks)).rowsum

/-- `op_fattn_reduce`: what it adds to the error cell. -/
def fattnReduceErrors (nQ nChunks : ℕ) (partials : ℕ → ℕ → Record F) : ℕ :=
  ((List.range nQ).map fun h => (mergeChunks partials h 0 (List.range nChunks)).error).sum

/-! ## A run of the attention layers -/

/-- The partial buffer, the error cell and the output of the attention. The buffer is one for all
layers, so that a record may be the leftover of another one. -/
structure FattnState (F : Type*) : Type _ where
  partials : ℕ → ℕ → Record F
  error : ℕ
  out : ℕ → ℕ → F

/-- What happens to them: the inputs of a pass clear the error cell, and a layer decodes, possibly
losing records, and reduces. -/
inductive FattnEv (F H : Type*) : Type _ where
  /-- `set_pass_inputs` -/
  | inputs
  /-- OP_FATTN_DECODE and OP_FATTN_REDUCE of a layer, where the decode fails to write some
  records -/
  | attn (a : FattnDecodeArgs F H) (lost : Finset (ℕ × ℕ))

namespace FattnState

/-- As `Runtime::alloc` leaves the buffers: filled with zeros. -/
def zero : FattnState F := ⟨fun _ _ => ⟨fun _ => 0, (0 : F), 0⟩, 0, fun _ _ => 0⟩

variable [F16 H F]

/-- The partial buffer after a decode. -/
def store (nchunks : ℕ) (a : FattnDecodeArgs F H) (lost : Finset (ℕ × ℕ))
    (partials : ℕ → ℕ → Record F) : ℕ → ℕ → Record F := fun h c =>
  let gqa := a.nQ / a.nKvHeads
  if h < a.nKvHeads * gqa ∧ c < nchunks ∧ (h, c) ∉ lost then
    fattnDecode a nchunks c (h / gqa) (h % gqa)
  else partials h c

/-- One step, with `nchunks` blocks in the decode and splits in the reduce. -/
def step (nchunks : ℕ) (st : FattnState F) : FattnEv F H → FattnState F
  | .inputs => { st with error := 0 }
  | .attn a lost =>
    let partials := store nchunks a lost st.partials
    { partials
      error := st.error + fattnReduceErrors a.nQ nchunks partials
      out := fattnReduce nchunks partials }

/-- A run, from the allocation. -/
def run (nchunks : ℕ) (τ : List (FattnEv F H)) : FattnState F := τ.foldl (step nchunks) zero

/-! ### The sentinel is never there -/

/-- No record of the buffer bears the sentinel. It is an invariant of the runs, as the zeros of the
allocation have a finite maximum and so has every record that is stored. -/
def Unmarked (partials : ℕ → ℕ → Record F) : Prop := ∀ h c, (partials h c).max ≠ ⊥

/-- A record that the decode writes has a finite maximum. -/
theorem fattnDecode_max_ne_bot (a : FattnDecodeArgs F H) (nchunks chunk kvh warp : ℕ) :
    (fattnDecode a nchunks chunk kvh warp).max ≠ ⊥ := WithBot.coe_ne_bot

theorem Unmarked.store {partials : ℕ → ℕ → Record F} (h : Unmarked partials) (nchunks : ℕ)
    (a : FattnDecodeArgs F H) (lost : Finset (ℕ × ℕ)) :
    Unmarked (store nchunks a lost partials) := by
  intro i c
  rw [FattnState.store]
  split
  · exact fattnDecode_max_ne_bot a nchunks c _ _
  · exact h i c

/-- Merging records without the sentinel counts nothing. -/
theorem mergeChunks_error {partials : ℕ → ℕ → Record F} (h : Unmarked partials) (i d : ℕ)
    (cs : List ℕ) : (mergeChunks partials i d cs).error = 0 := by
  refine List.foldlRecOn (motive := fun st : Merge F => st.error = 0) cs _ rfl fun st hst c _ => ?_
  rcases hm : (partials i c).max with _ | m
  · exact absurd hm (h i c)
  · rw [Merge.record, hm]
    exact hst

theorem fattnReduceErrors_eq_zero {partials : ℕ → ℕ → Record F} (h : Unmarked partials)
    (nQ nChunks : ℕ) : fattnReduceErrors nQ nChunks partials = 0 := by
  simp [fattnReduceErrors, mergeChunks_error h]

/-- **In no run does a record bear the sentinel**, and no record is ever counted. -/
theorem run_unmarked (nchunks : ℕ) (τ : List (FattnEv F H)) :
    Unmarked (run nchunks τ).partials ∧ (run nchunks τ).error = 0 := by
  refine List.foldlRecOn
    (motive := fun st : FattnState F => Unmarked st.partials ∧ st.error = 0) τ _ ?_ ?_
  · exact ⟨fun _ _ => WithBot.coe_ne_bot, rfl⟩
  · rintro st ⟨hst, herr⟩ e -
    cases e with
    | inputs => exact ⟨hst, rfl⟩
    | attn a lost =>
      have hstore := hst.store nchunks a lost
      refine ⟨hstore, ?_⟩
      rw [step, herr, fattnReduceErrors_eq_zero hstore]

end FattnState

/-! ## Detection -/

/-- `Launcher::run_pass`: what it returns depends on the status of `host_run_pass` only. -/
def launcherRunPass (status : RunStatus) (_fattnError : ℕ) : Bool := decide (status = .ok)

variable [F16 H F]

/-- What the sentinel is for, in one layer of one pass, where the decode fails to write the records
`lost`: they are counted and not merged, and a count makes the harness report the pass as failed. -/
structure Detected (nchunks : ℕ) (st : FattnState F) (a : FattnDecodeArgs F H)
    (lost : Finset (ℕ × ℕ)) : Prop where
  /-- every lost record is counted -/
  counted : st.error + lost.card ≤ (st.step nchunks (.attn a lost)).error
  /-- none is merged into the output -/
  skipped : ∀ h d, (st.step nchunks (.attn a lost)).out h d =
    let cs := (List.range nchunks).filter fun c => (h, c) ∉ lost
    (mergeChunks (st.step nchunks (.attn a lost)).partials h d cs).acc /
      (mergeChunks (st.step nchunks (.attn a lost)).partials h d cs).rowsum
  /-- and a count makes the harness report the pass as failed -/
  reported : (st.step nchunks (.attn a lost)).error ≠ 0 →
    ∀ status, launcherRunPass status (st.step nchunks (.attn a lost)).error = false

/-- **A lost record is never detected**: after every run, the detection is as it should be in a
layer if and only if its decode loses no record. -/
theorem lost_detected_iff (nchunks : ℕ) (τ : List (FattnEv F H)) (a : FattnDecodeArgs F H)
    (lost : Finset (ℕ × ℕ)) : Detected nchunks (FattnState.run nchunks τ) a lost ↔ lost = ∅ := by
  have herr := (FattnState.run_unmarked nchunks τ).2
  have herr' : ((FattnState.run nchunks τ).step nchunks (.attn a lost)).error = 0 := by
    have h := (FattnState.run_unmarked nchunks (τ ++ [.attn a lost])).2
    rwa [FattnState.run, List.foldl_append] at h
  constructor
  · intro h
    have hcount := h.counted
    rw [herr, herr'] at hcount
    exact Finset.card_eq_zero.mp (by omega)
  · rintro rfl
    refine ⟨?_, ?_, fun h => absurd herr' h⟩
    · rw [herr, herr', Finset.card_empty]
    · intro h d
      have hall : ((List.range nchunks).filter fun c => (h, c) ∉ (∅ : Finset (ℕ × ℕ))) =
          List.range nchunks := List.filter_eq_self.mpr (by simp)
      rw [hall]
      rfl

/-- One attention layer of the first pass, over an empty context. -/
def firstLayer : FattnDecodeArgs ℚ ℚ :=
  ⟨fun _ => 0, fun _ _ => 0, fun _ _ => 0, 256,
    fun j => if j = 0 then f16Zero else f16NegInf, 24, 4⟩

/-- **The first record of the first pass can get lost unseen**: nothing is counted, and the zeros of
the allocation are merged in its place. -/
theorem not_lost_detected :
    let st : FattnState ℚ := FattnState.run 72 [(.inputs : FattnEv ℚ ℚ)]
    let st' := st.step 72 (.attn firstLayer {(0, 0)})
    st'.error = 0 ∧ st'.partials 0 0 = (FattnState.zero : FattnState ℚ).partials 0 0 ∧
      ¬ Detected 72 st firstLayer {(0, 0)} := by
  intro st st'
  have herr : st'.error = 0 := (FattnState.run_unmarked 72 [.inputs, .attn firstLayer {(0, 0)}]).2
  refine ⟨herr, rfl, fun h => ?_⟩
  have hcount : st.error + 1 ≤ st'.error := h.counted
  omega

end Megakernel
