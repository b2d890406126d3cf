import Megakernel.Expansion

/-!
# The patch of a pass

`dual_run_pass` overwrites four bytes in every OP_XCHG_REDUCE instruction of the program on
the device, at an offset that is computed from the layouts of the instruction and of its
arguments. A program that is packed and uploaded is after the patch the one that would have
been packed with the sequence number of the pass (`patch_upload`), and no other byte changes
(`patch_apply`).

The offset is the sum of two `offsetof`s, of the payload in the instruction and of `seqno` in the
arguments. Both are computed from the members in front of them (`CStruct.offsetFrom`), so that they
are not assumed.
-/

namespace Megakernel

namespace Packing

open List CStruct

/-! ## The program on the device -/

/-- `sizeof(mk::Instr)` -/
def instrBytes : ℕ := 128

/-- The header of an instruction in memory. -/
def PackedInstr.headerBytes (ins : PackedInstr) : List Byte :=
  encode [leBytes 2 ins.kind, leBytes 2 ins.blockLo, leBytes 2 ins.blockHi, leBytes 2 ins.flags,
    leBytes 4 ins.dbgNode, leBytes 4 (0 : BitVec 32)]

/-- An instruction in memory. -/
def PackedInstr.bytes (ins : PackedInstr) : List Byte := ins.headerBytes ++ ins.payload.1

/-- `offsetof(mk::Instr, payload)`, where the payload has bytes for members. -/
def payloadOff : ℕ := offsetFrom 0 [2, 2, 2, 2, 4, 4, 1] 6

/-- `offsetof(mk::XchgReduceArgs, seqno)` -/
def seqnoArgOff : ℕ := offsetFrom 0 [8, 8, 8, 8, 8, 4, 4, 4] 6

/-- SEQNO_OFF: the offset of `seqno` in an instruction, from the layouts of `Instr` and of the
arguments. -/
def seqnoOff : ℕ := payloadOff + seqnoArgOff

/-- `host_upload` -/
def upload (instrs : List PackedInstr) (mem : ℕ → Byte) : ℕ → Byte :=
  memcpy 0 (instrs.flatMap PackedInstr.bytes) mem

/-- The patch of one GPU: the positions that the packer has recorded. -/
def patch (xchgIdx : List ℕ) (seqno : U32) (mem : ℕ → Byte) : ℕ → Byte :=
  xchgIdx.foldl (fun mem idx => memcpy (idx * instrBytes + seqnoOff) (leBytes 4 seqno) mem) mem

/-- What `dual_run_pass` knows of a GPU: the host-mapped error cell, and the program on the device
with the recorded positions. -/
structure GpuProgram : Type where
  hErr : U32
  xchgIdx : List ℕ
  dProgram : ℕ → Byte

/-- The patches of `dual_run_pass`, which returns at a GPU with an error. The GPUs before it have
been patched then. -/
def patchGpus (seqno : U32) : List GpuProgram → Bool × List GpuProgram
  | [] => (true, [])
  | g :: gs =>
    if g.hErr ≠ 0 then (false, g :: gs)
    else
      let rest := patchGpus seqno gs
      (rest.1, { g with dProgram := patch g.xchgIdx seqno g.dProgram } :: rest.2)

/-! ## Bytes -/

section Bytes

variable {seqno : U32} {ins : PackedInstr}

@[simp] theorem length_headerBytes (ins : PackedInstr) : ins.headerBytes.length = 16 := by
  simp [PackedInstr.headerBytes, encode, encodeFrom, padding]

@[simp] theorem length_bytes (ins : PackedInstr) : ins.bytes.length = instrBytes := by
  rw [PackedInstr.bytes, length_append, length_headerBytes, ins.payload.2]
  rfl

/-- A concatenation of parts of one length. -/
theorem getElem?_flatMap_const {A B : Type} {f : A → List B} {n : ℕ} (hn : 0 < n)
    (hf : ∀ a, (f a).length = n) (l : List A) (p : ℕ) :
    (l.flatMap f)[p]? = l[p / n]?.bind fun a => (f a)[p % n]? := by
  induction l generalizing p with
  | nil => simp
  | cons a l ih =>
    rw [flatMap_cons]
    obtain hlt | hge := lt_or_ge p n
    · rw [getElem?_append_left ((hf a).symm ▸ hlt), Nat.div_eq_of_lt hlt, Nat.mod_eq_of_lt hlt]
      rfl
    · rw [getElem?_append_right ((hf a).symm ▸ hge), hf a, ih, Nat.div_eq_sub_div hn hge,
        Nat.mod_eq_sub_mod hge]
      rfl

/-- A patch of one instruction. -/
theorem memcpy_seqno (idx : ℕ) (mem : ℕ → Byte) (p : ℕ) :
    memcpy (idx * instrBytes + seqnoOff) (leBytes 4 seqno) mem p =
      if p / instrBytes = idx ∧ seqnoOff ≤ p % instrBytes ∧ p % instrBytes < seqnoOff + 4 then
        Words.byte seqno (p % instrBytes - seqnoOff)
      else mem p := by
  have hsize : instrBytes = 128 := rfl
  have hoff : seqnoOff = 60 := by decide
  have hdiv := Nat.div_add_mod p instrBytes
  have hmod := Nat.mod_lt p (by decide : 0 < instrBytes)
  rw [hsize] at hdiv hmod ⊢
  rw [hoff]
  split
  · next hp =>
    obtain ⟨rfl, hlo, hhi⟩ := hp
    have heq : p = p / 128 * 128 + 60 + (p % 128 - 60) := by omega
    have hlen : p % 128 - 60 < (leBytes 4 seqno).length := by
      rw [length_leBytes]
      omega
    have hget := @memcpy_of_mem (p / 128 * 128 + 60) (p % 128 - 60) (leBytes 4 seqno) hlen mem
    rw [← heq] at hget
    simpa [leBytes] using hget
  · next hp =>
    obtain hlt | hge := lt_or_ge p (idx * 128 + 60)
    · exact memcpy_of_lt hlt mem
    · apply memcpy_of_ge
      rw [length_leBytes]
      by_contra hlt
      exact hp ⟨by omega, by omega, by omega⟩

/-- **What the patch does to a byte.** -/
theorem patch_apply (xchgIdx : List ℕ) (mem : ℕ → Byte) (p : ℕ) :
    patch xchgIdx seqno mem p =
      if p / instrBytes ∈ xchgIdx ∧ seqnoOff ≤ p % instrBytes ∧ p % instrBytes < seqnoOff + 4 then
        Words.byte seqno (p % instrBytes - seqnoOff)
      else mem p := by
  induction xchgIdx generalizing mem with
  | nil => simp [patch]
  | cons idx xchgIdx ih =>
    rw [patch, foldl_cons, ← patch, ih, memcpy_seqno]
    by_cases hfield : seqnoOff ≤ p % instrBytes ∧ p % instrBytes < seqnoOff + 4
    · simp only [hfield, and_true, mem_cons]
      by_cases hmem : p / instrBytes ∈ xchgIdx
      · rw [if_pos hmem, if_pos (Or.inr hmem)]
      · simp only [hmem, or_false, if_false]
    · simp only [hfield, and_false, if_false]

/-! ### The field -/

/-- An instruction whose arguments have another `seqno`. -/
def setSeqno (seqno : U32) (ins : PackedInstr) : PackedInstr :=
  { ins with
    payload := ⟨overwrite ins.payload.1 seqnoArgOff (leBytes 4 seqno), by
      rw [length_overwrite, ins.payload.2]
      rw [length_leBytes, ins.payload.2]
      decide⟩ }

/-- What the patch makes of an instruction. -/
def reseq (seqno : U32) (ins : PackedInstr) : PackedInstr :=
  if ins.Is .xchgReduce then setSeqno seqno ins else ins

/-- Zeros behind. -/
theorem takeD_eq {n : ℕ} {l : List Byte} (h : l.length ≤ n) (d : Byte) :
    l.takeD n d = l ++ replicate (n - l.length) d := by
  induction l generalizing n with
  | nil => simp
  | cons b l ih =>
    cases n with
    | zero => simp at h
    | succ n => simp [ih (Nat.le_of_succ_le_succ h)]

/-- **The four bytes are the member `seqno`**: they turn an instruction into the one that the packer
makes with another number. With this a patch of bytes becomes a statement about packed instructions.
-/
theorem setSeqno_withPayload (proto : PackedInstr) (x : XchgReduce) (s : U32) :
    setSeqno seqno (withPayload proto (x.members s)) = withPayload proto (x.members seqno) := by
  have hset : (x.members s).set 6 (leBytes 4 seqno) = x.members seqno := rfl
  have hlens (s : U32) : (x.members s).map length = [8, 8, 8, 8, 8, 4, 4, 4] := by
    simp [XchgReduce.members, xchgReduceArgs, ptr, i32]
  have hlt : 6 < (x.members s).length := Nat.lt_of_sub_eq_succ rfl
  have hmember : (leBytes 4 seqno).length = ((x.members s)[6]).length := by
    simp [XchgReduce.members, xchgReduceArgs]
  have hlen (s : U32) : (encode (x.members s)).length = 52 := by
    simp [encode, encodeFrom, XchgReduce.members, xchgReduceArgs, ptr, i32, padding]
  have henc := encodeFrom_set hlt hmember 0
  rw [hset, hlens] at henc
  have hpayload : overwrite (payloadOf (x.members s)).1 seqnoArgOff (leBytes 4 seqno) =
      (payloadOf (x.members seqno)).1 := by
    change overwrite ((encode (x.members s)).takeD 112 0) seqnoArgOff (leBytes 4 seqno) =
      (encode (x.members seqno)).takeD 112 0
    rw [takeD_eq (by rw [hlen]; decide), takeD_eq (by rw [hlen]; decide), hlen, hlen,
      overwrite_append_left (by rw [length_leBytes, hlen]; decide)]
    exact congrArg (· ++ _) henc.symm
  simp only [setSeqno, withPayload, hpayload]

theorem getElem?_leBytes {n q : ℕ} (h : q < n) :
    (leBytes n seqno)[q]? = some (Words.byte seqno q) := by
  rw [leBytes, getElem?_map, getElem?_range h, Option.map_some]

theorem bytes_setSeqno (ins : PackedInstr) (q : ℕ) :
    (setSeqno seqno ins).bytes[q]? =
      if seqnoOff ≤ q ∧ q < seqnoOff + 4 then some (Words.byte seqno (q - seqnoOff))
      else ins.bytes[q]? := by
  have hpayload : payloadOff = 16 := by decide
  have harg : seqnoArgOff = 44 := by decide
  have hheader : (setSeqno seqno ins).headerBytes = ins.headerBytes := rfl
  rw [PackedInstr.bytes, PackedInstr.bytes, hheader, seqnoOff, hpayload, harg]
  obtain hlt | hge := lt_or_ge q 16
  · have hq : q < ins.headerBytes.length := (length_headerBytes ins).symm ▸ hlt
    rw [getElem?_append_left hq, getElem?_append_left hq, if_neg (by omega)]
  · have hq : ins.headerBytes.length ≤ q := (length_headerBytes ins).symm ▸ hge
    have hfits : seqnoArgOff + (leBytes 4 seqno).length ≤ ins.payload.1.length := by
      rw [length_leBytes, ins.payload.2]
      decide
    rw [getElem?_append_right hq, getElem?_append_right hq, length_headerBytes]
    change (overwrite ins.payload.1 seqnoArgOff (leBytes 4 seqno))[q - 16]? = _
    rw [getElem?_overwrite hfits, harg, length_leBytes]
    by_cases hfield : 16 + 44 ≤ q ∧ q < 16 + 44 + 4
    · rw [if_pos hfield, if_pos (by omega), getElem?_leBytes (by omega), Nat.sub_sub]
    · rw [if_neg hfield, if_neg (by omega)]

theorem upload_apply (instrs : List PackedInstr) (mem : ℕ → Byte) (p : ℕ) :
    upload instrs mem p =
      (instrs[p / instrBytes]?.bind fun ins => ins.bytes[p % instrBytes]?).getD (mem p) := by
  rw [← getElem?_flatMap_const (by decide) length_bytes, upload, memcpy, if_pos (Nat.zero_le p),
    Nat.sub_zero]

@[simp] theorem reseq_is (k : MacroKind) : (reseq seqno ins).Is k ↔ ins.Is k := by
  rw [reseq]
  split
  · rfl
  · rfl

/-- The recorded positions of a program. -/
def Records (instrs : List PackedInstr) (idxs : List ℕ) : Prop :=
  ∀ i, i ∈ idxs ↔ ∃ ins, instrs[i]? = some ins ∧ ins.Is .xchgReduce

variable {instrs : List PackedInstr} {idxs : List ℕ}

theorem Records.map_reseq (h : Records instrs idxs) : Records (instrs.map (reseq seqno)) idxs := by
  intro i
  rw [h i, getElem?_map]
  rcases instrs[i]? with _ | ins
  · simp
  · simp

/-- A patch of the program that has been uploaded. -/
theorem patch_upload (h : Records instrs idxs) (mem : ℕ → Byte) :
    patch idxs seqno (upload instrs mem) = upload (instrs.map (reseq seqno)) mem := by
  funext p
  have hrec := h (p / instrBytes)
  rw [patch_apply, upload_apply, upload_apply, getElem?_map]
  rcases hins : instrs[p / instrBytes]? with _ | ins <;> rw [hins] at hrec
  · have hnot : p / instrBytes ∉ idxs := fun hmem => by simpa using hrec.mp hmem
    rw [if_neg fun hp => hnot hp.1]
    rfl
  · rw [Option.map_some, Option.bind_some, Option.bind_some, reseq]
    by_cases his : ins.Is .xchgReduce
    · have hmem : p / instrBytes ∈ idxs := hrec.mpr ⟨ins, rfl, his⟩
      rw [if_pos his, bytes_setSeqno]
      by_cases hfield : seqnoOff ≤ p % instrBytes ∧ p % instrBytes < seqnoOff + 4
      · rw [if_pos hfield, if_pos ⟨hmem, hfield⟩, Option.getD_some]
      · rw [if_neg hfield, if_neg fun hp => hfield hp.2]
    · have hnot : p / instrBytes ∉ idxs := by
        intro hmem
        obtain ⟨ins', heq, his'⟩ := hrec.mp hmem
        obtain rfl := Option.some.inj heq
        exact his his'
      rw [if_neg his, if_neg fun hp => hnot hp.1]

theorem setSeqno_setSeqno (s : U32) (ins : PackedInstr) :
    setSeqno seqno (setSeqno s ins) = setSeqno seqno ins := by
  have hfits (s : U32) {l : List Byte} (hl : l.length = 112) :
      seqnoArgOff + (leBytes 4 s).length ≤ l.length := by
    rw [length_leBytes, hl]
    decide
  have hpayload : overwrite (overwrite ins.payload.1 seqnoArgOff (leBytes 4 s)) seqnoArgOff
      (leBytes 4 seqno) = overwrite ins.payload.1 seqnoArgOff (leBytes 4 seqno) := by
    apply ext_getElem?
    intro q
    have hs := hfits s ins.payload.2
    rw [getElem?_overwrite ((length_overwrite hs).symm ▸ hfits seqno ins.payload.2),
      getElem?_overwrite (hfits seqno ins.payload.2), getElem?_overwrite hs, length_leBytes,
      length_leBytes]
    split
    · rfl
    · rfl
  simp only [setSeqno, hpayload]

theorem reseq_reseq (s : U32) (ins : PackedInstr) :
    reseq seqno (reseq s ins) = reseq seqno ins := by
  by_cases his : ins.Is .xchgReduce
  · rw [reseq, if_pos ((reseq_is _).mpr his), reseq, reseq, if_pos his, if_pos his,
      setSeqno_setSeqno]
  · have hs : reseq s ins = ins := if_neg his
    rw [hs]

/-- **After any passes** the program on the device is the program packed with the sequence number
of the last of them. -/
theorem patch_run (h : Records instrs idxs) (mem : ℕ → Byte) (seqnos : List U32) :
    (seqnos ++ [seqno]).foldl (fun mem s => patch idxs s mem) (upload instrs mem) =
      upload (instrs.map (reseq seqno)) mem := by
  induction seqnos generalizing instrs with
  | nil => exact patch_upload h mem
  | cons s seqnos ih =>
    rw [cons_append, foldl_cons, patch_upload h, ih h.map_reseq, map_map]
    congr 1
    apply map_congr_left
    intro ins _
    exact reseq_reseq s ins

end Bytes

/-! ## The patches of a pass -/

section Gpus

variable {seqno : U32} {i : ℕ} {g : GpuProgram}

/-- Every GPU is patched, or the pass has come to an error. -/
theorem patchGpus_getElem? {gs : List GpuProgram} (hg : gs[i]? = some g) :
    ∃ g', (patchGpus seqno gs).2[i]? = some g' ∧
      (g' = g ∧ (patchGpus seqno gs).1 = false ∨
        g' = { g with dProgram := patch g.xchgIdx seqno g.dProgram }) := by
  induction gs generalizing i with
  | nil => cases hg
  | cons g₀ gs ih =>
    rw [patchGpus]
    split
    · exact ⟨g, hg, .inl ⟨rfl, rfl⟩⟩
    · cases i with
      | zero =>
        obtain rfl := Option.some.inj hg
        exact ⟨_, rfl, .inr rfl⟩
      | succ i => exact ih hg

end Gpus

/-- A byte of the `seqno` of an OP_XCHG_REDUCE instruction. -/
def SeqnoField (instrs : List PackedInstr) (p : ℕ) : Prop :=
  (∃ ins, instrs[p / instrBytes]? = some ins ∧ ins.Is .xchgReduce) ∧
    seqnoOff ≤ p % instrBytes ∧ p % instrBytes < seqnoOff + 4

/-- A byte outside the fields is kept by the patches of a pass, and those inside are of the
sequence number. -/
theorem patchGpus_apply {seqno : U32} {i : ℕ} {g : GpuProgram} {gs : List GpuProgram}
    {instrs : List PackedInstr} (h : Records instrs g.xchgIdx) (hg : gs[i]? = some g) :
    ∃ g', (patchGpus seqno gs).2[i]? = some g' ∧
      (∀ p, ¬ SeqnoField instrs p → g'.dProgram p = g.dProgram p) ∧
      ((patchGpus seqno gs).1 = true → ∀ p, SeqnoField instrs p →
        g'.dProgram p = Words.byte seqno (p % instrBytes - seqnoOff)) := by
  obtain ⟨g', hg', hcase⟩ := @patchGpus_getElem? seqno _ _ _ hg
  refine ⟨g', hg', ?_⟩
  obtain ⟨rfl, hfalse⟩ | rfl := hcase
  · exact ⟨fun _ _ => rfl, fun htrue => absurd (hfalse.symm.trans htrue) Bool.false_ne_true⟩
  · have hfield (p : ℕ) : SeqnoField instrs p ↔ p / instrBytes ∈ g.xchgIdx ∧
        seqnoOff ≤ p % instrBytes ∧ p % instrBytes < seqnoOff + 4 := by
      rw [SeqnoField, ← h]
    constructor
    · intro p hp
      rw [hfield] at hp
      exact (patch_apply _ _ p).trans (if_neg hp)
    · intro _ p hp
      rw [hfield] at hp
      exact (patch_apply _ _ p).trans (if_pos hp)

/-! ## Accepted programs -/

section Accepted

variable {R : Resolver} {mbox : Option (String → Option Ptr)} {gpuIndex : ℤ}

/-- The array of instructions in program.json. -/
def instructionsOf (pj : Jv Num) : Option (List (Jv Num)) :=
  ((pj.get "instructions").or (pj.get "instrs")).map Jv.items

theorem packLoop_of_packProgram {pj : Jv Num} {out : PackedProgram}
    (h : packProgram R mbox gpuIndex pj = .ok out) :
    ∃ instrs epochStride, instructionsOf pj = some instrs ∧
      packLoop R mbox gpuIndex 0 instrs { epochStride := epochStride } = .ok out := by
  rw [instructionsOf]
  rcases hget : pj.get "instructions" with _ | v
  · obtain ⟨es, v, hv, hloop⟩ : ∃ es v, pj.atKey "instrs" = .ok v ∧
        packLoop R mbox gpuIndex 0 v.items { epochStride := BitVec.ofInt 32 es } = .ok out := by
      simp only [packProgram, hget] at h
      split at h
      · obtain ⟨es, -, h⟩ := except_bind_ok.mp h
        exact ⟨es, except_bind_ok.mp h⟩
      · exact ⟨0, except_bind_ok.mp h⟩
    rcases hinstrs : pj.get "instrs" with _ | v'
    · rw [Jv.atKey, hinstrs] at hv
      cases hv
    · rw [Jv.atKey, hinstrs] at hv
      obtain rfl := Except.ok.inj hv
      exact ⟨_, _, rfl, hloop⟩
  · obtain ⟨es, hloop⟩ : ∃ es : ℤ,
        packLoop R mbox gpuIndex 0 v.items { epochStride := BitVec.ofInt 32 es } = .ok out := by
      simp only [packProgram, hget] at h
      split at h
      · obtain ⟨es, -, h⟩ := except_bind_ok.mp h
        exact ⟨es, h⟩
      · exact ⟨0, h⟩
    exact ⟨_, _, rfl, hloop⟩

/-- A program with the parts that its instructions become one by one. -/
structure IsPacking (R : Resolver) (mbox : Option (String → Option Ptr)) (gpuIndex : ℤ)
    (instrs : List (Jv Num)) (parts : List (List PackedInstr)) (out : PackOut) : Prop where
  each : instrs.mapM (expand R mbox gpuIndex) = .ok parts
  concat : out.instrs = parts.flatten
  expansions : Forall₂ (fun ij part => ∃ k, IsExpansion ij part k) instrs parts
  /-- the boundaries stand where the parts of their sources begin -/
  boundaries : ∀ p, (∃ ins, out.instrs[p]? = some ins ∧ ins.Is .boundary) ↔
    ∃ (i : ℕ) (ij : Jv Num), instrs[i]? = some ij ∧ kindOf ij = some .boundary ∧
      p = ((parts.take i).map length).sum
  xchgIdx : ∀ p, p ∈ out.xchgIdx ↔ ∃ ins, out.instrs[p]? = some ins ∧ ins.Is .xchgReduce

/-- The patches of passes change nothing but the member `seqno` of the instructions to be patched,
and this they set to the number of the pass. -/
structure PatchesSeqno (out : PackOut) : Prop where
  /-- in a pass of any number of GPUs, whatever their programs have come to -/
  pass : ∀ (seqno : U32) (gs : List GpuProgram) (i : ℕ) (g : GpuProgram), gs[i]? = some g →
    g.xchgIdx = out.xchgIdx →
    ∃ g', (patchGpus seqno gs).2[i]? = some g' ∧
      (∀ p, ¬ SeqnoField out.instrs p → g'.dProgram p = g.dProgram p) ∧
      ((patchGpus seqno gs).1 = true → ∀ p, SeqnoField out.instrs p →
        g'.dProgram p = Words.byte seqno (p % instrBytes - seqnoOff))
  /-- the patched instruction is the one that is packed with that `seqno` -/
  member : ∀ ins ∈ out.instrs, ins.Is .xchgReduce → ∃ (proto : PackedInstr) (x : XchgReduce),
    ins = withPayload proto (x.members 0) ∧
      ∀ seqno, reseq seqno ins = withPayload proto (x.members seqno)
  /-- a run of passes on the uploaded program -/
  run : ∀ (mem : ℕ → Byte) (seqnos : List U32) (seqno : U32),
    (seqnos ++ [seqno]).foldl (fun mem s => patch out.xchgIdx s mem) (upload out.instrs mem) =
      upload (out.instrs.map (reseq seqno)) mem

theorem Tracked.patchesSeqno {out : PackOut} (h : Tracked out) : PatchesSeqno out where
  pass seqno gs i g hg hidx := patchGpus_apply (hidx ▸ h.recorded) hg
  member ins hins his := by
    obtain ⟨proto, x, hx⟩ := h.reduce ins hins his
    refine ⟨proto, x, hx, fun seqno => ?_⟩
    rw [reseq, if_pos his, hx, setSeqno_withPayload]
  run mem seqnos _ := patch_run h.recorded mem seqnos

theorem IsExpansion.boundary_iff {ij : Jv Num} {part : List PackedInstr} {k : MacroKind}
    (h : IsExpansion ij part k) :
    (kindOf ij = some .boundary → ∃ ins, part = [ins] ∧ ins.Is .boundary) ∧
      (¬ kindOf ij = some .boundary → ∀ ins ∈ part, ¬ ins.Is .boundary) := by
  obtain ⟨lo, hi, -, -, hheader⟩ := h.header
  constructor
  · intro hk
    obtain rfl : k = .boundary := Option.some.inj (h.kind.symm.trans hk)
    obtain ⟨ins, rfl⟩ := length_eq_one_iff.mp h.length
    exact ⟨ins, rfl, (hheader ins mem_cons_self).1⟩
  · intro hk ins hins his
    have hcode := (hheader ins hins).1.symm.trans his
    exact hk (h.kind.trans (congrArg some (ofNat_code_inj hcode)))

/-- **Packing is an order-preserving expansion.** A program that is accepted is the concatenation
of what its instructions become one by one, with their kinds and blocks; the boundaries stand
where the parts of their sources begin; the recorded positions are those of OP_XCHG_REDUCE; and
the patches of a pass change the `seqno` of these instructions and no other byte. -/
theorem packProgram_expansion (R : Resolver) (mbox : Option (String → Option Ptr)) (gpuIndex : ℤ)
    (pj : Jv Num) (out : PackedProgram) (h : packProgram R mbox gpuIndex pj = .ok out)
    (hcomplete : out.complete = true) :
    ∃ instrs parts, instructionsOf pj = some instrs ∧
      IsPacking R mbox gpuIndex instrs parts out.toPackOut ∧ PatchesSeqno out.toPackOut := by
  obtain ⟨instrs, epochStride, hinstrs, hloop⟩ := packLoop_of_packProgram h
  obtain ⟨parts, hparts, hconcat, hall, htracked⟩ := packLoop_expand hloop rfl hcomplete
  have htracked := htracked tracked_one
  rw [nil_append] at hconcat
  refine ⟨instrs, parts, hinstrs, ⟨hparts, hconcat, hall, ?_, htracked.recorded⟩,
    htracked.patchesSeqno⟩
  intro p
  rw [hconcat]
  apply getElem?_flatten_iff
  exact hall.imp fun ij part ⟨k, hk⟩ => hk.boundary_iff

end Accepted

/-- A boundary and an exchange. -/
def exchangeProgram : Jv Num :=
  .obj [("instructions", .arr [
    .obj [("kind", .str "OP_BOUNDARY"), ("block_lo", .num (.ofRat 0)),
      ("block_hi", .num (.ofRat 72))],
    .obj [("kind", .str "OP_XCHG_REDUCE"), ("block_lo", .num (.ofRat 0)),
      ("block_hi", .num (.ofRat 72)),
      ("args", .obj [("local_partial", .str "buf:x"), ("my_payload", .str "mbox:p"),
        ("out", .str "buf:x"), ("peer_seqno", .str "mbox:s"), ("my_seqno", .str "mbox:t"),
        ("n_elems", .num (.ofRat 5120))])]])]

theorem packProgram_expansion_exchange :
    ∃ out instrs parts,
      packProgram (fun _ => some ⟨0, 128⟩) (some fun _ => some 0) 0 exchangeProgram = .ok out ∧
      instructionsOf exchangeProgram = some instrs ∧
      IsPacking (fun _ => some ⟨0, 128⟩) (some fun _ => some 0) 0 instrs parts out.toPackOut ∧
      PatchesSeqno out.toPackOut := by
  have hpack : ∃ out,
      packProgram (fun _ => some ⟨0, 128⟩) (some fun _ => some 0) 0 exchangeProgram = .ok out ∧
      out.complete = true := by
    simp [packProgram, exchangeProgram, Jv.get, Jv.items, packLoop, Jv.atKey, Jv.text, kindByName,
      kindTable, protoOf, argI, argIDef, asI, packBoundary, packXchgReduce, lift, mboxPtr,
      argStr, devF32, devPtr, cutFirst, Resolver.resolve, cutLast, noteXchg, emit, pushBack,
      Prog.act, bind, Except.bind, pure, Except.pure]
  obtain ⟨out, h, hcomplete⟩ := hpack
  obtain ⟨instrs, parts, hinstrs, hpacking⟩ := packProgram_expansion _ _ 0 _ out h hcomplete
  exact ⟨out, instrs, parts, h, hinstrs, hpacking⟩

/-- One instruction without arguments. -/
def nopProgram (blockHi : ℚ) : Jv Num :=
  .obj [("instructions", .arr [.obj [("kind", .str "NOP"), ("block_lo", .num (.ofRat 0)),
    ("block_hi", .num (.ofRat blockHi))]])]

/-- The end of a block range is kept as 16 bits. -/
theorem packProgram_nopProgram (blockHi : ℚ) :
    ∃ out ins, packProgram (fun _ => none) none (-1) (nopProgram blockHi) = .ok out ∧
      out.complete = true ∧ out.instrs = [ins] ∧
      ins.blockHi = BitVec.ofInt 16 (Num.ofRat blockHi).toI64.toInt := by
  simp [packProgram, nopProgram, Jv.get, Jv.items, packLoop, Jv.atKey, Jv.text, kindByName,
    kindTable, protoOf, argI, argIDef, asI, packNop, pushBack, Prog.act, bind, Except.bind, pure,
    Except.pure]

/-- A range is not always that of the source: an end of 65536 becomes 0. -/
theorem packProgram_blocks_wrap :
    ∃ out ins, packProgram (fun _ => none) none (-1) (nopProgram 65536) = .ok out ∧
      out.complete = true ∧ out.instrs = [ins] ∧ ins.blockHi = 0 := by
  obtain ⟨out, ins, h, hcomplete, hinstrs, hblockHi⟩ := packProgram_nopProgram 65536
  exact ⟨out, ins, h, hcomplete, hinstrs, hblockHi.trans (by decide)⟩

end Packing

end Megakernel
