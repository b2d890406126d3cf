import Megakernel.Exchange
import Megakernel.Trunk
import Megakernel.WeightSlice

/-!
# The mirrored trunk

The split program on two GPUs that take every instruction at the same time. Most of
what they hold differs: their weights are different slices and their activations
different heads. The residual and its norm do not, since the instructions that write
them have mirrored weights only (`weight_axis`) and read nothing but the trunk
itself, and `proj_out` only when it has been folded.

That is a condition on each instruction, given whether `proj_out` is folded
(`Ins.Guarded`). It is a property of the program alone, which every emitted program
has (`carries_emit`), and it keeps the trunk the same on both GPUs (`Mirrored.run`).
That the real GPUs, which do not take their instructions at the same time, hold
nothing else is the subject of `TensorPass`.

The weights are bytes and the operations are arbitrary functions of them (`Kernel`). So the result
is about equality bit for bit, also for operations that round.
-/

namespace Megakernel.Schedule

open Name

/-! ## What a GPU has uploaded -/

section Upload

variable {B : Type*}

/-- `gpu_upload_weights`: the bytes of a weight on GPU `g`; `blk.64.` is left out. -/
def uploadedWeight (f : Gguf.File) (bytes : ℕ → B) (g : Fin 2) (name : Gguf.Bytes) :
    Option (List B) :=
  if (nameOf "blk.64.").isPrefixOf name then none
  else (f.find name).bind fun t => (Gguf.typeTraits t.type).map fun tt =>
    (weightSlice tt t g).map fun off => bytes (t.data + off)

/-- Neither strided nor split: `WA_MIRROR`. -/
def IsMirrored (name : Gguf.Bytes) : Prop := (dnStride name).dim = .none ∧ weightAxis name = .mirror

/-- A mirrored weight is the same on both GPUs. -/
theorem uploadedWeight_mirrored {f : Gguf.File} {bytes : ℕ → B} {name : Gguf.Bytes}
    (h : IsMirrored name) : uploadedWeight f bytes 0 name = uploadedWeight f bytes 1 name := by
  rw [uploadedWeight, uploadedWeight]
  refine if_congr Iff.rfl rfl (Option.bind_congr fun t ht => ?_)
  have hname : t.name = name := by
    have := List.find?_some ht
    simpa using this
  have hslice : ∀ tt, weightSlice tt t (0 : Fin 2) = weightSlice tt t (1 : Fin 2) := by
    intro tt
    simp only [weightSlice, weightSliceBy, hname, h.1, h.2]
  simp only [hslice]

theorem nameEnds_append_self (l : Gguf.Bytes) (s : String) : nameEnds (l ++ nameOf s) s = true :=
  List.isSuffixOf_iff_suffix.mpr (List.suffix_append _ _)

/-- A name with one ending has no other, unless one of the endings ends in the other. -/
theorem nameEnds_append (l : Gguf.Bytes) {s suf : String}
    (h₁ : (nameOf suf).isSuffixOf (nameOf s) = false)
    (h₂ : (nameOf s).isSuffixOf (nameOf suf) = false) : nameEnds (l ++ nameOf s) suf = false := by
  rw [nameEnds, Bool.eq_false_iff]
  intro hsuf
  have hsuf := List.isSuffixOf_iff_suffix.mp hsuf
  rcases List.suffix_or_suffix_of_suffix hsuf (List.suffix_append l (nameOf s)) with h | h
  · exact Bool.eq_false_iff.mp h₁ (List.isSuffixOf_iff_suffix.mpr h)
  · exact Bool.eq_false_iff.mp h₂ (List.isSuffixOf_iff_suffix.mpr h)

theorem isMirrored_attnNorm (l : Gguf.Bytes) : IsMirrored (l ++ nameOf ".attn_norm.weight") := by
  constructor
  · simp (disch := decide) only [dnStride, nameEnds_append]
    rfl
  · simp [weightAxis, nameEnds_append_self]

theorem isMirrored_postNorm (l : Gguf.Bytes) :
    IsMirrored (l ++ nameOf ".post_attention_norm.weight") := by
  constructor
  · simp (disch := decide) only [dnStride, nameEnds_append]
    rfl
  · simp [weightAxis, nameEnds_append_self]

theorem isMirrored_tokEmbd : IsMirrored (nameOf "token_embd.weight") := ⟨by decide, by decide⟩

theorem isMirrored_outputNorm : IsMirrored (nameOf "output_norm.weight") := ⟨by decide, by decide⟩

end Upload

/-! ## The operations on a GPU -/

/-- What an instruction computes: a function of what the host has set for the pass, of its call with
the bytes of its weights in place of their names, of the output that is meant, and of its inputs. It
does not know which GPU it runs on. -/
abbrev Kernel (B P F : Type*) : Type _ :=
  P → Call (Option (List B)) → ℕ → List (ℕ → F) → ℕ → F

variable {W B P F : Type*} [Add F] [Zero F]

/-- The operations on GPU `g` in a pass, given the payload that its inbox has for each site. GPUs
differ in their weights and in the order of the fold, and in nothing else. -/
def semOn (K : Kernel B P F) (up : Fin 2 → W → Option (List B)) (g : Fin 2) (p : P)
    (inbox : ℕ → ℕ → F) : Sem W (ℕ → F) where
  call c o vs := K p ⟨c.kind, c.weights.map (up g), c.args⟩ o vs
  add
    | [src, addSrc] => fun e => src e + addSrc e
    | _ => 0
  fold site
    | [mine] => fun e => foldOrder g (mine e) (inbox site e)
    | _ => 0

/-- The call holds a column-split GEMV. -/
def Ins.contracts (i : Ins W) : Bool := i.call.args.lookup "split_axis" == some (.text "col")

/-- `proj_out` holds a folded sum after the instruction. -/
def Ins.folds (folded : Bool) (i : Ins W) : Bool :=
  i.call.kind == .xchgReduce || folded && decide (buf .projOut ∉ i.outs)

/-- **What an instruction of the split program may do with the trunk**, given whether `proj_out` is
folded: to write a part of the trunk it must have mirrored weights and read nothing but the trunk,
and `proj_out` only as a folded sum. -/
structure Ins.Guarded (mirrored : W → Prop) (folded : Bool) (i : Ins W) : Prop where
  /-- who writes the trunk has mirrored weights and reads what is the same on both GPUs -/
  weights : buf .residual ∈ i.outs ∨ buf .xn ∈ i.outs → ∀ w ∈ i.call.weights, mirrored w
  ins : buf .residual ∈ i.outs ∨ buf .xn ∈ i.outs → ∀ n ∈ i.ins,
    n = buf .residual ∨ n = buf .xn ∨ n = cell .token ∨ n = buf .projOut ∧ folded = true
  token : cell .token ∉ i.outs
  /-- `proj_out` is written by the contract GEMVs and folded in place -/
  projOut : buf .projOut ∈ i.outs → i.contracts = true ∨ i.call.kind = .xchgReduce
  reduce : i.call.kind = .xchgReduce → i.ins = [buf .projOut] ∧ i.outs = [buf .projOut]

/-- Every instruction is guarded by what comes before it. -/
def Guards (mirrored : W → Prop) : Bool → List (Ins W) → Prop
  | _, [] => True
  | folded, i :: is => i.Guarded mirrored folded ∧ Guards mirrored (i.folds folded) is

/-- Whether `proj_out` is folded after some instructions. -/
def foldsAll (folded : Bool) (is : List (Ins W)) : Bool := is.foldl Ins.folds folded

/-- Guarded instructions that take `proj_out` from folded or not to folded or not. -/
structure Carries (mirrored : W → Prop) (folded : Bool) (is : List (Ins W)) (folded' : Bool) :
    Prop where
  guards : Guards mirrored folded is
  folds : foldsAll folded is = folded'

/-! ## Both GPUs at once -/

/-- What is the same on both GPUs: the residual, its norm and the token; `proj_out` is so only as
long as it holds a folded sum. -/
def InTrunk (folded : Bool) (n : Name) : Prop :=
  n = buf .residual ∨ n = buf .xn ∨ n = cell .token ∨ n = buf .projOut ∧ folded = true

/-- **The trunk is mirrored.** -/
def Mirrored (folded : Bool) (m : Fin 2 → Name → ℕ → F) : Prop :=
  ∀ n, InTrunk folded n → m 0 n = m 1 n

section Both

variable (K : Kernel B P F) (up : Fin 2 → W → Option (List B)) (p : P)

/-- Both GPUs execute an instruction at the same time: what a GPU finds in its inbox is then what
the other one holds. -/
def both (i : Ins W) (m : Fin 2 → Name → ℕ → F) : Fin 2 → Name → ℕ → F := fun g =>
  i.exec (semOn K up g p fun _ => m g.rev (buf .projOut)) (m g)

/-- Both GPUs execute instructions one after the other. -/
def runBoth (is : List (Ins W)) (m : Fin 2 → Name → ℕ → F) : Fin 2 → Name → ℕ → F :=
  is.foldl (fun m i => both K up p i m) m

end Both

section Step

variable {K : Kernel B P F} {up : Fin 2 → W → Option (List B)} {p : P} {mirrored : W → Prop}
  {i : Ins W} {folded : Bool} {m : Fin 2 → Name → ℕ → F}

omit [Add F] [Zero F] in
/-- Equal results are stored equally. -/
theorem Ins.exec_congr {V : Type*} {sem sem' : Sem W V} {m m' : Name → V} {n : Name}
    (hvalues : i.values sem (i.ins.map m) = i.values sem' (i.ins.map m')) (hn : m n = m' n) :
    i.exec sem m n = i.exec sem' m' n := by
  rw [Ins.exec, Ins.exec, hvalues]
  induction i.outs.zip (i.values sem' (i.ins.map m')) with
  | nil => exact hn
  | cons q l ih =>
    rw [List.foldr_cons, List.foldr_cons]
    by_cases hq : n = q.1
    · rw [hq, Function.update_self, Function.update_self]
    · rw [Function.update_of_ne hq, Function.update_of_ne hq, ih]

/-- Only the fold looks at the inbox. -/
theorem values_inbox (h : i.call.kind ≠ .xchgReduce) (g : Fin 2) (inbox inbox' : ℕ → ℕ → F)
    (vs : List (ℕ → F)) :
    i.values (semOn K up g p inbox) vs = i.values (semOn K up g p inbox') vs := by
  unfold Ins.values
  split
  · rfl
  · rename_i hk
    exact absurd hk h
  · rfl

/-- With mirrored weights both GPUs compute the same. -/
theorem values_mirrored (h : i.call.kind ≠ .xchgReduce)
    (hup : ∀ w ∈ i.call.weights, up 0 w = up 1 w) (inbox inbox' : ℕ → ℕ → F) (vs : List (ℕ → F)) :
    i.values (semOn K up 0 p inbox) vs = i.values (semOn K up 1 p inbox') vs := by
  have hweights : i.call.weights.map (up 0) = i.call.weights.map (up 1) := List.map_congr_left hup
  unfold Ins.values
  split
  · simp only [semOn, hweights]
  · rename_i hk
    exact absurd hk h
  · simp only [semOn, hweights]

/-- A folded sum is the same on both GPUs, since the GPU index decides the order. -/
theorem both_reduce (hins : i.ins = [buf .projOut]) (houts : i.outs = [buf .projOut])
    (hk : i.call.kind = .xchgReduce) (g : Fin 2) :
    both K up p i m g (buf .projOut) =
      fun e => m 0 (buf .projOut) e + m 1 (buf .projOut) e := by
  have hvalue : both K up p i m g (buf .projOut) =
      fun e => foldOrder g (m g (buf .projOut) e) (m g.rev (buf .projOut) e) := by
    simp [both, Ins.exec, Ins.values, hins, houts, hk, semOn]
  rw [hvalue]
  rcases g with ⟨_ | _ | _, hg⟩
  · rfl
  · rfl
  · omega

/-- **A guarded instruction keeps the trunk mirrored.** The only instruction for which this is not
just equal inputs under equal weights is the fold, of which the GPU index decides the order. -/
theorem Mirrored.both (h : Mirrored folded m) (hi : i.Guarded mirrored folded)
    (hup : ∀ w, mirrored w → up 0 w = up 1 w) : Mirrored (i.folds folded) (both K up p i m) := by
  intro n hn
  have hframe : n ∉ i.outs → InTrunk folded n → Schedule.both K up p i m 0 n =
    Schedule.both K up p i m 1 n := by
    intro hout htrunk
    rw [Schedule.both, Schedule.both, Ins.exec_of_notMem hout, Ins.exec_of_notMem hout]
    exact h n htrunk
  by_cases hk : i.call.kind = .xchgReduce
  · obtain ⟨hins, houts⟩ := hi.reduce hk
    by_cases hproj : n = buf .projOut
    · rw [hproj, both_reduce hins houts hk, both_reduce hins houts hk]
    · have hout : n ∉ i.outs := by rwa [houts, List.mem_singleton]
      refine hframe hout ?_
      obtain hn | hn | hn | ⟨hn, -⟩ := hn
      · exact Or.inl hn
      · exact Or.inr (Or.inl hn)
      · exact Or.inr (Or.inr (Or.inl hn))
      · exact absurd hn hproj
  · have hfolds : i.folds folded = true → folded = true ∧ buf .projOut ∉ i.outs := by
      intro hf
      simpa [Ins.folds, hk] using hf
    have htrunk : InTrunk folded n := by
      obtain hn | hn | hn | ⟨hn, hf⟩ := hn
      · exact Or.inl hn
      · exact Or.inr (Or.inl hn)
      · exact Or.inr (Or.inr (Or.inl hn))
      · exact Or.inr (Or.inr (Or.inr ⟨hn, (hfolds hf).1⟩))
    by_cases hout : n ∈ i.outs
    · -- the instruction writes the trunk, so it reads nothing else
      have hwrites : buf .residual ∈ i.outs ∨ buf .xn ∈ i.outs := by
        obtain rfl | rfl | rfl | ⟨rfl, hf⟩ := hn
        · exact Or.inl hout
        · exact Or.inr hout
        · exact absurd hout hi.token
        · exact absurd hout (hfolds hf).2
      have hins : i.ins.map (m 0) = i.ins.map (m 1) :=
        List.map_congr_left fun n hn => h n (hi.ins hwrites n hn)
      refine Ins.exec_congr ?_ (h n htrunk)
      rw [hins]
      exact values_mirrored hk (fun w hw => hup w (hi.weights hwrites w hw)) _ _ _
    · exact hframe hout htrunk

theorem guards_append {a b : List (Ins W)} :
    Guards mirrored folded (a ++ b) ↔
      Guards mirrored folded a ∧ Guards mirrored (foldsAll folded a) b := by
  induction a generalizing folded with
  | nil => simp [Guards, foldsAll]
  | cons i a ih =>
    rw [List.cons_append, Guards, Guards, ih, and_assoc]
    rfl

/-- **A guarded program keeps the trunk mirrored.** -/
theorem Mirrored.run {is : List (Ins W)} (h : Mirrored folded m) (his : Guards mirrored folded is)
    (hup : ∀ w, mirrored w → up 0 w = up 1 w) :
    Mirrored (foldsAll folded is) (runBoth K up p is m) := by
  induction is generalizing folded m with
  | nil => exact h
  | cons i is ih => exact ih (h.both his.1 hup) his.2

end Step

/-! ## The emitted program -/

/-- The weight of the first norm of a block. -/
def Block.attnNorm : Block W → W
  | .attn b => b.attnNorm
  | .dn b => b.attnNorm

/-- The weight of the second norm of a block. -/
def Block.postNorm : Block W → W
  | .attn b => b.postNorm
  | .dn b => b.postNorm

/-- The weights of the trunk are mirrored. -/
structure TrunkMirrored (mirrored : W → Prop) (e : EndLeaves W) (blocks : List (Block W)) :
    Prop where
  tokEmbd : mirrored e.tokEmbd
  outputNorm : mirrored e.outputNorm
  attnNorm : ∀ b ∈ blocks, mirrored b.attnNorm
  postNorm : ∀ b ∈ blocks, mirrored b.postNorm

/-- The names that the weights of the trunk have in the graph. -/
structure TrunkNamed (e : EndLeaves Gguf.Bytes) (blocks : List (Block Gguf.Bytes)) : Prop where
  tokEmbd : e.tokEmbd = nameOf "token_embd.weight"
  outputNorm : e.outputNorm = nameOf "output_norm.weight"
  attnNorm : ∀ b ∈ blocks, ∃ l, b.attnNorm = l ++ nameOf ".attn_norm.weight"
  postNorm : ∀ b ∈ blocks, ∃ l, b.postNorm = l ++ nameOf ".post_attention_norm.weight"

/-- `weight_axis` mirrors what has these names, and no stride takes hold of it. -/
theorem TrunkNamed.mirrored {e : EndLeaves Gguf.Bytes} {blocks : List (Block Gguf.Bytes)}
    (h : TrunkNamed e blocks) : TrunkMirrored IsMirrored e blocks where
  tokEmbd := h.tokEmbd ▸ isMirrored_tokEmbd
  outputNorm := h.outputNorm ▸ isMirrored_outputNorm
  attnNorm b hb := by
    obtain ⟨l, hl⟩ := h.attnNorm b hb
    exact hl ▸ isMirrored_attnNorm l
  postNorm b hb := by
    obtain ⟨l, hl⟩ := h.postNorm b hb
    exact hl ▸ isMirrored_postNorm l

section Emitted

variable {mirrored : W → Prop} {folded : Bool}

theorem Carries.append {f₀ f₁ f₂ : Bool} {a b : List (Ins W)} (ha : Carries mirrored f₀ a f₁)
    (hb : Carries mirrored f₁ b f₂) : Carries mirrored f₀ (a ++ b) f₂ where
  guards := by
    rw [guards_append, ha.folds]
    exact ⟨ha.guards, hb.guards⟩
  folds := by
    have hmid := ha.folds
    rw [foldsAll] at hmid
    rw [foldsAll, List.foldl_append, hmid]
    exact hb.folds

/-- A norm is guarded if what it adds is folded. -/
theorem carries_emitRmsnorm {w : W} (hw : mirrored w) {pending : Bool}
    (hpending : pending = true → folded = true) (extra : List (String × Arg)) :
    Carries mirrored folded [emitRmsnorm w .residual .xn (pendingAdd pending) extra] folded := by
  cases pending with
  | false =>
    refine ⟨⟨?_, trivial⟩, ?_⟩
    · constructor <;> simp [emitRmsnorm, pendingAdd, rmsnormCall, hw]
    · simp [foldsAll, Ins.folds, emitRmsnorm, pendingAdd, rmsnormCall]
  | true =>
    obtain rfl := hpending rfl
    refine ⟨⟨?_, trivial⟩, ?_⟩
    · constructor <;> simp [emitRmsnorm, pendingAdd, rmsnormCall, hw]
    · simp [foldsAll, Ins.folds, emitRmsnorm, pendingAdd, rmsnormCall]

/-- The instruction writes nothing of the trunk, and `proj_out` only as a contract GEMV. -/
structure Ins.OffTrunk (i : Ins W) : Prop where
  outs : buf .residual ∉ i.outs ∧ buf .xn ∉ i.outs ∧ cell .token ∉ i.outs
  projOut : buf .projOut ∈ i.outs → i.contracts = true
  kind : i.call.kind ≠ .xchgPush ∧ i.call.kind ≠ .xchgReduce

theorem Ins.OffTrunk.guarded {i : Ins W} (h : i.OffTrunk) : i.Guarded mirrored folded where
  weights hw := absurd hw (not_or.mpr ⟨h.outs.1, h.outs.2.1⟩)
  ins hw := absurd hw (not_or.mpr ⟨h.outs.1, h.outs.2.1⟩)
  token := h.outs.2.2
  projOut hp := Or.inl (h.projOut hp)
  reduce hk := absurd hk h.kind.2

theorem guards_of_offTrunk {is : List (Ins W)} (h : ∀ i ∈ is, i.OffTrunk) :
    Guards mirrored folded is := by
  induction is generalizing folded with
  | nil => trivial
  | cons i is ih =>
    rw [List.forall_mem_cons] at h
    exact ⟨h.1.guarded, ih h.2⟩

/-- **A mixer or an FFN**: off the trunk up to its contract GEMV, and then the exchange of a site.
Everything between two norms has this form. -/
def IsContract (site : ℕ) (ws : List (List (Ins W))) : Prop :=
  ∃ ws', ws = ws' ++ emitColReduce true site ∧ ∀ i ∈ ws'.flatten, i.OffTrunk

theorem isContract_emitFfn (b : FfnLeaves W) (site : ℕ) :
    IsContract site (emitFfn true b site) := by
  refine ⟨_, rfl, fun i hi => ?_⟩
  simp only [List.flatten_cons, List.flatten_nil, List.append_nil, List.singleton_append,
    List.mem_cons, List.not_mem_nil, or_false] at hi
  obtain rfl | rfl | rfl | rfl := hi <;> constructor <;>
  simp [emitQuant, emitMmvq, quantCall, fusedCall, colCall, Ins.contracts, List.lookup_cons]

theorem isContract_emitDnMixer (bi : ℕ) (b : DnLeaves W) (site : ℕ) :
    IsContract site (emitDnMixer true bi b site) := by
  refine ⟨_, rfl, fun i hi => ?_⟩
  simp only [List.flatten_cons, List.flatten_nil, List.append_nil, List.cons_append,
    List.nil_append, List.mem_cons, List.not_mem_nil, or_false] at hi
  obtain rfl | rfl | rfl | rfl | rfl | rfl | rfl | rfl | rfl | rfl | rfl | rfl | rfl | rfl | rfl :=
    hi <;> constructor <;>
  simp [emitQuant, emitMmvq, quantCall, rowCall, colCall, gemvF16Call, stateLoadCall, gatesCall,
    convCall, siluCall, l2normCall, stepCall, gatedCall, stateStoreCall, Ins.contracts,
    List.lookup_cons]

theorem isContract_emitAttnMixer (bi : ℕ) (b : AttnLeaves W) (site : ℕ) :
    IsContract site (emitAttnMixer true bi b site) := by
  refine ⟨_, rfl, fun i hi => ?_⟩
  simp only [List.flatten_cons, List.flatten_nil, List.append_nil, List.cons_append,
    List.nil_append, List.mem_cons, List.not_mem_nil, or_false] at hi
  obtain rfl | rfl | rfl | rfl | rfl | rfl | rfl | rfl | rfl | rfl | rfl := hi <;> constructor <;>
  simp [emitQuant, emitMmvq, quantCall, rowCall, colCall, ropeCall, appendCall, decodeCall,
    fattnReduceCall, attnGateCall, Ins.contracts, List.lookup_cons]

/-- A mixer or an FFN leaves `proj_out` folded. -/
theorem IsContract.carries {site : ℕ} {ws : List (List (Ins W))} (h : IsContract site ws) :
    Carries mirrored folded ws.flatten true := by
  obtain ⟨ws', rfl, hoff⟩ := h
  rw [List.flatten_append]
  refine Carries.append ⟨guards_of_offTrunk hoff, rfl⟩ ⟨⟨?_, ?_, trivial⟩, ?_⟩
  · constructor <;> simp [emitXchgPush]
  · constructor <;> simp [emitXchgReduce]
  · simp [emitColReduce, foldsAll, Ins.folds, emitXchgReduce]

/-- A block needs `proj_out` folded for its first norm and leaves it folded. -/
theorem carries_emitBlock (bi site : ℕ) (pending : Bool) {b : Block W}
    (hattn : mirrored b.attnNorm) (hpost : mirrored b.postNorm) :
    Carries mirrored true (emitBlock true bi site pending b).flatten true := by
  have hfirst : Carries mirrored true
      [emitRmsnorm b.attnNorm .residual .xn (pendingAdd pending) []] true :=
    carries_emitRmsnorm hattn (fun _ => rfl) []
  have hsecond : Carries mirrored true
      [emitRmsnorm b.postNorm .residual .xn (pendingAdd true) []] true :=
    carries_emitRmsnorm hpost id []
  cases b with
  | attn b =>
    rw [emitBlock, emitAttnBlock, List.flatten_append, List.flatten_append, List.flatten_append]
    exact ((hfirst.append (isContract_emitAttnMixer bi b site).carries).append hsecond).append
      (isContract_emitFfn b.ffn _).carries
  | dn b =>
    rw [emitBlock, emitDnBlock, List.flatten_append, List.flatten_append, List.flatten_append]
    exact ((hfirst.append (isContract_emitDnMixer bi b site).carries).append hsecond).append
      (isContract_emitFfn b.ffn _).carries

theorem carries_emitTrunk (bi site : ℕ) (pending : Bool) {blocks : List (Block W)}
    (hattn : ∀ b ∈ blocks, mirrored b.attnNorm) (hpost : ∀ b ∈ blocks, mirrored b.postNorm) :
    Carries mirrored true (emitTrunk true bi site pending blocks).flatten true := by
  induction blocks generalizing bi site pending with
  | nil => exact ⟨trivial, rfl⟩
  | cons b bs ih =>
    rw [List.forall_mem_cons] at hattn hpost
    rw [emitTrunk, List.flatten_append]
    exact (carries_emitBlock bi site pending hattn.1 hpost.1).append (ih _ _ _ hattn.2 hpost.2)

/-- **Every emitted program is guarded**, and leaves `proj_out` folded for the next pass. Nothing
about the operations enters, so that this is a fact about the emitters. -/
theorem carries_emit {e : EndLeaves W} {blocks : List (Block W)}
    (h : TrunkMirrored mirrored e blocks) :
    Carries mirrored true (emit true e blocks).flatten true := by
  have hprologue : Carries mirrored true (emitPrologue e).flatten true := by
    refine ⟨⟨?_, trivial⟩, ?_⟩
    · constructor <;> simp [h.tokEmbd]
    · simp [emitPrologue, foldsAll, Ins.folds]
  have hnorm : Carries mirrored true [emitRmsnorm e.outputNorm .residual .xn (pendingAdd true)
      [("row_select", .text "sym:$out_row")]] true := carries_emitRmsnorm h.outputNorm id _
  have hepilogue : Carries mirrored true ((emitEpilogue true e).drop 1).flatten true := by
    refine ⟨⟨Ins.OffTrunk.guarded ?_, Ins.OffTrunk.guarded ?_, trivial⟩, ?_⟩
    · constructor <;> simp [headCall]
    · constructor <;> simp [logitsCall]
    · simp [emitEpilogue, foldsAll, Ins.folds, headCall, logitsCall]
  rw [emit, List.flatten_append, List.flatten_append]
  exact (hprologue.append (carries_emitTrunk 0 0 false h.attnNorm h.postNorm)).append
    (hnorm.append hepilogue)

/-- From a reduce to the next contract GEMV `proj_out` is folded. -/
theorem folds_of_reduce {a b : List (Ins W)} {i : Ins W} (h : Guards mirrored folded (a ++ i :: b))
    (hi : i.call.kind = .xchgReduce) (hb : ∀ j ∈ b, j.contracts = false) :
    foldsAll folded (a ++ i :: b) = true := by
  have hrest : ∀ b : List (Ins W), Guards mirrored true b → (∀ j ∈ b, j.contracts = false) →
      foldsAll true b = true := by
    intro b hg hb
    induction b with
    | nil => rfl
    | cons j b ih =>
      rw [List.forall_mem_cons] at hb
      have hfolds : j.folds true = true := by
        by_cases hk : j.call.kind = .xchgReduce
        · simp [Ins.folds, hk]
        · have hout : buf .projOut ∉ j.outs := by
            intro hout
            rcases hg.1.projOut hout with hc | hc
            · exact absurd hc (Bool.eq_false_iff.mp hb.1)
            · exact hk hc
          simp [Ins.folds, hout]
      have hg := hg.2
      rw [hfolds] at hg
      rw [foldsAll, List.foldl_cons, hfolds]
      exact ih hg hb.2
  have hfolds : i.folds (foldsAll folded a) = true := by simp [Ins.folds, hi]
  have hg := (guards_append.mp h).2.2
  rw [hfolds] at hg
  have hmid : List.foldl Ins.folds folded a = foldsAll folded a := rfl
  rw [foldsAll, List.foldl_append, List.foldl_cons, hmid, hfolds]
  exact hrest b hg hb

end Emitted

end Megakernel.Schedule
