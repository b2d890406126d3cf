import Megakernel.TensorPass

/-!
# The split program against the plain one

Two GPUs execute the split program and add up their partials where they exchange them; one
GPU executes the plain program, whose meaning is the network (`Ref`). What the operations must do
for the pair to compute the network is said once, for each kind of part: both GPUs have the same
norms, the partials of a mixer or an FFN add up to its output, and the caches of the pair stay in a
given relation to those of the network (`Sharding`). The rest is the same for all operations: the
pair then follows the network through a block, the trunk, a pass, and any number of passes
(`Sharding.passes`).

A set of operations enters by the fields of `Sharding` and in no other way. Its use with exact
arithmetic is `PairNetwork`, where each field is one lemma about a kind of block.
-/

namespace Megakernel.Schedule

open Name

variable {W B P F : Type*} [AddZeroClass F]

/-! ## A GPU of the pair on its own -/

section Half

variable (K : Kernel B P F) (up : Fin 2 → W → Option (List B)) (p : P)

/-- The operations of GPU `g` with nothing in its inbox: a fold leaves the partial as it is. So the
store in front of an exchange can be computed for each GPU alone. -/
def half (g : Fin 2) : Sem W (ℕ → F) := semOn K up g p 0

variable {K up p} {m : Fin 2 → Name → ℕ → F} {site : ℕ}

/-- Without a reduce the GPUs have nothing to do with each other. -/
theorem runBoth_of_not_reduce {is : List (Ins W)} (h : ∀ i ∈ is, i.call.kind ≠ .xchgReduce)
    (g : Fin 2) :
    runBoth K up p is m g = is.foldl (fun m i => i.exec (half K up p g) m) (m g) := by
  induction is generalizing m with
  | nil => rfl
  | cons i is ih =>
    rw [List.forall_mem_cons] at h
    have hstep : both K up p i m g = i.exec (half K up p g) (m g) :=
      Tensor.exec_inbox (fun hk => absurd hk h.1) (m g)
    rw [List.foldl_cons, ← hstep]
    exact ih h.2

theorem runBoth_append (a b : List (Ins W)) :
    runBoth K up p (a ++ b) m = runBoth K up p b (runBoth K up p a m) := List.foldl_append ..

theorem half_fold (g : Fin 2) (x : ℕ → F) : (half K up p g).fold site [x] = x := by
  have hzero : (half K up p g).fold site [x] = fun e => foldOrder g (x e) 0 := rfl
  rw [hzero]
  funext e
  rw [foldOrder]
  split
  · exact add_zero _
  · exact zero_add _

/-- On its own a GPU keeps its partial in the exchange. -/
theorem run_emitColReduce (g : Fin 2) (m : Name → ℕ → F) :
    run (half K up p g) (emitColReduce true site) m = m := by
  have hreduce : run (half K up p g) (emitColReduce true site) m =
      Function.update m (buf .projOut) ((half K up p g).fold site [m (buf .projOut)]) := by
    simp [run, emitColReduce, emitXchgPush, emitXchgReduce, Ins.exec, Ins.values, Call.nat,
      List.lookup_cons]
  rw [hreduce, half_fold, Function.update_eq_self]

/-- In the exchange both GPUs get the sum of the partials. -/
theorem runBoth_emitColReduce (g : Fin 2) :
    runBoth K up p (emitColReduce true site).flatten m g =
      Function.update (m g) (buf .projOut) fun e =>
        m 0 (buf .projOut) e + m 1 (buf .projOut) e := by
  have hpush : both K up p (emitXchgPush site) m = m := by
    funext g n
    exact Ins.exec_of_notMem List.not_mem_nil
  have hboth : runBoth K up p (emitColReduce true site).flatten m =
      both K up p (emitXchgReduce site) (both K up p (emitXchgPush site) m) := rfl
  rw [hboth, hpush]
  funext n
  by_cases hn : n = buf .projOut
  · rw [hn, Function.update_self]
    exact both_reduce rfl rfl rfl g
  · rw [Function.update_of_ne hn]
    exact Ins.exec_of_notMem (mt List.mem_singleton.mp hn)

/-- **A mixer or an FFN on the pair**: each GPU does its part on its own, and `proj_out` is the sum
of what they have. -/
theorem runBoth_contract {ws : List (List (Ins W))} (h : IsContract site ws) (g : Fin 2) :
    runBoth K up p ws.flatten m g =
      Function.update (run (half K up p g) ws (m g)) (buf .projOut) fun e =>
        run (half K up p 0) ws (m 0) (buf .projOut) e +
          run (half K up p 1) ws (m 1) (buf .projOut) e := by
  obtain ⟨ws', rfl, hoff⟩ := h
  have hmixer : runBoth K up p ws'.flatten m = fun g => run (half K up p g) ws' (m g) := by
    funext g
    exact runBoth_of_not_reduce (fun i hi => (hoff i hi).kind.2) g
  simp only [run_append, run_emitColReduce]
  rw [List.flatten_append, runBoth_append, hmixer, runBoth_emitColReduce]

end Half

/-! ## What the pair follows -/

section Follows

/-- The sum that is left to the next norm. -/
def plus (a b : ℕ → F) : ℕ → F := fun e => a e + b e

variable (R : Cache → Fin 2 → (ℕ → F) → (ℕ → F) → Prop) (mask nKv : ℕ → F)

/-- **The pair is where the network is**: what is pending is the same on both GPUs, and each cache
is related to that of the network. It is the invariant of the pair, block by block. -/
structure Follows (pending : Bool) (m : Fin 2 → Name → ℕ → F) (r : Ref (ℕ → F)) : Prop where
  trunk : ∀ g, (if pending then plus (m g (buf .residual)) (m g (buf .projOut))
    else m g (buf .residual)) = r.x
  cache : ∀ c g, R c g (m g (cache c)) (r.cache c)
  mask : ∀ g, m g (cell .maskF16) = mask
  nKv : ∀ g, m g (cell .nKv) = nKv

/-- What a mixer or an FFN starts from. -/
structure Entered (xn : ℕ → F) (m : Fin 2 → Name → ℕ → F) (r : Ref (ℕ → F)) : Prop where
  residual : ∀ g, m g (buf .residual) = r.x
  xn : ∀ g, m g (buf .xn) = xn
  cache : ∀ c g, R c g (m g (cache c)) (r.cache c)
  mask : ∀ g, m g (cell .maskF16) = mask
  nKv : ∀ g, m g (cell .nKv) = nKv

/-- What the two GPUs have made on their own of a mixer or an FFN. -/
structure Parts (out : ℕ → F) (caches : Cache → ℕ → F) (m m' : Fin 2 → Name → ℕ → F) : Prop where
  residual : ∀ g, m' g (buf .residual) = m g (buf .residual)
  cell : ∀ g c, m' g (cell c) = m g (cell c)
  out : plus (m' 0 (buf .projOut)) (m' 1 (buf .projOut)) = out
  cache : ∀ c g, R c g (m' g (cache c)) (caches c)

variable {R mask nKv} {K : Kernel B P F} {up : Fin 2 → W → Option (List B)} {p : P}
  {pending : Bool} {m : Fin 2 → Name → ℕ → F} {r : Ref (ℕ → F)} {xn out : ℕ → F}
  {caches : Cache → ℕ → F} {site : ℕ}

/-- The norm in front of a part. -/
theorem Follows.enter (h : Follows R mask nKv pending m r) {w : W} {extra : List (String × Arg)}
    (hnorm : ∀ g, (half K up p g).call (rmsnormCall w extra) 0 [r.x] = xn) :
    Entered R mask nKv xn
      (runBoth K up p [emitRmsnorm w .residual .xn (pendingAdd pending) extra] m) r := by
  have hrun (g : Fin 2) : Normed (half K up p g) (rmsnormCall w extra) r.x (m g)
      (runBoth K up p [emitRmsnorm w .residual .xn (pendingAdd pending) extra] m g) := by
    have hkind : (emitRmsnorm w .residual .xn (pendingAdd pending) extra).call.kind ≠
        .xchgReduce := by
      cases pending <;> simp [emitRmsnorm, pendingAdd, rmsnormCall]
    have hn : Normed (half K up p g) (rmsnormCall w extra) (trunkOf (half K up p g) pending (m g))
        (m g) (run (half K up p g) [[emitRmsnorm w .residual .xn (pendingAdd pending) extra]]
          (m g)) :=
      normed_emitRmsnorm w pending extra
    rw [runBoth_of_not_reduce (List.forall_mem_singleton.mpr hkind), ← h.trunk g]
    exact hn
  refine ⟨fun g => (hrun g).residual, fun g => (hrun g).xn.trans (hnorm g), fun c g => ?_,
    fun g => ?_, fun g => ?_⟩
  · rw [(hrun g).rest _ (by simp) (by simp)]
    exact h.cache c g
  · rw [(hrun g).rest _ (by simp) (by simp), h.mask]
  · rw [(hrun g).rest _ (by simp) (by simp), h.nKv]

/-- A part leaves its output pending. -/
theorem Entered.contract (h : Entered R mask nKv xn m r) {ws : List (List (Ins W))}
    (hws : IsContract site ws)
    (hparts : Parts R out caches m fun g => run (half K up p g) ws (m g)) :
    Follows R mask nKv true (runBoth K up p ws.flatten m) ⟨plus r.x out, caches⟩ := by
  have hrest (g : Fin 2) {n : Name} (hn : n ≠ buf .projOut) :
      runBoth K up p ws.flatten m g n = run (half K up p g) ws (m g) n := by
    rw [runBoth_contract hws, Function.update_of_ne hn]
  refine ⟨fun g => ?_, fun c g => ?_, fun g => ?_, fun g => ?_⟩
  · have hout : runBoth K up p ws.flatten m g (buf .projOut) = out := by
      rw [runBoth_contract hws, Function.update_self]
      exact hparts.out
    rw [if_pos rfl, hout, hrest g (by simp), hparts.residual g, h.residual]
  · rw [hrest g (by simp)]
    exact hparts.cache c g
  · rw [hrest g (by simp), hparts.cell g, h.mask]
  · rw [hrest g (by simp), hparts.cell g, h.nKv]

end Follows

/-! ## What the operations must do -/

/-- The feed-forward part of a block. -/
def Block.ffn : Block W → FfnLeaves W
  | .attn b => b.ffn
  | .dn b => b.ffn

/-- The mixers of the two GPUs against that of the network. -/
structure MixedSplit (R : Cache → Fin 2 → (ℕ → F) → (ℕ → F) → Prop) (c₁ c₂ : Cache)
    (mixed : Fin 2 → Mixed (ℕ → F)) (whole : Mixed (ℕ → F)) : Prop where
  out : plus (mixed 0).out (mixed 1).out = whole.out
  first : ∀ g, R c₁ g (mixed g).first whole.first
  second : ∀ g, R c₂ g (mixed g).second whole.second

/-- **The operations `G` of two GPUs split the operations `S` of one**, on the blocks of a network.
The caches of the pair are related by `R` to those of the network, and its logits by `Q`. What has
to be shown of a concrete set of operations is just this. -/
structure Sharding (G : Fin 2 → Sem W (ℕ → F)) (S : Sem W (ℕ → F))
    (R : Cache → Fin 2 → (ℕ → F) → (ℕ → F) → Prop) (Q : (Fin 2 → ℕ → F) → (ℕ → F) → Prop)
    (e : EndLeaves W) (blocks : List (Block W)) : Prop where
  add : ∀ a b, S.add [a, b] = plus a b
  embed : ∀ g tok, (G g).call ⟨.embedLookup, [e.tokEmbd], [("n_embd", .nat nEmbd)]⟩ 0 [tok] =
    S.call ⟨.embedLookup, [e.tokEmbd], [("n_embd", .nat nEmbd)]⟩ 0 [tok]
  attnNorm : ∀ b ∈ blocks, ∀ g x, norm (G g) b.attnNorm x = norm S b.attnNorm x
  postNorm : ∀ b ∈ blocks, ∀ g x, norm (G g) b.postNorm x = norm S b.postNorm x
  outputNorm : ∀ extra g x, (G g).call (rmsnormCall e.outputNorm extra) 0 [x] =
    S.call (rmsnormCall e.outputNorm extra) 0 [x]
  attn : ∀ b, Block.attn b ∈ blocks → ∀ bi site site' mask nKv x, ∀ k v : Fin 2 → ℕ → F, ∀ k' v',
    (∀ g, R (.k bi) g (k g) k') → (∀ g, R (.v bi) g (v g) v') →
      MixedSplit R (.k bi) (.v bi) (fun g => attnMixer (G g) true mask nKv site b x (k g) (v g))
        (attnMixer S false mask nKv site' b x k' v')
  dn : ∀ b, Block.dn b ∈ blocks → ∀ bi site site' x, ∀ conv ssm : Fin 2 → ℕ → F, ∀ conv' ssm',
    (∀ g, R (.r bi) g (conv g) conv') → (∀ g, R (.s bi) g (ssm g) ssm') →
      MixedSplit R (.r bi) (.s bi) (fun g => dnMixer (G g) true site b x (conv g) (ssm g))
        (dnMixer S false site' b x conv' ssm')
  ffn : ∀ b ∈ blocks, ∀ site site' x,
    plus (Schedule.ffn (G 0) true site b.ffn x) (Schedule.ffn (G 1) true site b.ffn x) =
      Schedule.ffn S false site' b.ffn x
  head : ∀ x, Q (fun g => (G g).call (headCall true e) 0 [x]) (S.call (headCall false e) 0 [x])

/-! ## A pass -/

section Pass

variable {K : Kernel B P F} {up : Fin 2 → W → Option (List B)} {p : P} {S : Sem W (ℕ → F)}
  {R : Cache → Fin 2 → (ℕ → F) → (ℕ → F) → Prop} {Q : (Fin 2 → ℕ → F) → (ℕ → F) → Prop}
  {e : EndLeaves W} {blocks : List (Block W)} {mask nKv : ℕ → F} {pending : Bool}
  {m : Fin 2 → Name → ℕ → F} {r : Ref (ℕ → F)}

/-- What the mixers of the two GPUs leave in their stores. -/
theorem parts_mixer {mixed : Fin 2 → Mixed (ℕ → F)} {whole : Mixed (ℕ → F)} {c₁ c₂ : Cache}
    {m' : Fin 2 → Name → ℕ → F} {caches : Cache → ℕ → F} (hne : c₁ ≠ c₂)
    (hsplit : MixedSplit R c₁ c₂ mixed whole)
    (hkeep : ∀ g, Untouched (fun c => c = c₁ ∨ c = c₂) (m g) (m' g))
    (hmixed : ∀ g, m' g (buf .projOut) = (mixed g).out ∧ m' g (cache c₁) = (mixed g).first ∧
      m' g (cache c₂) = (mixed g).second) (hcaches : ∀ c g, R c g (m g (cache c)) (caches c)) :
    Parts R whole.out (Function.update (Function.update caches c₁ whole.first) c₂ whole.second)
      m m' where
  residual g := (hkeep g).residual
  cell g := (hkeep g).cell
  out := by
    rw [(hmixed 0).1, (hmixed 1).1]
    exact hsplit.out
  cache c g := by
    by_cases h₂ : c = c₂
    · rw [h₂, Function.update_self, (hmixed g).2.2]
      exact hsplit.second g
    by_cases h₁ : c = c₁
    · rw [h₁, Function.update_of_ne hne, Function.update_self, (hmixed g).2.1]
      exact hsplit.first g
    · rw [Function.update_of_ne h₂, Function.update_of_ne h₁,
        (hkeep g).cache c (not_or.mpr ⟨h₁, h₂⟩)]
      exact hcaches c g

/-- The second half of a block. -/
theorem Follows.addFfn (hS : Sharding (half K up p) S R Q e blocks) {b : Block W} (hb : b ∈ blocks)
    {x out : ℕ → F} {caches : Cache → ℕ → F}
    (h : Follows R mask nKv true m ⟨plus x out, caches⟩) (site site' : ℕ) :
    Follows R mask nKv true
      (runBoth K up p ([[emitRmsnorm b.postNorm .residual .xn (some .projOut) []]] ++
        emitFfn true b.ffn site).flatten m)
      ⟨Schedule.addFfn S false site' b.postNorm b.ffn x out, caches⟩ := by
  have hentered := h.enter (hS.postNorm b hb · _)
  have hparts := hS.ffn b hb site site' (norm S b.postNorm (plus x out))
  rw [List.flatten_append, runBoth_append, Schedule.addFfn, hS.add, hS.add]
  refine hentered.contract (isContract_emitFfn b.ffn site) ⟨fun g => ?_, fun g => ?_, ?_, ?_⟩
  · exact (untouched_emitFfn b.ffn site).residual
  · exact (untouched_emitFfn b.ffn site).cell
  · rw [run_emitFfn, run_emitFfn, hentered.xn, hentered.xn]
    exact hparts
  · intro c g
    rw [(untouched_emitFfn b.ffn site).cache c id]
    exact hentered.cache c g

/-- **A block takes the pair where it takes the network.** -/
theorem Follows.block (hS : Sharding (half K up p) S R Q e blocks) {b : Block W} (hb : b ∈ blocks)
    (h : Follows R mask nKv pending m r) (bi site site' : ℕ) :
    Follows R mask nKv true (runBoth K up p (emitBlock true bi site pending b).flatten m)
      (refBlock S false mask nKv bi site' r b) := by
  have hentered := h.enter (hS.attnNorm b hb · _)
  cases b with
  | attn b =>
    simp only [Block.attnNorm] at hentered
    rw [emitBlock, emitAttnBlock, List.append_assoc, List.append_assoc, List.flatten_append,
      List.flatten_append, runBoth_append, runBoth_append]
    refine Follows.addFfn hS hb (hentered.contract (isContract_emitAttnMixer bi b site)
      (parts_mixer (by simp) (hS.attn b hb bi site site' mask nKv _ _ _ _ _ (hentered.cache _)
        (hentered.cache _)) (fun g => untouched_emitAttnMixer bi b site) (fun g => ?_)
        hentered.cache)) _ _
    have hmixer := run_emitAttnMixer (half K up p g) true
      (m := runBoth K up p [emitRmsnorm b.attnNorm .residual .xn (pendingAdd pending) []] m g)
      bi b site
    rwa [hentered.mask g, hentered.nKv g, hentered.xn g] at hmixer
  | dn b =>
    simp only [Block.attnNorm] at hentered
    rw [emitBlock, emitDnBlock, List.append_assoc, List.append_assoc, List.flatten_append,
      List.flatten_append, runBoth_append, runBoth_append]
    refine Follows.addFfn hS hb (hentered.contract (isContract_emitDnMixer bi b site)
      (parts_mixer (by simp) (hS.dn b hb bi site site' _ _ _ _ _ (hentered.cache _)
        (hentered.cache _)) (fun g => untouched_emitDnMixer bi b site) (fun g => ?_)
        hentered.cache)) _ _
    have hmixer := run_emitDnMixer (half K up p g) true
      (m := runBoth K up p [emitRmsnorm b.attnNorm .residual .xn (pendingAdd pending) []] m g)
      bi b site
    rwa [hentered.xn g] at hmixer

/-- **The trunk takes the pair where it takes the network.** -/
theorem Follows.trunk_run (hS : Sharding (half K up p) S R Q e blocks) {bs : List (Block W)}
    (hbs : bs ⊆ blocks) (h : Follows R mask nKv pending m r) (bi site site' : ℕ) :
    Follows R mask nKv (pending || !bs.isEmpty)
      (runBoth K up p (emitTrunk true bi site pending bs).flatten m)
      (refTrunk S false mask nKv bi site' r bs) := by
  induction bs generalizing m bi site site' pending r with
  | nil => simpa [emitTrunk, refTrunk, runBoth] using h
  | cons b bs ih =>
    rw [List.cons_subset] at hbs
    rw [emitTrunk, List.flatten_append, runBoth_append, refTrunk]
    simpa using ih hbs.2 (h.block hS hbs.1 bi site site') (bi + 1) (site + 2 * sites true)
      (site' + 2 * sites false)

/-- The prologue: both GPUs look up the same embedding. -/
theorem follows_prologue (hS : Sharding (half K up p) S R Q e blocks) {m₁ : Name → ℕ → F}
    (hcache : ∀ c g, R c g (m g (cache c)) (m₁ (cache c)))
    (hcell : ∀ c ∈ [Cell.token, .maskF16, .nKv], ∀ g, m g (cell c) = m₁ (cell c)) :
    Follows R (m₁ (cell .maskF16)) (m₁ (cell .nKv)) false
      (runBoth K up p (emitPrologue e).flatten m) (refStart S e m₁) := by
  have htracks (g : Fin 2) := tracks_prologue (half K up p g) (m := m g) e
  have hrun (g : Fin 2) : runBoth K up p (emitPrologue e).flatten m g =
      run (half K up p g) (emitPrologue e) (m g) :=
    runBoth_of_not_reduce (by simp [emitPrologue]) g
  refine ⟨fun g => ?_, fun c g => ?_, fun g => ?_, fun g => ?_⟩ <;> rw [hrun]
  · have hstart := hS.embed g (m g (cell .token))
    rw [hcell .token (by simp)] at hstart
    refine (htracks g).trunk.trans ?_
    rw [refStart, hcell .token (by simp)]
    exact hstart
  · rw [(htracks g).caches]
    exact hcache c g
  · rw [(htracks g).mask, hcell .maskF16 (by simp)]
  · rw [(htracks g).nKv, hcell .nKv (by simp)]

omit [AddZeroClass F] in
/-- The residual that the final norm leaves. -/
theorem residual_emitEpilogue {sem : Sem W (ℕ → F)} {split : Bool} {m : Name → ℕ → F} :
    run sem (emitEpilogue split e) m (buf .residual) = trunkOf sem true m := by
  simp [run, emitEpilogue, emitFinalNorm, emitRmsnorm, Ins.exec, Ins.values, rmsnormCall, headCall,
    logitsCall, trunkOf, List.range_succ]

/-- **What a pass leaves on the pair**, against what it leaves on one GPU: related caches and
logits, and the same residual. -/
structure PassSplit (R : Cache → Fin 2 → (ℕ → F) → (ℕ → F) → Prop)
    (Q : (Fin 2 → ℕ → F) → (ℕ → F) → Prop) (m : Fin 2 → Name → ℕ → F) (m₁ : Name → ℕ → F) :
    Prop where
  cache : ∀ c g, R c g (m g (cache c)) (m₁ (cache c))
  logits : Q (fun g => m g (buf .logits)) (m₁ (buf .logits))
  residual : ∀ g, m g (buf .residual) = m₁ (buf .residual)

/-- **The split program computes what the plain one computes.** -/
theorem Sharding.pass (hS : Sharding (half K up p) S R Q e blocks) (hne : blocks ≠ [])
    {m₁ : Name → ℕ → F} (hcache : ∀ c g, R c g (m g (cache c)) (m₁ (cache c)))
    (hcell : ∀ c ∈ [Cell.token, .maskF16, .nKv], ∀ g, m g (cell c) = m₁ (cell c)) :
    PassSplit R Q (runBoth K up p (emit true e blocks).flatten m)
      (run S (emit false e blocks) m₁) := by
  have hfollows := (follows_prologue hS hcache hcell).trunk_run hS (List.Subset.refl blocks) 0 0 0
  rw [Bool.false_or, List.isEmpty_eq_false_iff.mpr hne, ← runBoth_append,
    ← List.flatten_append] at hfollows
  have htracks := tracks_blocks S false (m := m₁) e hne
  obtain ⟨hlogits₁, hcaches₁⟩ := run_emitEpilogue false e htracks.trunk
  rw [emit, emit, run_append, List.flatten_append, runBoth_append]
  generalize runBoth K up p (emitPrologue e ++ emitTrunk true 0 0 false blocks).flatten m = m'
    at hfollows
  have htrunk (g : Fin 2) : trunkOf (half K up p g) true (m' g) =
    (refAfter S false e m₁ blocks).x :=
    hfollows.trunk g
  have hrun (g : Fin 2) : runBoth K up p (emitEpilogue true e).flatten m' g =
      run (half K up p g) (emitEpilogue true e) (m' g) :=
    runBoth_of_not_reduce (by
      simp [emitEpilogue, emitFinalNorm, emitRmsnorm, rmsnormCall, headCall, logitsCall]) g
  refine ⟨fun c g => ?_, ?_, fun g => ?_⟩
  · obtain ⟨-, hcaches⟩ := run_emitEpilogue true e (htrunk g)
    rw [hrun, hcaches, hcaches₁, htracks.caches]
    exact hfollows.cache c g
  · have hlogits (g : Fin 2) : runBoth K up p (emitEpilogue true e).flatten m' g (buf .logits) =
        (half K up p g).call (headCall true e) 0
          [S.call (rmsnormCall e.outputNorm [("row_select", .text "sym:$out_row")]) 0
            [(refAfter S false e m₁ blocks).x]] := by
      rw [hrun, (run_emitEpilogue true e (htrunk g)).1, hS.outputNorm]
    simp only [hlogits]
    rw [hlogits₁]
    exact hS.head _
  · rw [hrun, residual_emitEpilogue, htrunk, residual_emitEpilogue, htracks.trunk]

end Pass

/-! ## Any number of passes -/

section Passes

/-- What one GPU holds after so many passes of the plain program. -/
def alone (S : ℕ → Sem W (ℕ → F)) (inputs : ℕ → Inputs P F) (e : EndLeaves W)
    (blocks : List (Block W)) : ℕ → Name → ℕ → F
  | 0 => 0
  | p + 1 => run (S (p + 1)) (emit false e blocks)
    ((inputs (p + 1)).set (alone S inputs e blocks p))

variable {K : Kernel B P F} {up : Fin 2 → W → Option (List B)} {S : ℕ → Sem W (ℕ → F)}
  {inputs : ℕ → Inputs P F} {R : Cache → Fin 2 → (ℕ → F) → (ℕ → F) → Prop}
  {Q : (Fin 2 → ℕ → F) → (ℕ → F) → Prop} {e : EndLeaves W} {blocks : List (Block W)}

omit [AddZeroClass F] in
/-- The host sets the same cells on both GPUs, and touches no cache. -/
theorem related_set (inp : Inputs P F) {m : Fin 2 → Name → ℕ → F} {m₁ : Name → ℕ → F}
    (hcache : ∀ c g, R c g (m g (cache c)) (m₁ (cache c))) :
    (∀ c g, R c g (inp.set (m g) (cache c)) (inp.set m₁ (cache c))) ∧
      ∀ c ∈ [Cell.token, .maskF16, .nKv], ∀ g, inp.set (m g) (cell c) = inp.set m₁ (cell c) := by
  constructor
  · intro c g
    simpa [Inputs.set] using hcache c g
  · simp [Inputs.set]

/-- **In lockstep the pair computes what one GPU computes, pass after pass.** -/
theorem Sharding.passes (hS : ∀ p, Sharding (half K up (inputs p).syms) (S p) R Q e blocks)
    (hne : blocks ≠ []) (hzero : ∀ c g, R c g 0 0) (merge : Bool) (p : ℕ) :
    PassSplit R Q (Tensor.ideal K up inputs (program merge e blocks) (p + 1)
      (program merge e blocks).length) (alone S inputs e blocks (p + 1)) := by
  have hpass {p : ℕ} (hcache : ∀ c g, R c g (Tensor.ideal K up inputs (program merge e blocks) p
      (program merge e blocks).length g (cache c)) (alone S inputs e blocks p (cache c))) :
      PassSplit R Q (Tensor.ideal K up inputs (program merge e blocks) (p + 1)
        (program merge e blocks).length) (alone S inputs e blocks (p + 1)) := by
    obtain ⟨hcache, hcell⟩ := related_set (inputs (p + 1)) hcache
    rw [Tensor.ideal, List.take_length, flatten_program]
    exact (hS (p + 1)).pass hne hcache hcell
  induction p with
  | zero => exact hpass hzero
  | succ p ih => exact hpass ih.cache

/-- **The pair computes what one GPU computes**, in whatever order the two GPUs move: in lockstep by
`Sharding.passes`, and otherwise because every GPU holds what it would hold in lockstep. -/
theorem Sharding.run (hS : ∀ p, Sharding (half K up (inputs p).syms) (S p) R Q e blocks)
    (hne : blocks ≠ []) (hzero : ∀ c g, R c g 0 0) {merge : Bool} {τ : List TEv} {s : Tensor F}
    (h : (Tensor.lts K up inputs (program merge e blocks)).Run τ s) (hpos : 0 < s.pass)
    (hdone : ∀ g, (s.gpu g).left = (program merge e blocks).length) :
    PassSplit R Q (fun g => (s.gpu g).store) (alone S inputs e blocks s.pass) := by
  have hstore (g : Fin 2) : (s.gpu g).store = Tensor.ideal K up inputs (program merge e blocks)
      s.pass (program merge e blocks).length g := by
    rw [(Tensor.run_ok (splits_program merge e blocks) h g).store, hdone g]
  obtain ⟨p, hp⟩ := Nat.exists_eq_add_of_lt hpos
  rw [Nat.zero_add] at hp
  simp only [hstore, hp]
  exact Sharding.passes hS hne hzero merge p

end Passes

end Megakernel.Schedule
