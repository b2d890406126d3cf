import Megakernel.Schedule
import Mathlib.Tactic.Ring

/-!
# The network behind the schedule

A trunk block takes the residual `x` to `x' = x + mixer (norm x)` and then to
`x' + ffn (norm x')`; the mixer of a block also writes its caches. That is `Ref`,
in which nothing is stored anywhere but in the caches.

The emitted program keeps all in a dozen buffers that are written several times in
a block, and leaves the last add of a block to the next norm. What is true between
the blocks is `Tracks`: the residual buffer and what is pending add up to the
residual of the reference. `schedule_preserves` says that the program computes the
network, whatever the operations are.

The proofs follow the emitters: one lemma for a norm, one for a mixer and one for an FFN, then a
block, the trunk and the whole program. What is pending between two blocks is a boolean in all of
them, false only in front of the first block.
-/

namespace Megakernel.Schedule

open Name

variable {W V : Type*}

/-! ## The reference -/

/-- The residual and the caches of the network. This is all there is to say of a state of the
network between two blocks. -/
structure Ref (V : Type*) : Type _ where
  x : V
  cache : Cache → V

/-- What a mixer makes: its output and the two caches of its block. -/
structure Mixed (V : Type*) : Type _ where
  out : V
  first : V
  second : V

section Reference

variable (sem : Sem W V) (split : Bool) (mask nKv : V)

/-- The norm of a row. -/
def norm (w : W) (x : V) : V := sem.call (rmsnormCall w []) 0 [x]

/-- A contract projection: on two GPUs the partial is folded. -/
def contract (site : ℕ) (partial' : V) : V := if split then sem.fold site [partial'] else partial'

/-- ffn -/
def ffn (site : ℕ) (b : FfnLeaves W) (xn : V) : V :=
  let act := sem.call (quantCall nEmbd) 0 [xn]
  let h := sem.call (fusedCall split b) 0 [act]
  let act' := sem.call (quantCall (sp split nFf)) 0 [h]
  contract sem split site (sem.call (colCall split .mmvqQ4_0 b.down nFf) 0 [act'])

/-- The mixer of an attention block. -/
def attnMixer (site : ℕ) (b : AttnLeaves W) (xn kCache vCache : V) : Mixed V :=
  let act := sem.call (quantCall nEmbd) 0 [xn]
  let qg := sem.call (rowCall split .mmvqQ4_0 b.q nEmbd) 0 [act]
  let k := sem.call (rowCall split .mmvqQ4_0 b.k nEmbd) 0 [act]
  let v := sem.call (rowCall split .mmvqQ4_0 b.v nEmbd) 0 [act]
  let q := sem.call (ropeCall split b) 0 [qg, k]
  let k' := sem.call (ropeCall split b) 1 [qg, k]
  let kCache' := sem.call (appendCall split) 0 [k', v, kCache, vCache]
  let vCache' := sem.call (appendCall split) 1 [k', v, kCache, vCache]
  let partials := sem.call (decodeCall split) 0 [q, kCache', vCache', mask, nKv]
  let attn := sem.call (fattnReduceCall split) 0 [partials]
  let gated := sem.call (attnGateCall split) 0 [attn, qg]
  let act' := sem.call (quantCall (sp split 6144)) 0 [gated]
  ⟨contract sem split site (sem.call (colCall split .mmvqQ4_0 b.o 6144) 0 [act']), kCache', vCache'⟩

/-- The mixer of a DeltaNet block. -/
def dnMixer (site : ℕ) (b : DnLeaves W) (xn convState ssmState : V) : Mixed V :=
  let act := sem.call (quantCall nEmbd) 0 [xn]
  let qkv := sem.call (rowCall split .mmvqQ4_0 b.qkv nEmbd) 0 [act]
  let z := sem.call (rowCall split .mmvqQ4_0 b.z nEmbd) 0 [act]
  let alpha := sem.call (gemvF16Call split b.alpha) 0 [xn]
  let beta := sem.call (gemvF16Call split b.beta) 0 [xn]
  let state := sem.call (stateLoadCall split) 0 [ssmState]
  let g := sem.call (gatesCall split b) 0 [alpha, beta]
  let beta' := sem.call (gatesCall split b) 1 [alpha, beta]
  let window := sem.call (convCall split) 0 [convState, qkv]
  let convState' := sem.call (convCall split) 1 [convState, qkv]
  let qkv' := sem.call (l2normCall split) 0 [sem.call (siluCall split b) 0 [window]]
  let state' := sem.call (stepCall split) 0 [qkv', g, beta', state]
  let out := sem.call (stepCall split) 1 [qkv', g, beta', state]
  let ssmState' := sem.call (stateStoreCall split) 0 [state', ssmState]
  let gated := sem.call (gatedCall split b) 0 [out, z]
  let act' := sem.call (quantCall (sp split 6144)) 0 [gated]
  ⟨contract sem split site (sem.call (colCall split .mmvqAr16 b.out 6144) 0 [act']), convState',
    ssmState'⟩

/-- The residual after the two adds of a block. -/
def addFfn (site : ℕ) (postNorm : W) (b : FfnLeaves W) (x mixed : V) : V :=
  let x' := sem.add [x, mixed]
  sem.add [x', ffn sem split site b (norm sem postNorm x')]

/-- Block `bi` of the network: the residual with the mixer's output added, and then with the FFN's,
and the caches that the mixer has made. -/
def refBlock (bi site : ℕ) (r : Ref V) : Block W → Ref V
  | .attn b =>
    let m := attnMixer sem split mask nKv site b (norm sem b.attnNorm r.x) (r.cache (.k bi))
      (r.cache (.v bi))
    ⟨addFfn sem split (site + sites split) b.postNorm b.ffn r.x m.out,
      Function.update (Function.update r.cache (.k bi) m.first) (.v bi) m.second⟩
  | .dn b =>
    let m := dnMixer sem split site b (norm sem b.attnNorm r.x) (r.cache (.r bi)) (r.cache (.s bi))
    ⟨addFfn sem split (site + sites split) b.postNorm b.ffn r.x m.out,
      Function.update (Function.update r.cache (.r bi) m.first) (.s bi) m.second⟩

/-- The trunk of the network from block `bi` on. -/
def refTrunk (bi site : ℕ) (r : Ref V) : List (Block W) → Ref V
  | [] => r
  | b :: bs => refTrunk (bi + 1) (site + 2 * sites split)
      (refBlock sem split mask nKv bi site r b) bs

end Reference

/-! ## Execution -/

section Run

variable (sem : Sem W V)

/-- Execute windows one after the other, the instructions of each in the order of emission. -/
def run (ws : List (List (Ins W))) (m : Name → V) : Name → V :=
  ws.flatten.foldl (fun m i => i.exec sem m) m

variable {sem} {split : Bool} {m : Name → V}

@[simp] theorem run_nil : run sem [] m = m := rfl

/-- Windows are run one after the other. -/
@[simp] theorem run_append (a b : List (List (Ins W))) :
    run sem (a ++ b) m = run sem b (run sem a m) := by
  rw [run, List.flatten_append, List.foldl_append]
  rfl

/-- What no instruction makes is unchanged. -/
theorem run_of_notMem {ws : List (List (Ins W))} {n : Name} (h : ∀ i ∈ ws.flatten, n ∉ i.outs) :
    run sem ws m n = m n := by
  rw [run]
  generalize ws.flatten = l at h
  induction l generalizing m with
  | nil => rfl
  | cons i l ih =>
    rw [List.forall_mem_cons] at h
    rw [List.foldl_cons, ih h.2, Ins.exec_of_notMem h.1]

/-- The residual of the reference, read off the store: what is pending is still to be added. In
front of the first block nothing is pending. -/
def trunkOf (sem : Sem W V) (pending : Bool) (m : Name → V) : V :=
  if pending then sem.add [m (buf .residual), m (buf .projOut)] else m (buf .residual)

/-- A norm has taken the residual to be `x`: the residual buffer holds it, and the norm of it stands
where the mixer or the FFN reads it. -/
structure Normed (sem : Sem W V) (call : Call W) (x : V) (m m' : Name → V) : Prop where
  residual : m' (buf .residual) = x
  xn : m' (buf .xn) = sem.call call 0 [x]
  rest : ∀ n, n ≠ buf .xn → n ≠ buf .residual → m' n = m n

/-- In a norm what is pending is added first, and the sum is written back. -/
theorem normed_emitRmsnorm (w : W) (pending : Bool) (extra : List (String × Arg)) :
    Normed sem (rmsnormCall w extra) (trunkOf sem pending m) m
      (run sem [[emitRmsnorm w .residual .xn (pendingAdd pending) extra]] m) := by
  cases pending with
  | false =>
    refine ⟨?_, ?_, fun n hxn _ => ?_⟩
    · exact run_of_notMem (by simp [emitRmsnorm, pendingAdd])
    · simp [trunkOf, run, emitRmsnorm, pendingAdd, Ins.exec, Ins.values, rmsnormCall]
    · exact run_of_notMem (by simp [emitRmsnorm, pendingAdd, hxn])
  | true =>
    refine ⟨?_, ?_, fun n hxn hres => ?_⟩
    · simp [trunkOf, run, emitRmsnorm, pendingAdd, Ins.exec, Ins.values, rmsnormCall]
    · simp [trunkOf, run, emitRmsnorm, pendingAdd, Ins.exec, Ins.values, rmsnormCall]
    · exact run_of_notMem (by simp [emitRmsnorm, pendingAdd, hxn, hres])

/-- The windows of a feed-forward part make what `ffn` says and leave it in `proj_out`. -/
theorem run_emitFfn (b : FfnLeaves W) (site : ℕ) :
    run sem (emitFfn split b site) m (buf .projOut) = ffn sem split site b (m (buf .xn)) := by
  cases split <;>
  simp [run, emitFfn, emitColReduce, emitQuant, emitMmvq, emitXchgPush, emitXchgReduce, Ins.exec,
    Ins.values, quantCall, fusedCall, colCall, Call.nat, List.lookup_cons, ffn, contract]

variable (sem split) in
/-- The windows of an attention mixer: the output is in `proj_out`, and the keys and values are in
the caches of the block. -/
theorem run_emitAttnMixer (bi : ℕ) (b : AttnLeaves W) (site : ℕ) :
    let mixed := attnMixer sem split (m (cell .maskF16)) (m (cell .nKv)) site b (m (buf .xn))
      (m (cache (.k bi))) (m (cache (.v bi)))
    run sem (emitAttnMixer split bi b site) m (buf .projOut) = mixed.out ∧
      run sem (emitAttnMixer split bi b site) m (cache (.k bi)) = mixed.first ∧
      run sem (emitAttnMixer split bi b site) m (cache (.v bi)) = mixed.second := by
  cases split <;>
  simp [run, emitAttnMixer, emitColReduce, emitQuant, emitMmvq, emitXchgPush, emitXchgReduce,
    Ins.exec, Ins.values, quantCall, rowCall, colCall, ropeCall, appendCall, decodeCall,
    fattnReduceCall, attnGateCall, Call.nat, List.lookup_cons, attnMixer, contract, List.range_succ]

variable (sem split) in
/-- The windows of a DeltaNet mixer, with the two states in place of the keys and values. -/
theorem run_emitDnMixer (bi : ℕ) (b : DnLeaves W) (site : ℕ) :
    let mixed := dnMixer sem split site b (m (buf .xn)) (m (cache (.r bi))) (m (cache (.s bi)))
    run sem (emitDnMixer split bi b site) m (buf .projOut) = mixed.out ∧
      run sem (emitDnMixer split bi b site) m (cache (.r bi)) = mixed.first ∧
      run sem (emitDnMixer split bi b site) m (cache (.s bi)) = mixed.second := by
  cases split <;>
  simp [run, emitDnMixer, emitColReduce, emitQuant, emitMmvq, emitXchgPush, emitXchgReduce,
    Ins.exec, Ins.values, quantCall, rowCall, colCall, gemvF16Call, stateLoadCall, gatesCall,
    convCall, siluCall, l2normCall, stepCall, gatedCall, stateStoreCall, Call.nat, List.lookup_cons,
    dnMixer, contract, List.range_succ]

/-- What a block leaves alone between its norms: the residual, the cells, and the caches that are
not its own. -/
structure Untouched (own : Cache → Prop) (m m' : Name → V) : Prop where
  residual : m' (buf .residual) = m (buf .residual)
  cell : ∀ c, m' (cell c) = m (cell c)
  cache : ∀ c, ¬ own c → m' (cache c) = m (cache c)

/-- A feed-forward part touches no cache, -/
theorem untouched_emitFfn (b : FfnLeaves W) (site : ℕ) :
    Untouched (fun _ => False) m (run sem (emitFfn split b site) m) := by
  have houts : ∀ i ∈ (emitFfn split b site).flatten, ∀ n ∈ i.outs,
      n = buf .q8Act ∨ n = buf .ffnWs ∨ n = buf .projOut := by
    cases split <;>
    simp [emitFfn, emitColReduce, emitQuant, emitMmvq, emitXchgPush, emitXchgReduce]
  have hkeep : ∀ n, n ≠ buf .q8Act → n ≠ buf .ffnWs → n ≠ buf .projOut →
      run sem (emitFfn split b site) m n = m n := by
    intro n h₁ h₂ h₃
    refine run_of_notMem fun i hi hn => ?_
    obtain h | h | h := houts i hi n hn
    · exact h₁ h
    · exact h₂ h
    · exact h₃ h
  exact ⟨hkeep _ (by simp) (by simp) (by simp), fun c => hkeep _ (by simp) (by simp) (by simp),
    fun c _ => hkeep _ (by simp) (by simp) (by simp)⟩

/-- an attention mixer the two of its block only, -/
theorem untouched_emitAttnMixer (bi : ℕ) (b : AttnLeaves W) (site : ℕ) :
    Untouched (fun c => c = .k bi ∨ c = .v bi) m (run sem (emitAttnMixer split bi b site) m) := by
  refine ⟨run_of_notMem ?_, fun c => run_of_notMem ?_, fun c hc => run_of_notMem ?_⟩
  · cases split <;>
    simp [emitAttnMixer, emitColReduce, emitQuant, emitMmvq, emitXchgPush, emitXchgReduce]
  · cases split <;>
    simp [emitAttnMixer, emitColReduce, emitQuant, emitMmvq, emitXchgPush, emitXchgReduce]
  · rw [not_or] at hc
    cases split <;>
    simp [emitAttnMixer, emitColReduce, emitQuant, emitMmvq, emitXchgPush, emitXchgReduce, hc]

/-- and a DeltaNet mixer likewise. -/
theorem untouched_emitDnMixer (bi : ℕ) (b : DnLeaves W) (site : ℕ) :
    Untouched (fun c => c = .r bi ∨ c = .s bi) m (run sem (emitDnMixer split bi b site) m) := by
  refine ⟨run_of_notMem ?_, fun c => run_of_notMem ?_, fun c hc => run_of_notMem ?_⟩
  · cases split <;>
    simp [emitDnMixer, emitColReduce, emitQuant, emitMmvq, emitXchgPush, emitXchgReduce]
  · cases split <;>
    simp [emitDnMixer, emitColReduce, emitQuant, emitMmvq, emitXchgPush, emitXchgReduce]
  · rw [not_or] at hc
    cases split <;>
    simp [emitDnMixer, emitColReduce, emitQuant, emitMmvq, emitXchgPush, emitXchgReduce, hc]

/-! ## The invariant -/

/-- **The store is where the reference is**: the residual with what is pending, every cache, and the
two cells that attention reads. It is the invariant of the trunk, block by block. -/
structure Tracks (sem : Sem W V) (mask nKv : V) (pending : Bool) (m : Name → V) (r : Ref V) :
    Prop where
  trunk : trunkOf sem pending m = r.x
  caches : ∀ c, m (cache c) = r.cache c
  mask : m (cell .maskF16) = mask
  nKv : m (cell .nKv) = nKv

/-- The second half of a block: its norm adds what the mixer left pending, and the FFN leaves its
own output pending. -/
theorem trunkOf_addFfn (postNorm : W) (b : FfnLeaves W) (site : ℕ) :
    trunkOf sem true (run sem
        ([[emitRmsnorm postNorm .residual .xn (some .projOut) []]] ++ emitFfn split b site) m) =
      addFfn sem split site postNorm b (m (buf .residual)) (m (buf .projOut)) := by
  have hnorm : Normed sem (rmsnormCall postNorm []) (trunkOf sem true m) m
      (run sem [[emitRmsnorm postNorm .residual .xn (some .projOut) []]] m) :=
    normed_emitRmsnorm postNorm true []
  rw [run_append, trunkOf, if_pos rfl, (untouched_emitFfn b site).residual, run_emitFfn,
    hnorm.residual, hnorm.xn]
  rfl

variable (sem split) in
/-- The second half of a block, with the norm in front, touches no cache and no cell of the host. -/
theorem untouched_addFfn (postNorm : W) (b : FfnLeaves W) (site : ℕ) :
    (∀ c, run sem ([[emitRmsnorm postNorm .residual .xn (some .projOut) []]] ++
      emitFfn split b site)
        m (cell c) = m (cell c)) ∧
      ∀ c, run sem ([[emitRmsnorm postNorm .residual .xn (some .projOut) []]] ++
        emitFfn split b site)
        m (cache c) = m (cache c) := by
  have hnorm : Normed sem (rmsnormCall postNorm []) (trunkOf sem true m) m
      (run sem [[emitRmsnorm postNorm .residual .xn (some .projOut) []]] m) :=
    normed_emitRmsnorm postNorm true []
  rw [run_append]
  refine ⟨fun c => ?_, fun c => ?_⟩
  · rw [(untouched_emitFfn b site).cell, hnorm.rest _ (by simp) (by simp)]
  · rw [(untouched_emitFfn b site).cache c id, hnorm.rest _ (by simp) (by simp)]

/-- The norm before a mixer: what the mixer starts from. -/
theorem Tracks.normed {mask nKv : V} {pending : Bool} {r : Ref V} {m' : Name → V}
    (h : Tracks sem mask nKv pending m r) {call : Call W}
    (hnorm : Normed sem call (trunkOf sem pending m) m m') :
    m' (buf .residual) = r.x ∧ m' (buf .xn) = sem.call call 0 [r.x] ∧
      (∀ c, m' (cache c) = r.cache c) ∧ m' (cell .maskF16) = mask ∧ m' (cell .nKv) = nKv := by
  refine ⟨?_, ?_, fun c => ?_, ?_, ?_⟩
  · rw [hnorm.residual, h.trunk]
  · rw [hnorm.xn, h.trunk]
  · rw [hnorm.rest _ (by simp) (by simp), h.caches]
  · rw [hnorm.rest _ (by simp) (by simp), h.mask]
  · rw [hnorm.rest _ (by simp) (by simp), h.nKv]

/-- The rest of a block after its mixer, which has written its two caches. -/
theorem tracks_addFfn {mask nKv x : V} {caches : Cache → V} {mixed : Mixed V} {c₁ c₂ : Cache}
    {m₁ : Name → V} (hne : c₁ ≠ c₂) (hx : m₁ (buf .residual) = x)
    (hcaches : ∀ c, m₁ (cache c) = caches c) (hmask : m₁ (cell .maskF16) = mask)
    (hnKv : m₁ (cell .nKv) = nKv) (hkeep : Untouched (fun c => c = c₁ ∨ c = c₂) m₁ m)
    (hmixed : m (buf .projOut) = mixed.out ∧ m (cache c₁) = mixed.first ∧
      m (cache c₂) = mixed.second) (postNorm : W) (b : FfnLeaves W) (site : ℕ) :
    Tracks sem mask nKv true
      (run sem ([[emitRmsnorm postNorm .residual .xn (some .projOut) []]] ++
        emitFfn split b site) m)
      ⟨addFfn sem split site postNorm b x mixed.out,
        Function.update (Function.update caches c₁ mixed.first) c₂ mixed.second⟩ := by
  obtain ⟨hout, hfirst, hsecond⟩ := hmixed
  obtain ⟨hcell, hcache⟩ := untouched_addFfn sem split (m := m) postNorm b site
  refine ⟨?_, fun c => ?_, ?_, ?_⟩
  · rw [trunkOf_addFfn, hkeep.residual, hx, hout]
  · have hupdate : m (cache c) =
        Function.update (Function.update caches c₁ mixed.first) c₂ mixed.second c := by
      by_cases h₂ : c = c₂
      · rw [h₂, hsecond, Function.update_self]
      by_cases h₁ : c = c₁
      · rw [h₁, hfirst, Function.update_of_ne hne, Function.update_self]
      · rw [hkeep.cache c (not_or.mpr ⟨h₁, h₂⟩), hcaches, Function.update_of_ne h₂,
          Function.update_of_ne h₁]
    exact (hcache c).trans hupdate
  · rw [hcell, hkeep.cell, hmask]
  · rw [hcell, hkeep.cell, hnKv]

/-- **A block takes the store where it takes the reference**, whatever was pending. -/
theorem Tracks.block {mask nKv : V} {pending : Bool} {r : Ref V}
    (h : Tracks sem mask nKv pending m r) (bi site : ℕ) (b : Block W) :
    Tracks sem mask nKv true (run sem (emitBlock split bi site pending b) m)
      (refBlock sem split mask nKv bi site r b) := by
  cases b with
  | attn b =>
    rw [emitBlock, emitAttnBlock, List.append_assoc, List.append_assoc, run_append, run_append]
    obtain ⟨hx, hxn, hcaches, hmask, hnKv⟩ := h.normed (normed_emitRmsnorm b.attnNorm pending [])
    have hmixer := run_emitAttnMixer sem split
      (m := run sem [[emitRmsnorm b.attnNorm .residual .xn (pendingAdd pending) []]] m) bi b site
    rw [hmask, hnKv, hxn, hcaches, hcaches] at hmixer
    exact tracks_addFfn (by simp) hx hcaches hmask hnKv
      (untouched_emitAttnMixer bi b site) hmixer _ _ _
  | dn b =>
    rw [emitBlock, emitDnBlock, List.append_assoc, List.append_assoc, run_append, run_append]
    obtain ⟨hx, hxn, hcaches, hmask, hnKv⟩ := h.normed (normed_emitRmsnorm b.attnNorm pending [])
    have hmixer := run_emitDnMixer sem split
      (m := run sem [[emitRmsnorm b.attnNorm .residual .xn (pendingAdd pending) []]] m) bi b site
    rw [hxn, hcaches, hcaches] at hmixer
    exact tracks_addFfn (by simp) hx hcaches hmask hnKv
      (untouched_emitDnMixer bi b site) hmixer _ _ _

variable (split) in
/-- **A sequence of blocks takes the store where it takes the reference.** -/
theorem Tracks.trunk_run {mask nKv : V} {pending : Bool} {r : Ref V}
    (h : Tracks sem mask nKv pending m r) (bi site : ℕ) (bs : List (Block W)) :
    Tracks sem mask nKv (pending || !bs.isEmpty) (run sem (emitTrunk split bi site pending bs) m)
      (refTrunk sem split mask nKv bi site r bs) := by
  induction bs generalizing m bi site pending r with
  | nil => simpa [emitTrunk, refTrunk] using h
  | cons b bs ih =>
    rw [emitTrunk, run_append, refTrunk]
    simpa using ih (h.block bi site b) (bi + 1) (site + 2 * sites split)

/-- The trunk of two sequences of blocks, one after the other. -/
theorem emitTrunk_append (bi site : ℕ) (pending : Bool) (as bs : List (Block W)) :
    emitTrunk split bi site pending (as ++ bs) = emitTrunk split bi site pending as ++
      emitTrunk split (bi + as.length) (site + as.length * (2 * sites split))
        (pending || !as.isEmpty) bs := by
  induction as generalizing bi site pending with
  | nil => simp [emitTrunk]
  | cons a as ih =>
    have hbi : bi + 1 + as.length = bi + (a :: as).length := by
      rw [List.length_cons]
      omega
    have hsite : site + 2 * sites split + as.length * (2 * sites split) =
        site + (a :: as).length * (2 * sites split) := by
      rw [List.length_cons]
      ring
    rw [List.cons_append, emitTrunk, emitTrunk, ih, List.append_assoc, hbi, hsite]
    simp

variable (split) in
/-- What follows a non-empty sequence of blocks begins with a norm that adds what is pending. -/
theorem emitTrunk_append_epilogue (bi site : ℕ) (e : EndLeaves W) (bs : List (Block W)) :
    ∃ w extra rest, emitTrunk split bi site true bs ++ emitEpilogue split e =
      [emitRmsnorm w .residual .xn (pendingAdd true) extra] :: rest := by
  cases bs with
  | nil => exact ⟨e.outputNorm, _, _, rfl⟩
  | cons b bs =>
    cases b with
    | attn b => exact ⟨b.attnNorm, [], _, rfl⟩
    | dn b => exact ⟨b.attnNorm, [], _, rfl⟩

/-- The state of the network before its first block, given the embedding. -/
def refStart (sem : Sem W V) (e : EndLeaves W) (m : Name → V) : Ref V :=
  ⟨sem.call ⟨.embedLookup, [e.tokEmbd], [("n_embd", .nat nEmbd)]⟩ 0 [m (cell .token)],
    fun c => m (cache c)⟩

/-- The network after its first `k` blocks. -/
def refAfter (sem : Sem W V) (split : Bool) (e : EndLeaves W) (m : Name → V)
    (blocks : List (Block W)) : Ref V :=
  refTrunk sem split (m (cell .maskF16)) (m (cell .nKv)) 0 0 (refStart sem e m) blocks

variable (sem) in
/-- After the prologue the trunk is the embedding, with nothing pending. -/
theorem tracks_prologue (e : EndLeaves W) :
    Tracks sem (m (cell .maskF16)) (m (cell .nKv)) false (run sem (emitPrologue e) m)
      (refStart sem e m) where
  trunk := by simp [trunkOf, run, emitPrologue, Ins.exec, Ins.values, refStart]
  caches c := run_of_notMem (by simp [emitPrologue])
  mask := run_of_notMem (by simp [emitPrologue])
  nKv := run_of_notMem (by simp [emitPrologue])

variable (sem split) in
/-- The prologue and a sequence of blocks. -/
theorem tracks_blocks (e : EndLeaves W) {blocks : List (Block W)} (h : blocks ≠ []) :
    Tracks sem (m (cell .maskF16)) (m (cell .nKv)) true
      (run sem (emitPrologue e ++ emitTrunk split 0 0 false blocks) m)
      (refAfter sem split e m blocks) := by
  rw [run_append]
  have hrun := (tracks_prologue sem (m := m) e).trunk_run split 0 0 blocks
  rwa [Bool.false_or, List.isEmpty_eq_false_iff.mpr h] at hrun

variable (split) in
/-- Behind every non-empty part of the trunk comes a norm that adds what is pending. -/
theorem emit_eq_append (e : EndLeaves W) (blocks : List (Block W)) {k : ℕ}
    (hne : blocks.take k ≠ []) :
    ∃ w extra rest, emit split e blocks =
      (emitPrologue e ++ emitTrunk split 0 0 false (blocks.take k)) ++
        [emitRmsnorm w .residual .xn (pendingAdd true) extra] :: rest := by
  obtain ⟨w, extra, rest, hrest⟩ := emitTrunk_append_epilogue split
    (0 + (blocks.take k).length) (0 + (blocks.take k).length * (2 * sites split)) e (blocks.drop k)
  refine ⟨w, extra, rest, ?_⟩
  rw [← hrest]
  conv_lhs => rw [emit, ← List.take_append_drop k blocks, emitTrunk_append]
  rw [Bool.false_or, List.isEmpty_eq_false_iff.mpr hne]
  simp only [List.append_assoc, Bool.not_false]

/-- **The residual of the network comes out of the norm that follows its block.** -/
theorem residual_after (e : EndLeaves W) (blocks : List (Block W)) {k : ℕ}
    (hne : blocks.take k ≠ []) :
    let n := (emitPrologue e ++ emitTrunk split 0 0 false (blocks.take k)).length
    trunkOf sem true (run sem ((emit split e blocks).take n) m) =
        (refAfter sem split e m (blocks.take k)).x ∧
      run sem ((emit split e blocks).take (n + 1)) m (buf .residual) =
        (refAfter sem split e m (blocks.take k)).x := by
  intro n
  obtain ⟨w, extra, rest, hemit⟩ := emit_eq_append split e blocks hne
  have htracks := tracks_blocks sem split (m := m) e hne
  rw [hemit, List.take_left, List.take_length_add_append, List.take_succ_cons, List.take_zero]
  refine ⟨htracks.trunk, ?_⟩
  rw [run_append, (normed_emitRmsnorm w true extra).residual, htracks.trunk]

variable (split) in
/-- What the epilogue makes of the final residual. -/
theorem run_emitEpilogue (e : EndLeaves W) {x : V} (hx : trunkOf sem true m = x) :
    run sem (emitEpilogue split e) m (buf .logits) = sem.call (headCall split e) 0
        [sem.call (rmsnormCall e.outputNorm [("row_select", .text "sym:$out_row")]) 0 [x]] ∧
      ∀ c, run sem (emitEpilogue split e) m (cache c) = m (cache c) := by
  constructor
  · subst hx
    simp [run, emitEpilogue, emitFinalNorm, emitRmsnorm, Ins.exec, Ins.values,
      rmsnormCall, headCall,
      logitsCall, trunkOf, List.range_succ]
  · intro c
    exact run_of_notMem (by simp [emitEpilogue, emitFinalNorm, emitRmsnorm])

end Run

/-! ## Windows -/

section Windows

variable (sem : Sem W V)

/-- The windows as the rest of the compiler sees them. -/
def toWindows (ws : List (List (Ins W))) : List (Window Name V) := ws.map (List.map (Ins.toOp sem))

variable {sem} {split : Bool}

/-- The windows that the rest of the compiler sees do the same as what has been emitted. -/
theorem runOps_toWindows (ws : List (List (Ins W))) (m : Name → V) :
    runOps (toWindows sem ws).flatten m = run sem ws m := by
  rw [toWindows, ← List.map_flatten, runOps, run, List.foldl_map]
  rfl

/-- A window of one instruction has no hazards. -/
theorem hazardFree_single (o : Op Name V) : HazardFree [o] := List.pairwise_singleton _ _

/-- The push and the reduce are in windows of their own. -/
theorem hazardFree_emitColReduce (site : ℕ) :
    ∀ w ∈ emitColReduce (W := W) split site, HazardFree (w.map (Ins.toOp sem)) := by
  cases split with
  | false => simp [emitColReduce]
  | true => simp [emitColReduce, hazardFree_single]

/-- The windows of a feed-forward part have one instruction each. -/
theorem hazardFree_emitFfn (b : FfnLeaves W) (site : ℕ) :
    ∀ w ∈ emitFfn split b site, HazardFree (w.map (Ins.toOp sem)) := by
  intro w hw
  obtain hw | hw := List.mem_append.mp hw
  · simp only [List.mem_cons, List.not_mem_nil, or_false] at hw
    obtain rfl | rfl | rfl | rfl := hw <;> exact hazardFree_single _
  · exact hazardFree_emitColReduce site w hw

/-- Those of an attention mixer may have several, of which none writes what another one declares. -/
theorem hazardFree_emitAttnMixer (bi : ℕ) (b : AttnLeaves W) (site : ℕ) :
    ∀ w ∈ emitAttnMixer split bi b site, HazardFree (w.map (Ins.toOp sem)) := by
  intro w hw
  obtain hw | hw := List.mem_append.mp hw
  · simp only [List.mem_cons, List.not_mem_nil, or_false] at hw
    obtain rfl | rfl | rfl | rfl | rfl | rfl | rfl | rfl | rfl := hw
    case inr.inl => simp [HazardFree, Op.clash_eq_false, Ins.toOp, emitMmvq]
    all_goals exact hazardFree_single _
  · exact hazardFree_emitColReduce site w hw

/-- The same holds of a DeltaNet mixer, -/
theorem hazardFree_emitDnMixer (bi : ℕ) (b : DnLeaves W) (site : ℕ) :
    ∀ w ∈ emitDnMixer split bi b site, HazardFree (w.map (Ins.toOp sem)) := by
  intro w hw
  obtain hw | hw := List.mem_append.mp hw
  · simp only [List.mem_cons, List.not_mem_nil, or_false] at hw
    obtain rfl | rfl | rfl | rfl | rfl | rfl | rfl | rfl | rfl := hw
    case inr.inl => simp [HazardFree, Op.clash_eq_false, Ins.toOp, emitMmvq]
    case inr.inr.inl => simp [HazardFree, Op.clash_eq_false, Ins.toOp]
    case inr.inr.inr.inr.inr.inr.inl => simp [HazardFree, Op.clash_eq_false, Ins.toOp]
    all_goals exact hazardFree_single _
  · exact hazardFree_emitColReduce site w hw

/-- No instruction of a window writes what another one uses. -/
theorem hazardFree_emitBlock (bi site : ℕ) (pending : Bool) (b : Block W) :
    ∀ w ∈ emitBlock split bi site pending b, HazardFree (w.map (Ins.toOp sem)) := by
  cases b with
  | attn b =>
    rw [emitBlock, emitAttnBlock]
    simp only [List.forall_mem_append, List.forall_mem_singleton]
    exact ⟨⟨⟨hazardFree_single _, hazardFree_emitAttnMixer bi b site⟩, hazardFree_single _⟩,
      hazardFree_emitFfn b.ffn _⟩
  | dn b =>
    rw [emitBlock, emitDnBlock]
    simp only [List.forall_mem_append, List.forall_mem_singleton]
    exact ⟨⟨⟨hazardFree_single _, hazardFree_emitDnMixer bi b site⟩, hazardFree_single _⟩,
      hazardFree_emitFfn b.ffn _⟩

/-- and so of a trunk, by induction on its blocks. -/
theorem hazardFree_emitTrunk (bi site : ℕ) (pending : Bool) (blocks : List (Block W)) :
    ∀ w ∈ emitTrunk split bi site pending blocks, HazardFree (w.map (Ins.toOp sem)) := by
  induction blocks generalizing bi site pending with
  | nil => simp [emitTrunk]
  | cons b bs ih =>
    rw [emitTrunk, List.forall_mem_append]
    exact ⟨hazardFree_emitBlock bi site pending b, ih _ _ _⟩

variable (sem split) in
/-- Every emitted window is an antichain. Coalescing starts from such windows and keeps them so
(`coalesce_correct`). -/
theorem hazardFree_emit (e : EndLeaves W) (blocks : List (Block W)) :
    ∀ w ∈ toWindows sem (emit split e blocks), HazardFree w := by
  rw [toWindows, List.forall_mem_map, emit, List.forall_mem_append, List.forall_mem_append]
  refine ⟨⟨?_, hazardFree_emitTrunk 0 0 false blocks⟩, ?_⟩
  · simp [emitPrologue, hazardFree_single]
  · simp [emitEpilogue, hazardFree_single]

/-- The window holds an OP_FATTN_DECODE. -/
def Decodes (w : Window Name V) : Prop := ∃ o ∈ w, o.kind = .fattnDecode

/-- A decode cannot be put together with its neighbour. -/
def Apart (a b : Window Name V) : Prop := Decodes a ∨ Decodes b → ¬ HazardFree (a ++ b)

/-- The neighbours of every decode are apart from it, and no decode is at an end. So the loop can
never put it together with another window. -/
structure Framed (ws : List (Window Name V)) : Prop where
  chain : ws.IsChain Apart
  head : ∀ w ∈ ws.head?, ¬ Decodes w
  last : ∀ w ∈ ws.getLast?, ¬ Decodes w

/-- Lists with frames can be put one behind the other. -/
theorem Framed.append {a b : List (Window Name V)} (ha : Framed a) (hb : Framed b) :
    Framed (a ++ b) where
  chain := by
    refine List.isChain_append.mpr ⟨ha.chain, hb.chain, fun x hx y hy h => ?_⟩
    exact absurd h (not_or.mpr ⟨ha.last x hx, hb.head y hy⟩)
  head w hw := by
    rw [List.head?_append] at hw
    cases ha' : a.head? with
    | none => exact hb.head w (by simpa [ha'] using hw)
    | some x => exact ha.head w (by simpa [ha'] using hw)
  last w hw := by
    rw [List.getLast?_append] at hw
    cases hb' : b.getLast? with
    | none => exact ha.last w (by simpa [hb'] using hw)
    | some x => exact hb.last w (by simpa [hb'] using hw)

/-- Windows of which none decodes. -/
theorem framed_of_not_decodes {ws : List (Window Name V)} (h : ∀ w ∈ ws, ¬ Decodes w) :
    Framed ws where
  chain := by
    refine List.Pairwise.isChain (List.pairwise_of_forall_mem_list fun a ha b hb hab => ?_)
    exact absurd hab (not_or.mpr ⟨h a ha, h b hb⟩)
  head w hw := h w (List.mem_of_mem_head? hw)
  last w hw := h w (List.mem_of_mem_getLast? hw)

/-- There is no decode in a feed-forward part, -/
theorem not_decodes_emitFfn (b : FfnLeaves W) (site : ℕ) :
    ∀ w ∈ toWindows sem (emitFfn split b site), ¬ Decodes w := by
  cases split <;>
  simp [toWindows, emitFfn, emitColReduce, emitQuant, emitMmvq, emitXchgPush,
    emitXchgReduce, Ins.toOp,
    Decodes, quantCall, fusedCall, colCall]

/-- in a norm, -/
theorem not_decodes_emitRmsnorm (w : W) (src dst : Buf) (add : Option Buf)
    (extra : List (String × Arg)) :
    ∀ v ∈ toWindows sem [[emitRmsnorm w src dst add extra]], ¬ Decodes v := by
  cases add <;> simp [toWindows, emitRmsnorm, Ins.toOp, Decodes, rmsnormCall]

/-- or in a DeltaNet mixer. -/
theorem not_decodes_emitDnMixer (bi : ℕ) (b : DnLeaves W) (site : ℕ) :
    ∀ w ∈ toWindows sem (emitDnMixer split bi b site), ¬ Decodes w := by
  cases split <;>
  simp [toWindows, emitDnMixer, emitColReduce, emitQuant, emitMmvq, emitXchgPush, emitXchgReduce,
    Ins.toOp, Decodes, quantCall, rowCall, colCall, gemvF16Call, stateLoadCall, gatesCall, convCall,
    siluCall, l2normCall, stepCall, gatedCall, stateStoreCall]

/-- The append before a decode writes its caches, the reduce after it reads its partials. -/
theorem framed_emitAttnMixer (bi : ℕ) (b : AttnLeaves W) (site : ℕ) :
    Framed (toWindows sem (emitAttnMixer split bi b site)) := by
  refine ⟨?_, ?_, ?_⟩ <;> cases split <;>
  simp [toWindows, emitAttnMixer, emitColReduce, emitQuant, emitMmvq, emitXchgPush, emitXchgReduce,
    HazardFree, Op.clash_eq_false, Ins.toOp, Apart, Decodes, quantCall, rowCall, colCall, ropeCall,
    appendCall, decodeCall, fattnReduceCall, attnGateCall]

/-- The trunk is framed, by induction on its blocks, -/
theorem framed_emitTrunk (bi site : ℕ) (pending : Bool) (blocks : List (Block W)) :
    Framed (toWindows sem (emitTrunk split bi site pending blocks)) := by
  induction blocks generalizing bi site pending with
  | nil => exact framed_of_not_decodes (by simp [toWindows, emitTrunk])
  | cons b bs ih =>
    rw [emitTrunk, toWindows, List.map_append]
    refine Framed.append ?_ (ih _ _ _)
    cases b with
    | attn b =>
      rw [emitBlock, emitAttnBlock, List.map_append, List.map_append, List.map_append]
      exact (((framed_of_not_decodes (not_decodes_emitRmsnorm _ _ _ _ _)).append
        (framed_emitAttnMixer bi b site)).append
          (framed_of_not_decodes (not_decodes_emitRmsnorm _ _ _ _ _))).append
            (framed_of_not_decodes (not_decodes_emitFfn _ _))
    | dn b =>
      rw [emitBlock, emitDnBlock, List.map_append, List.map_append, List.map_append]
      exact (((framed_of_not_decodes (not_decodes_emitRmsnorm _ _ _ _ _)).append
        (framed_of_not_decodes (not_decodes_emitDnMixer bi b site))).append
          (framed_of_not_decodes (not_decodes_emitRmsnorm _ _ _ _ _))).append
            (framed_of_not_decodes (not_decodes_emitFfn _ _))

variable (sem split) in
/-- and so is the whole program. -/
theorem framed_emit (e : EndLeaves W) (blocks : List (Block W)) :
    Framed (toWindows sem (emit split e blocks)) := by
  rw [emit, toWindows, List.map_append, List.map_append]
  refine ((framed_of_not_decodes ?_).append (framed_emitTrunk 0 0 false blocks)).append
    (framed_of_not_decodes ?_)
  · simp [emitPrologue, Decodes, Ins.toOp]
  · simp [emitEpilogue, emitFinalNorm, emitRmsnorm, Decodes, Ins.toOp, rmsnormCall, headCall,
      logitsCall]

/-- A run of windows that have been put together holds a decode only alone. -/
theorem Framed.alone {g : List (Window Name V)} (hchain : g.IsChain Apart)
    (hfree : HazardFree g.flatten) {w : Window Name V} (hw : w ∈ g) (hdec : Decodes w) :
    g = [w] := by
  have hpair : ∀ l a b r, g = l ++ a :: b :: r → ¬ (Decodes a ∨ Decodes b) := by
    rintro l a b r rfl h
    refine (List.isChain_append_cons_cons.mp hchain).2.1 h (hfree.sublist ?_)
    simp only [List.flatten_append, List.flatten_cons]
    exact ((List.sublist_append_left (a ++ b) r.flatten).trans (by simp)).trans
      (List.sublist_append_right _ _)
  obtain ⟨l, r, rfl⟩ := List.append_of_mem hw
  cases r with
  | cons b r => exact absurd (Or.inl hdec) (hpair l w b r rfl)
  | nil =>
    obtain rfl | ⟨l, a, rfl⟩ := List.eq_nil_or_concat l
    · rfl
    · exact absurd (Or.inr hdec) (hpair l a w [] (by simp))

/-- `WINDOWS`, with coalescing (`COALESCE`) or without. -/
def merged (merge : Bool) (ws : List (Window Name V)) : List (Window Name V) :=
  if merge then coalesce ws else ws

/-- A decode is emitted in a window of its own. -/
theorem single_of_decodes_trunk (bi site : ℕ) (pending : Bool) (blocks : List (Block W)) :
    ∀ w ∈ toWindows sem (emitTrunk split bi site pending blocks), Decodes w → ∃ o, w = [o] := by
  induction blocks generalizing bi site pending with
  | nil => simp [toWindows, emitTrunk]
  | cons b bs ih =>
    rw [emitTrunk, toWindows, List.map_append, List.forall_mem_append]
    refine ⟨?_, ih _ _ _⟩
    cases b with
    | attn b =>
      rw [emitBlock, emitAttnBlock, List.map_append, List.map_append, List.map_append]
      simp only [List.forall_mem_append]
      refine ⟨⟨⟨fun w hw hdec => absurd hdec (not_decodes_emitRmsnorm _ _ _ _ _ w hw), ?_⟩,
        fun w hw hdec => absurd hdec (not_decodes_emitRmsnorm _ _ _ _ _ w hw)⟩,
        fun w hw hdec => absurd hdec (not_decodes_emitFfn _ _ w hw)⟩
      cases split <;>
      simp [emitAttnMixer, emitColReduce, emitMmvq, Ins.toOp, Decodes, rowCall]
    | dn b =>
      rw [emitBlock, emitDnBlock, List.map_append, List.map_append, List.map_append]
      simp only [List.forall_mem_append]
      exact ⟨⟨⟨fun w hw hdec => absurd hdec (not_decodes_emitRmsnorm _ _ _ _ _ w hw),
        fun w hw hdec => absurd hdec (not_decodes_emitDnMixer _ _ _ w hw)⟩,
        fun w hw hdec => absurd hdec (not_decodes_emitRmsnorm _ _ _ _ _ w hw)⟩,
        fun w hw hdec => absurd hdec (not_decodes_emitFfn _ _ w hw)⟩

variable (sem split) in
/-- A decode is alone in its window, which is what the rewriting of `n_splits` relies on. -/
theorem single_of_decodes (e : EndLeaves W) (blocks : List (Block W)) :
    ∀ w ∈ toWindows sem (emit split e blocks), Decodes w → ∃ o, w = [o] := by
  rw [emit, toWindows, List.map_append, List.map_append, List.forall_mem_append,
    List.forall_mem_append]
  exact ⟨⟨by simp [emitPrologue], single_of_decodes_trunk 0 0 false blocks⟩, by simp [emitEpilogue]⟩

/-- **A decode is alone in its window**, coalesced or not. -/
theorem decodes_alone (e : EndLeaves W) (blocks : List (Block W)) (merge : Bool) {w : Window Name V}
    (hw : w ∈ merged merge (toWindows sem (emit split e blocks))) (hdec : Decodes w) :
    ∃ o, w = [o] := by
  cases merge with
  | false => exact single_of_decodes sem split e blocks w hw hdec
  | true =>
    obtain ⟨gs, hflat, hco, hgs⟩ := coalesce_grouped (hazardFree_emit sem split e blocks)
    rw [merged, if_pos rfl, hco] at hw
    obtain ⟨g, hg, rfl⟩ := List.mem_map.mp hw
    obtain ⟨o, ho, hkind⟩ := hdec
    obtain ⟨w, hwg, how⟩ := List.mem_flatten.mp ho
    have hchain := (framed_emit sem split e blocks).chain
    rw [← hflat] at hchain
    have hgchain : g.IsChain Apart := List.IsChain.infix hchain (List.infix_of_mem_flatten hg)
    have hg' : g = [w] := Framed.alone hgchain (hgs g hg).hazardFree hwg ⟨o, how, hkind⟩
    rw [hg', List.flatten_singleton]
    refine single_of_decodes sem split e blocks w ?_ ⟨o, how, hkind⟩
    rw [← hflat]
    exact List.mem_flatten.mpr ⟨g, hg, hwg⟩

/-- Neither coalescing nor the order in a window makes a difference. -/
theorem runOps_merged {e : EndLeaves W} {blocks : List (Block W)} (merge : Bool)
    {cs : List (Window Name V)}
    (hcs : List.Forall₂ List.Perm (merged merge (toWindows sem (emit split e blocks))) cs)
    {m : Name → V} : run sem (emit split e blocks) m = runOps cs.flatten m := by
  have hfree := hazardFree_emit sem split e blocks
  rw [← runOps_toWindows]
  cases merge with
  | false => exact runOps_flatten_perm hfree hcs m
  | true =>
    obtain ⟨gs, hflat, hco, hgs⟩ := coalesce_grouped hfree
    have hcoalesced : ∀ w ∈ coalesce (toWindows sem (emit split e blocks)), HazardFree w := by
      rw [hco, List.forall_mem_map]
      exact fun g hg => (hgs g hg).hazardFree
    have hsame : (toWindows sem (emit split e blocks)).flatten =
        (coalesce (toWindows sem (emit split e blocks))).flatten := by
      rw [hco, ← List.flatten_flatten, hflat]
    rw [hsame]
    exact runOps_flatten_perm hcoalesced hcs m

/-- What is emitted has the whole grid as `n_splits`. -/
theorem nat_nSplits_trunk (bi site : ℕ) (pending : Bool) (blocks : List (Block W)) :
    ∀ i ∈ (emitTrunk split bi site pending blocks).flatten, i.call.kind = .fattnReduce →
      i.call.nat "n_splits" = some grid := by
  have hnorm : ∀ (w : W) (add : Option Buf), ∀ i ∈ [[emitRmsnorm w .residual .xn add []]].flatten,
      i.call.kind = .fattnReduce → i.call.nat "n_splits" = some grid := by
    intro w add
    cases add <;> simp [emitRmsnorm, rmsnormCall]
  have hffn : ∀ (b : FfnLeaves W) (site : ℕ), ∀ i ∈ (emitFfn split b site).flatten,
      i.call.kind = .fattnReduce → i.call.nat "n_splits" = some grid := by
    intro b site
    cases split <;>
    simp [emitFfn, emitColReduce, emitQuant, emitMmvq, emitXchgPush, emitXchgReduce, quantCall,
      fusedCall, colCall]
  induction blocks generalizing bi site pending with
  | nil => simp [emitTrunk]
  | cons b bs ih =>
    rw [emitTrunk, List.flatten_append, List.forall_mem_append]
    refine ⟨?_, ih _ _ _⟩
    cases b with
    | attn b =>
      rw [emitBlock, emitAttnBlock, List.flatten_append, List.flatten_append, List.flatten_append]
      simp only [List.forall_mem_append]
      refine ⟨⟨⟨hnorm _ _, ?_⟩, hnorm _ _⟩, hffn _ _⟩
      cases split <;>
      simp [emitAttnMixer, emitColReduce, emitQuant, emitMmvq, emitXchgPush,
        emitXchgReduce, quantCall,
        rowCall, colCall, ropeCall, appendCall, decodeCall, fattnReduceCall, attnGateCall, Call.nat,
        List.lookup_cons]
    | dn b =>
      rw [emitBlock, emitDnBlock, List.flatten_append, List.flatten_append, List.flatten_append]
      simp only [List.forall_mem_append]
      refine ⟨⟨⟨hnorm _ _, ?_⟩, hnorm _ _⟩, hffn _ _⟩
      cases split <;>
      simp [emitDnMixer, emitColReduce, emitQuant, emitMmvq, emitXchgPush,
        emitXchgReduce, quantCall,
        rowCall, colCall, gemvF16Call, stateLoadCall, gatesCall, convCall, siluCall, l2normCall,
        stepCall, gatedCall, stateStoreCall]

/-- Every OP_FATTN_REDUCE merges as many splits as the grid has blocks. -/
theorem nat_nSplits (e : EndLeaves W) (blocks : List (Block W)) :
    ∀ i ∈ (emit split e blocks).flatten, i.call.kind = .fattnReduce →
      i.call.nat "n_splits" = some grid := by
  rw [emit, List.flatten_append, List.flatten_append]
  simp only [List.forall_mem_append]
  refine ⟨⟨by simp [emitPrologue], nat_nSplits_trunk 0 0 false blocks⟩, ?_⟩
  simp [emitEpilogue, emitFinalNorm, emitRmsnorm, rmsnormCall, headCall, logitsCall]

/-- The ranges of blocks of consecutive shares. -/
def rangesFrom (lo : ℕ) : List ℕ → List (ℕ × ℕ)
  | [] => []
  | share :: shares => (lo, lo + share) :: rangesFrom (lo + share) shares

/-- `block_lo` and `block_hi` of the instructions of a window, given how `split_grid` shares out the
grid among several. An instruction that is alone gets all of it. -/
def blockRanges (splitGrid : List ℕ → List ℕ) (w : Window Name V) : List (ℕ × ℕ) :=
  if w.length = 1 then [(0, grid)] else rangesFrom 0 (splitGrid (w.map Op.est))

end Windows

/-! ## The program computes the network -/

/-- **The schedule compiler preserves the network's meaning**, for every sequence of blocks and
whatever the operations are. After every block, the residual and what is pending add up to the
residual of the network, which the next norm leaves in the residual buffer; at the end the logits
and all caches are those of the network. Neither the order of execution in a window nor coalescing
makes a difference. The blocks that own an OP_FATTN_DECODE are as many as the splits that
OP_FATTN_REDUCE merges. -/
theorem schedule_preserves (sem : Sem W V) (split : Bool) (e : EndLeaves W)
    (blocks : List (Block W))
    (h : blocks ≠ []) (m : Name → V) :
    (∀ cs, List.Forall₂ List.Perm (toWindows sem (emit split e blocks)) cs →
      ∀ k, 0 < k → k ≤ blocks.length →
        let n := (emitPrologue e ++ emitTrunk split 0 0 false (blocks.take k)).length
        trunkOf sem true (runOps (cs.take n).flatten m) =
            (refAfter sem split e m (blocks.take k)).x ∧
          runOps (cs.take (n + 1)).flatten m (buf .residual) =
            (refAfter sem split e m (blocks.take k)).x) ∧
    (∀ merge cs, List.Forall₂ List.Perm (merged merge (toWindows sem (emit split e blocks))) cs →
      runOps cs.flatten m (buf .logits) = sem.call (headCall split e) 0
          [sem.call (rmsnormCall e.outputNorm [("row_select", .text "sym:$out_row")]) 0
            [(refAfter sem split e m blocks).x]] ∧
        ∀ c, runOps cs.flatten m (cache c) = (refAfter sem split e m blocks).cache c) ∧
    ∀ merge splitGrid, ∀ w ∈ merged merge (toWindows sem (emit split e blocks)), Decodes w →
      ∀ i ∈ (emit split e blocks).flatten, i.call.kind = .fattnReduce →
        ∃ lo hi, blockRanges splitGrid w = [(lo, hi)] ∧ i.call.nat "n_splits" = some (hi - lo) := by
  refine ⟨?_, fun merge cs hcs => ?_, ?_⟩
  · intro cs hcs k hk hle n
    have hne : blocks.take k ≠ [] := by
      rw [ne_eq, List.take_eq_nil_iff, not_or]
      exact ⟨by omega, h⟩
    have hrun : ∀ n, runOps (cs.take n).flatten m = run sem ((emit split e blocks).take n) m := by
      intro n
      rw [← runOps_flatten_perm (fun w hw => hazardFree_emit sem split e blocks w
        (List.mem_of_mem_take hw))
        (List.forall₂_take n hcs), toWindows, ← List.map_take]
      exact runOps_toWindows _ _
    rw [hrun, hrun]
    exact residual_after e blocks hne
  · rw [← runOps_merged merge hcs, emit, run_append]
    have htracks := tracks_blocks sem split (m := m) e h
    obtain ⟨hlogits, hcaches⟩ := run_emitEpilogue split e htracks.trunk
    refine ⟨hlogits, fun c => ?_⟩
    rw [hcaches, htracks.caches]
  · intro merge splitGrid w hw hdec i hi hkind
    obtain ⟨o, rfl⟩ := decodes_alone e blocks merge hw hdec
    exact ⟨0, grid, rfl, nat_nSplits e blocks i hi hkind⟩

/-- Every operation adds up what it reads. -/
def sumSem : Sem ℕ ℕ := ⟨fun _ o vs => vs.sum + o + 1, List.sum, fun _ => List.sum⟩

/-- A network of one attention block. -/
def oneBlock : List (Block ℕ) :=
  [.attn ⟨0, ⟨1, 1, 1⟩, ⟨2, 1, 1⟩, ⟨3, 1, 1⟩, 4, 5, ⟨6, 1, 1⟩, 7,
    ⟨⟨8, 1, 1⟩, ⟨9, 1, 1⟩, ⟨10, 1, 1⟩⟩⟩]

/-- Its embedding and its head. -/
def oneEnd : EndLeaves ℕ := ⟨11, 12, ⟨13, 1, 1⟩⟩

theorem schedule_preserves_oneBlock :
    runOps (toWindows sumSem (emit false oneEnd oneBlock)).flatten (fun _ => 0)
      (buf .logits) = 107 := by
  have hne : oneBlock ≠ [] := by decide
  obtain ⟨-, hrun, -⟩ := schedule_preserves sumSem false oneEnd oneBlock hne fun _ => 0
  obtain ⟨hlogits, -⟩ := hrun false _ (List.forall₂_same.mpr fun w _ => List.Perm.refl w)
  exact hlogits.trans (by decide)

end Megakernel.Schedule
