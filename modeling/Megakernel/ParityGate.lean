import Megakernel.Ieee

/-!
# The parity gate

`tests/oracle/compare.py`: two dump trees are compared in four lanes, and the exit
code is the verdict. The trees may hold anything: a file may be missing, a number
may be NaN, the shapes may not fit together.

What is only printed or reported is left out.

Numbers are those of `Ieee`, and whatever Python does with a missing row, a shape that does not fit
or an index out of range is an exception here as well. The lanes are run in the order of the source,
since the first exception decides the exit code.
-/

namespace Megakernel.Compare

open Ieee Value

/-! ## Dump trees -/

/-- The part of `config` in `index.json` that is compared. -/
structure Config where
  nVocab : ℤ
  steps : ℕ
  ctxTokens : ℤ
  split : String
  nCtx : ℤ

/-- `index.json`, with what `compare.py` reads of it. -/
structure Index where
  format : Option String
  config : Config
  promptTokens : List ℤ
  emittedTokens : List ℤ
  /-- `logits.rows` -/
  rows : ℕ
  /-- `logits.cols` -/
  cols : ℕ

/-- What is found under the name `index.json`: nothing, something without what is read of it, or an
index. -/
inductive IndexFile where
  | missing
  /-- No JSON, or without one of the keys. -/
  | malformed
  | index (idx : Index)

/-- A row of `nodes.csv`; where a text is no number there is none. -/
structure NodeRow (K : Type) where
  step : Option ℤ
  name : String
  summary : String
  rms : Option (Value K)

/-- A row of `files.csv`: a file that has been dumped, with its size. -/
structure FileRow where
  step : Option ℤ
  kind : String
  name : String
  path : String
  nbytes : Option ℤ

/-- A dump tree; there is `none` where a file is missing. What the files hold need not fit together.
-/
structure Tree (K : Type) where
  index : IndexFile
  /-- `logits.bin` -/
  logits : Option (List (Value K))
  /-- `nodes.csv` -/
  nodes : Option (List (NodeRow K))
  /-- `files.csv` -/
  files : Option (List FileRow)
  /-- The files of the tree. -/
  content : String → Option (List UInt8)

/-- The command line: the two tolerances, and whether the soft requirements are waived. -/
structure Args (K : Type) where
  klTol : Value K
  rmsTol : Value K
  allowConfigMismatch : Bool

/-- `(step, name)`, under which the lanes find what belongs together in the two trees. -/
abbrev Key := ℤ × String

/-- An entry of the list of violations, by the lane and by what it is about. The exit code depends
on whether the list is empty. -/
inductive Violation (K : Type) where
  /-- logits KL max -/
  | logitsKl (klMax : Value K)
  /-- greedy divergence outside the band -/
  | greedyDivergence (step : ℕ) (rowKl : Value K)
  /-- residual RMS rel diff -/
  | residualRms (rmsMax : Value K)
  /-- state tensors not bit-exact -/
  | stateMismatch (mismatched : List Key)

/-- How `main` ends before its verdict: with a structural failure of its own, or with an exception
that Python raises. -/
inductive Abort where
  /-- `fail_structural` -/
  | structural
  /-- An exception that nobody catches. -/
  | exception

variable {K : Type} [FiniteArith K] {A B : Type}

/-! ## Loading -/

/-- `fail_structural`: the exit code 2. -/
def failStructural : Except Abort A := .error .structural

/-- What raises an exception where there is nothing. Which exception it is makes no difference to
the exit code. -/
def orRaise : Option A → Except Abort A
  | none => .error .exception
  | some a => .ok a

/-- `load_index`: a missing index, or one of another format, is a structural failure. A malformed
one is an exception. -/
def loadIndex (d : Tree K) : Except Abort Index :=
  match d.index with
  | .missing => failStructural
  | .malformed => .error .exception
  | .index idx => if idx.format = some "mk-oracle/v1" then .ok idx else failStructural

/-- `load_logits` -/
def loadLogits (d : Tree K) (idx : Index) : Except Abort (List (List (Value K))) := do
  let raw ← orRaise d.logits
  if raw.length ≠ idx.rows * idx.cols then failStructural
  else .ok ((List.range idx.rows).map fun r => (raw.drop (r * idx.cols)).take idx.cols)

/-- `load_nodes_rms`, the last entry first. -/
def loadNodesRms (d : Tree K) : Except Abort (List (Key × Value K)) := do
  let rows ← orRaise d.nodes
  rows.foldlM (fun out row =>
    if row.summary = "ok" then do
      let step ← orRaise row.step
      let rms ← orRaise row.rms
      .ok (((step, row.name), rms) :: out)
    else .ok out) []

/-- `load_files`, the last entry first. -/
def loadFiles (d : Tree K) (kind : String) : Except Abort (List (Key × String × ℤ)) := do
  let rows ← orRaise d.files
  rows.foldlM (fun out row =>
    if row.kind = kind then do
      let step ← orRaise row.step
      if (step, row.name) ∈ out.map Prod.fst then failStructural
      else do
        let nbytes ← orRaise row.nbytes
        .ok (((step, row.name), (row.path, nbytes)) :: out)
    else .ok out) []

/-! ## The lanes -/

/-- The hard and the soft requirements on the two indices. The soft ones may be waived on the
command line. -/
def checkIndices (args : Args K) (idxR idxC : Index) : Except Abort Unit :=
  if idxR.config.nVocab ≠ idxC.config.nVocab ∨ idxR.config.steps ≠ idxC.config.steps ∨
      idxR.config.ctxTokens ≠ idxC.config.ctxTokens then failStructural
  else if idxR.promptTokens ≠ idxC.promptTokens then failStructural
  else if (idxR.config.split ≠ idxC.config.split ∨ idxR.config.nCtx ≠ idxC.config.nCtx) ∧
      ¬ args.allowConfigMismatch then failStructural
  else .ok ()

/-- `next((i for i in range(steps) if tok_r[i] != tok_c[i]), None)`, over what is left of the
range -/
def firstDiff (tokR tokC : List ℤ) : List ℕ → Except Abort (Option ℕ)
  | [] => .ok none
  | i :: is => do
    let r ← orRaise tokR[i]?
    let c ← orRaise tokC[i]?
    if r ≠ c then .ok (some i) else firstDiff tokR tokC is

/-- `n_rows_cmp`: the rows of logits that are compared, the last one being that of the divergence.
-/
def nRowsCmp (steps : ℕ) (div : Option ℕ) : ℕ :=
  match div with
  | none => steps + 1
  | some d => d + 1

/-- `n_steps_cmp`: the steps that the other lanes compare, up to the divergence. -/
def nStepsCmp (steps : ℕ) (div : Option ℕ) : ℕ :=
  match div with
  | none => steps
  | some d => d

/-- Two axes of an operation side by side: of the same extent, or one of extent 1. Where they do not
fit the operation raises. -/
def broadcast (a : List A) (b : List B) : Except Abort (List (A × B)) :=
  if a.length = b.length then .ok (a.zip b)
  else
    match a, b with
    | [x], b => .ok (b.map fun y => (x, y))
    | a, [y] => .ok (a.map fun x => (x, y))
    | _, _ => .error .exception

/-- `log_softmax` of a row, of which the maximum of no values raises. -/
def logSoftmax : List (Value K) → Except Abort (List (Value K))
  | [] => .error .exception
  | x :: xs =>
    let m := amax x xs
    let s := log (sum ((x :: xs).map fun v => exp (v - m)))
    .ok ((x :: xs).map fun v => v - m - s)

/-- `kl_nats`: the divergence of the candidate's distribution from the reference, row by row. -/
def klNats (a b : List (List (Value K))) : Except Abort (List (Value K)) := do
  let la ← a.mapM logSoftmax
  let lb ← b.mapM logSoftmax
  let rows ← broadcast la lb
  rows.mapM fun row => do
    let cols ← broadcast row.1 row.2
    .ok (sum (cols.map fun p => exp p.1 * (p.1 - p.2)))

/-- `np.max` of an array, which raises where there is no value. -/
def maxOf : List (Value K) → Except Abort (Value K)
  | [] => .error .exception
  | x :: xs => .ok (amax x xs)

/-- `xs[i]`, where a negative index counts from the end. -/
def item (xs : List A) (i : ℤ) : Except Abort A :=
  if 0 ≤ i then orRaise xs[i.toNat]?
  else if 0 ≤ xs.length + i then orRaise xs[(xs.length + i).toNat]?
  else .error .exception

/-- The lane of the logits: the greatest divergence over the rows that are compared, against the
tolerance. -/
def logitsLane (args : Args K) (fwd rev : List (Value K)) : Except Abort (List (Violation K)) := do
  let fwdMax ← maxOf fwd
  let revMax ← maxOf rev
  let klMax := pyMax fwdMax revMax
  .ok (if args.klTol < klMax then [.logitsKl klMax] else [])

/-- The lane of the greedy tokens: a divergence is allowed where the logits of the row are as close
as the tolerance asks. -/
def tokenLane (args : Args K) (idxR idxC : Index) (logR logC : List (List (Value K)))
    (fwd rev : List (Value K)) : Option ℕ → Except Abort (List (Violation K))
  | none => .ok []
  | some d => do
    let f ← orRaise fwd[d]?
    let r ← orRaise rev[d]?
    let rowKl := pyMax f r
    let tokR ← orRaise idxR.emittedTokens[d]?
    let tokC ← orRaise idxC.emittedTokens[d]?
    let rowR ← orRaise logR[d]?
    let rowC ← orRaise logC[d]?
    -- the gaps of the two logits are only printed
    let _ ← item rowR tokR
    let _ ← item rowR tokC
    let _ ← item rowC tokC
    let _ ← item rowC tokR
    .ok (if rowKl ≤ args.klTol then [] else [.greedyDivergence d rowKl])

/-- `^l_out-\d+$`, where `$` also matches before a line break at the end. -/
def resid (digit : Char → Bool) (name : String) : Bool :=
  match "l_out-".toList.isPrefixOf name.toList, name.toList.drop 6 with
  | true, rest =>
    let number := if rest.getLast? = some '\n' then rest.dropLast else rest
    number ≠ [] && number.all digit
  | false, _ => false

/-- The keys of the steps that are compared. -/
def keysBelow {V : Type} (n : ℕ) (out : List (Key × V)) : List Key :=
  (out.map Prod.fst).filter fun k => k.1 < n

/-- The keys of the residual stream that are compared, by the names of the nodes. -/
def residKeys {V : Type} (digit : Char → Bool) (n : ℕ) (out : List (Key × V)) : List Key :=
  (keysBelow n out).filter fun k => resid digit k.2

/-- The sets of the two lists are the same. The order in which a file lists its rows does not
matter. -/
def sameKeys (keysR keysC : List Key) : Bool :=
  keysR.all (· ∈ keysC) && keysC.all (· ∈ keysR)

/-- `sorted` of a set of keys -/
def sortedKeys (keys : List Key) : List Key :=
  keys.dedup.mergeSort fun a b => a.1 < b.1 || a.1 = b.1 && a.2 ≤ b.2

/-- `rel`: the difference over the magnitude of the reference. It is 0 of equal values, and infinite
where only the reference is 0. -/
def relDiff (a b : Value K) : Value K :=
  if a.Eq b then fin 0 else if ¬ b.Eq (fin 0) then (a - b).abs / b.abs else posInf

/-- The lane of the residual stream: the greatest relative difference of the RMS values, as a
running maximum. -/
def residualLane (digit : Char → Bool) (args : Args K) (n : ℕ) (rmsR rmsC : List (Key × Value K)) :
    Except Abort (List (Violation K)) := do
  let keysR := residKeys digit n rmsR
  let keysC := residKeys digit n rmsC
  if ¬ sameKeys keysR keysC then failStructural
  else do
    let rels ← (sortedKeys keysR).mapM fun k => do
      let a ← orRaise (rmsC.lookup k)
      let b ← orRaise (rmsR.lookup k)
      .ok (relDiff a b)
    let rmsMax := rels.foldl pyMax (fin (-1))
    .ok (if args.rmsTol < rmsMax then [.residualRms rmsMax] else [])

/-- The key, if its file is not the same in both trees. -/
def mismatch (ref cand : Tree K) (stR stC : List (Key × String × ℤ)) (k : Key) :
    Except Abort (Option Key) := do
  let r ← orRaise (stR.lookup k)
  let c ← orRaise (stC.lookup k)
  if r.2 ≠ c.2 then .ok (some k)
  else do
    let br ← orRaise (ref.content r.1)
    let bc ← orRaise (cand.content c.1)
    .ok (if br = bc then none else some k)

/-- The lane of the DeltaNet states: sizes and hashes, without any tolerance. -/
def stateLane (ref cand : Tree K) (n : ℕ) (stR stC : List (Key × String × ℤ)) :
    Except Abort (List (Violation K)) := do
  let keysR := keysBelow n stR
  let keysC := keysBelow n stC
  if ¬ sameKeys keysR keysC then failStructural
  else do
    let found ← (sortedKeys keysR).mapM (mismatch ref cand stR stC)
    let mismatched := found.filterMap id
    .ok (if mismatched = [] then [] else [.stateMismatch mismatched])

/-- `main` up to the verdict: the list of violations. -/
def violations (digit : Char → Bool) (args : Args K) (ref cand : Tree K) :
    Except Abort (List (Violation K)) := do
  let idxR ← loadIndex ref
  let idxC ← loadIndex cand
  checkIndices args idxR idxC
  let steps := idxR.config.steps
  let div ← firstDiff idxR.emittedTokens idxC.emittedTokens (List.range steps)
  let logR ← loadLogits ref idxR
  let logC ← loadLogits cand idxC
  let lr := logR.take (nRowsCmp steps div)
  let lc := logC.take (nRowsCmp steps div)
  let fwd ← klNats lr lc
  let rev ← klNats lc lr
  let logits ← logitsLane args fwd rev
  let tokens ← tokenLane args idxR idxC logR logC fwd rev div
  let rmsR ← loadNodesRms ref
  let rmsC ← loadNodesRms cand
  let residual ← residualLane digit args (nStepsCmp steps div) rmsR rmsC
  let stR ← loadFiles ref "state"
  let stC ← loadFiles cand "state"
  let state ← stateLane ref cand (nStepsCmp steps div) stR stC
  .ok (logits ++ tokens ++ residual ++ state)

/-- The exit code: 0 without violations, 2 for a structural failure, and 1 for violations, as Python
has it for an exception that nobody catches. -/
def main (digit : Char → Bool) (args : Args K) (ref cand : Tree K) : ℕ :=
  match violations digit args ref cand with
  | .error .structural => 2
  | .error .exception => 1
  | .ok [] => 0
  | .ok _ => 1

end Megakernel.Compare
