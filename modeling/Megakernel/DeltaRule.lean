import Mathlib.Data.Matrix.Mul

/-!
# The gated delta rule

A linear-attention head keeps a matrix as its state, indexed by the elements of keys and
the elements of values. A token takes what the decayed state tells about its key,
corrects the state by the difference to its value, and asks the new state with its
query. Over a sequence of tokens the state is the left fold of the step
(`DeltaRule.run`).

It is an iteration over matrices and nothing more; what it has to do with warps, lanes and buffers
is the subject of `GdnStep`.
-/

namespace DeltaRule

open Matrix

variable {ι κ R : Type*}

/-- What a head is given for a token: query, key and value, and the two numbers that the gates have
made. -/
structure Token (ι κ R : Type*) : Type _ where
  q : ι → R
  k : ι → R
  v : κ → R
  /-- the decay of the state -/
  g : R
  /-- the strength of the correction -/
  beta : R

variable [CommRing R] [Fintype ι] (S : Matrix ι κ R) (x : Token ι κ R)

/-- The correction for a token: its value less what the decayed state tells about its key, times the
strength of the correction. -/
def delta : κ → R := x.beta • (x.v - x.g • (Sᵀ *ᵥ x.k))

/-- The state after a token: the decayed state, plus the outer product of key and correction. -/
def step : Matrix ι κ R := x.g • S + vecMulVec x.k (delta S x)

/-- What the head puts out for a token. -/
def out (scale : R) : κ → R := scale • ((step S x)ᵀ *ᵥ x.q)

/-- The state after a sequence of tokens, as a left fold, so that a longer sequence is one more
step. -/
def run (tokens : List (Token ι κ R)) : Matrix ι κ R := tokens.foldl step S

theorem delta_apply (c : κ) : delta S x c = (x.v c - x.g * ∑ i, S i c * x.k i) * x.beta :=
  mul_comm _ _

theorem step_apply (i : ι) (c : κ) : step S x i c = x.g * S i c + x.k i * delta S x c := rfl

theorem out_apply (scale : R) (c : κ) :
    out S x scale c = (∑ i, step S x i c * x.q i) * scale := mul_comm _ _

@[simp] theorem run_nil : run S [] = S := rfl

@[simp] theorem run_concat (tokens : List (Token ι κ R)) :
    run S (tokens ++ [x]) = step (run S tokens) x := by
  rw [run, List.foldl_append]
  rfl

end DeltaRule
