import Megakernel.Programs

/-!
# Decoders

A decoder is a program over states that stand in front of an input. `Decodes R m bs a` says
that `m` returns `a` wherever the input goes on with `bs`, and then stands behind it; `R` is
how a state stands in front of an input. The rules follow the constructs of a program, so
that what a format writes one behind the other is decoded one after the other.

The relation `R` keeps the rules independent of how a reader represents its place in the input; for
the GGUF reader it is a cursor into a mapped file (`Stands`).
-/

namespace Prog

variable {ε σ α β B : Type} {R : σ → List B → Prop}

/-- In front of `bs` the program returns `a`, and comes to stand behind. What follows `bs` is
arbitrary, so that decoders of parts make up a decoder of the whole. -/
def Decodes (R : σ → List B → Prop) (m : Prog ε σ α) (bs : List B) (a : α) : Prop :=
  ∀ s rest, R s (bs ++ rest) → ∃ s', m s = (.ok a, s') ∧ R s' rest

theorem Decodes.pure (R : σ → List B → Prop) (a : α) : Decodes R (pure a : Prog ε σ α) [] a :=
  fun s _ hs => ⟨s, rfl, hs⟩

/-- One piece behind the other. -/
theorem Decodes.bind {m : Prog ε σ α} {f : α → Prog ε σ β} {bs bs' : List B} {a : α} {b : β}
    (hm : Decodes R m bs a) (hf : Decodes R (f a) bs' b) : Decodes R (m >>= f) (bs ++ bs') b := by
  intro s rest hs
  rw [List.append_assoc] at hs
  obtain ⟨s₁, hm, hs₁⟩ := hm s (bs' ++ rest) hs
  obtain ⟨s₂, hf, hs₂⟩ := hf s₁ rest hs₁
  exact ⟨s₂, bind_eq_ok.mpr ⟨a, s₁, hm, hf⟩, hs₂⟩

/-- A last step that reads nothing. -/
theorem Decodes.map {m : Prog ε σ α} {f : α → β} {bs : List B} {a : α} (hm : Decodes R m bs a) :
    Decodes R (m >>= fun x => Pure.pure (f x)) bs (f a) := by
  have h := hm.bind (f := fun x => (Pure.pure (f x) : Prog ε σ β)) (Decodes.pure R (f a))
  rwa [List.append_nil] at h

/-- A step that reads nothing, first. -/
theorem Decodes.bind_nil {m : Prog ε σ α} {f : α → Prog ε σ β} {bs : List B} {a : α} {b : β}
    (hm : Decodes R m [] a) (hf : Decodes R (f a) bs b) : Decodes R (m >>= f) bs b :=
  hm.bind hf

theorem Decodes.failIf {c : Prop} [Decidable c] (hc : ¬ c) (e : ε) :
    Decodes R (failIf c e) [] () := fun s _ hs => ⟨s, by rw [Prog.failIf, if_neg hc]; rfl, hs⟩

/-- A list of pieces, each decoded by the same program. -/
theorem Decodes.times {m : Prog ε σ α} {enc : β → List B} {dec : β → α} :
    ∀ {l : List β}, (∀ x ∈ l, Decodes R m (enc x) (dec x)) →
      Decodes R (m.times l.length) (l.flatMap enc) (l.map dec)
  | [], _ => Decodes.pure R []
  | x :: l, h => by
    obtain ⟨hx, hl⟩ := List.forall_mem_cons.mp h
    exact hx.bind (Decodes.times hl).map

/-- A program for each element of a list that reads nothing. -/
theorem Decodes.forEach {γ : Type} {f : α → Prog ε σ β} {h : γ → α} {g : γ → β} :
    ∀ {l : List γ}, (∀ c ∈ l, Decodes R (f (h c)) [] (g c)) →
      Decodes R (forEach f (l.map h)) [] (l.map g)
  | [], _ => Decodes.pure R []
  | c :: l, hl => by
    obtain ⟨hc, hl⟩ := List.forall_mem_cons.mp hl
    exact hc.bind (Decodes.forEach hl).map

/-! ## Programs that decode -/

/-- From `s` the program returns `a`, with some state that does not matter any more. -/
def Returns (m : Prog ε σ α) (s : σ) (a : α) : Prop := ∃ s', m s = (.ok a, s')

/-- A program that begins with a decoder goes on behind what that reads. -/
theorem Decodes.returns {m : Prog ε σ α} {f : α → Prog ε σ β} {bs rest : List B} {a : α} {b : β}
    {s : σ} (hm : Decodes R m bs a) (hs : R s (bs ++ rest))
    (hf : ∀ s', R s' rest → Returns (f a) s' b) : Returns (m >>= f) s b := by
  obtain ⟨s₁, hm, hs₁⟩ := hm s rest hs
  obtain ⟨s₂, hf⟩ := hf s₁ hs₁
  exact ⟨s₂, bind_eq_ok.mpr ⟨a, s₁, hm, hf⟩⟩

/-- A step that reads nothing. -/
theorem Decodes.returns_nil {m : Prog ε σ α} {f : α → Prog ε σ β} {bs : List B} {a : α} {b : β}
    {s : σ} (hm : Decodes R m [] a) (hs : R s bs) (hf : ∀ s', R s' bs → Returns (f a) s' b) :
    Returns (m >>= f) s b :=
  hm.returns hs hf

/-- A step that looks at the state. -/
theorem Returns.act_bind {g : σ → α} {f : α → Prog ε σ β} {s : σ} {b : β}
    (hf : Returns (f (g s)) s b) : Returns (act (fun s => (g s, s)) >>= f) s b := hf

end Prog
