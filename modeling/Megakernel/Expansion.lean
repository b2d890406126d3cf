import Megakernel.Packing

/-!
# Packing as an expansion

A packer adds to the output what it would make of an empty one, with the recorded positions moved to
where the output ends (`Packs`). So a program that is packed as a whole is the concatenation of its
instructions packed one by one (`expand`, `packLoop_expand`), and the positions of OP_XCHG_REDUCE
that are recorded on the way are the right ones (`Tracked`).

The lemmas about single packers only say that they are put together from steps that add. What they
put into the payloads does not matter here, but for the arguments of OP_XCHG_REDUCE, which the host
patches.
-/

namespace Megakernel

namespace Packing

open List

/-! ## Outputs one behind the other -/

/-- What is packed by `d` when it comes behind `o`. -/
def PackOut.append (o d : PackOut) : PackOut where
  instrs := o.instrs ++ d.instrs
  fattnIdx := o.fattnIdx ++ d.fattnIdx.map (o.instrs.length + ·)
  xchgIdx := o.xchgIdx ++ d.xchgIdx.map (o.instrs.length + ·)

instance : Monoid PackOut where
  mul := PackOut.append
  one := {}
  mul_one o := by
    change o.append {} = o
    simp [PackOut.append]
  one_mul o := by
    change PackOut.append {} o = o
    simp [PackOut.append]
  mul_assoc a b c := by
    change (a.append b).append c = a.append (b.append c)
    simp [PackOut.append, Function.comp_def, Nat.add_assoc]

/-- Outputs are a monoid in this way. It makes the packing loop a case of `Prog.Appends`. -/
theorem PackOut.mul_def (o d : PackOut) : o * d = o.append d := rfl

theorem PackOut.one_def : (1 : PackOut) = {} := rfl

/-! ## The packers add to the output -/

section Appends

variable {a : Jv Num} {c : PackCtx}

/-- What packs nothing adds nothing, whether it throws or not. -/
theorem appends_lift {α : Type} (x : Except String α) : Prog.Appends (lift x) := fun s =>
  congrArg (Prod.mk x) (mul_one s).symm

theorem appends_pushBack (ins : PackedInstr) : Prog.Appends (pushBack ins) := by
  apply Prog.Appends.act (a := ()) (d := { instrs := [ins] })
  intro s
  simp [PackOut.mul_def, PackOut.append]

theorem appends_noteFattn : Prog.Appends noteFattn := by
  apply Prog.Appends.act (a := ()) (d := { fattnIdx := [0] })
  intro s
  simp [PackOut.mul_def, PackOut.append]

theorem appends_noteXchg : Prog.Appends noteXchg := by
  apply Prog.Appends.act (a := ()) (d := { xchgIdx := [0] })
  intro s
  simp [PackOut.mul_def, PackOut.append]

theorem appends_emit (c : PackCtx) (ms : List (List CStruct.Byte)) : Prog.Appends (emit c ms) :=
  appends_pushBack _

theorem appends_packOne (f : Jv Num → PackCtx → Except String (List (List CStruct.Byte))) :
    Prog.Appends (packOne f a c) :=
  (appends_lift _).bind fun _ => appends_emit c _

theorem appends_packQkNormRope : Prog.Appends (packQkNormRope a c) :=
  (appends_lift _).bind fun _ => (appends_lift _).bind fun _ => (appends_emit c _).bind fun _ =>
    (appends_lift _).bind fun _ => appends_emit c _

theorem appends_packKvAppend : Prog.Appends (packKvAppend a c) :=
  (appends_lift _).bind fun _ => (appends_lift _).bind fun _ => (appends_lift _).bind fun _ =>
    (appends_emit c _).bind fun _ => (appends_lift _).bind fun _ => appends_emit c _

theorem appends_packFattnDecode : Prog.Appends (packFattnDecode a c) :=
  (appends_lift _).bind fun _ => appends_noteFattn.bind fun _ => appends_emit c _

theorem appends_packXchgReduce : Prog.Appends (packXchgReduce a c) :=
  (appends_lift _).bind fun _ => appends_noteXchg.bind fun _ => appends_emit c _

end Appends

/-! ## What a kind expands to -/

/-- How many instructions a kind becomes. -/
def width : MacroKind → ℕ
  | .qkNormRope => 2
  | .kvAppend => 2
  | _ => 1

/-- The members of the arguments of OP_XCHG_REDUCE, all but `seqno`. -/
structure XchgReduce : Type where
  localPartial : Ptr
  myPayload : Ptr
  out : Ptr
  peerSeqno : Ptr
  mySeqno : Ptr
  nElems : ℤ
  gpuIndex : ℤ

/-- The members with a `seqno`. -/
def XchgReduce.members (x : XchgReduce) (seqno : BitVec 32) : List (List CStruct.Byte) :=
  xchgReduceArgs x.localPartial x.myPayload x.out x.peerSeqno x.mySeqno x.nElems seqno x.gpuIndex

/-- What a packer makes of an instruction of kind `k`. -/
structure Expands (k : MacroKind) (proto : PackedInstr) (d : PackOut) : Prop where
  length : d.instrs.length = width k
  header : ∀ ins ∈ d.instrs, ∃ payload, ins = { proto with payload := payload }
  xchg : d.xchgIdx = if k = .xchgReduce then [0] else []
  /-- with `seqno` 0 -/
  reduce : k = .xchgReduce → ∃ x : XchgReduce, d.instrs = [withPayload proto (x.members 0)]

/-- A packer that adds to the output, and adds an expansion unless it throws. All packers of the
table are (`packs_of_mem`). -/
structure Packs (k : MacroKind) (m : Packer) (proto : PackedInstr) : Prop where
  appends : Prog.Appends m
  expands : ∀ d, m 1 = (.ok (), d) → Expands k proto d

section Packs

variable {k : MacroKind} {a : Jv Num} {c : PackCtx} {s s' : PackOut}

theorem except_bind_ok {α β : Type} {x : Except String α} {f : α → Except String β} {r : β} :
    (x >>= f) = .ok r ↔ ∃ y, x = .ok y ∧ f y = .ok r := by
  cases x with
  | error e => simp [bind, Except.bind]
  | ok y => simp [bind, Except.bind]

theorem lift_eq_ok {α : Type} {x : Except String α} {y : α} :
    lift x s = (.ok y, s') ↔ x = .ok y ∧ s' = s := by
  simp [lift, eq_comm]

theorem emit_eq_ok {ms : List (List CStruct.Byte)} :
    emit c ms s = (.ok (), s') ↔
      s' = { s with instrs := s.instrs ++ [withPayload c.proto ms] } := by
  simp [emit, pushBack, Prog.act, eq_comm]

/-- One instruction, of a kind that is not patched. -/
theorem expands_one (hwidth : width k = 1) (hk : k ≠ .xchgReduce) {proto ins : PackedInstr}
    (hins : ∃ payload, ins = { proto with payload := payload }) (idx : List ℕ) :
    Expands k proto { instrs := [ins], fattnIdx := idx } where
  length := hwidth.symm
  header := forall_mem_singleton.mpr hins
  xchg := (if_neg hk).symm
  reduce h := absurd h hk

/-- Two instructions, of a kind that is not patched. -/
theorem expands_two (hwidth : width k = 2) (hk : k ≠ .xchgReduce) {proto : PackedInstr}
    (ms₁ ms₂ : List (List CStruct.Byte)) :
    Expands k proto { instrs := [withPayload proto ms₁, withPayload proto ms₂] } where
  length := hwidth.symm
  header := forall_mem_cons.mpr ⟨⟨_, rfl⟩, forall_mem_singleton.mpr ⟨_, rfl⟩⟩
  xchg := (if_neg hk).symm
  reduce h := absurd h hk

/-- A packer that emits one instruction, whatever its members are. The kinds that emit two, or that
record a position, have lemmas of their own. -/
theorem packs_packOne {f : Jv Num → PackCtx → Except String (List (List CStruct.Byte))}
    (hwidth : width k = 1) (hk : k ≠ .xchgReduce) : Packs k (packOne f a c) c.proto where
  appends := appends_packOne f
  expands d h := by
    obtain ⟨ms, s₁, hms, h⟩ := Prog.bind_eq_ok.mp h
    obtain ⟨-, rfl⟩ := lift_eq_ok.mp hms
    rw [emit_eq_ok.mp h]
    exact expands_one hwidth hk ⟨_, rfl⟩ []

theorem packs_packGemvF16Common {n : ℤ} (hwidth : width k = 1) (hk : k ≠ .xchgReduce) :
    Packs k (packGemvF16Common n a c) c.proto := packs_packOne hwidth hk

theorem packs_packMmvqCommon (hwidth : width k = 1) (hk : k ≠ .xchgReduce) :
    Packs k (packMmvqCommon a c) c.proto := packs_packOne hwidth hk

theorem packs_pushBack_proto (hwidth : width k = 1) (hk : k ≠ .xchgReduce) :
    Packs k (pushBack c.proto) c.proto where
  appends := appends_pushBack _
  expands d h := by
    obtain rfl : { instrs := [c.proto] } = d := congrArg Prod.snd h
    exact expands_one hwidth hk ⟨_, rfl⟩ []

/-- A kind that is not supported always throws, so what it would expand to does not matter. -/
theorem packs_packUnsupported : Packs k (packUnsupported a c) c.proto where
  appends := Prog.Appends.fail _
  expands d h := by cases h

theorem packs_packQkNormRope : Packs .qkNormRope (packQkNormRope a c) c.proto where
  appends := appends_packQkNormRope
  expands d h := by
    obtain ⟨pos, s₁, hpos, h⟩ := Prog.bind_eq_ok.mp h
    obtain ⟨-, rfl⟩ := lift_eq_ok.mp hpos
    obtain ⟨q, s₂, hq, h⟩ := Prog.bind_eq_ok.mp h
    obtain ⟨-, rfl⟩ := lift_eq_ok.mp hq
    obtain ⟨_, s₃, hemit, h⟩ := Prog.bind_eq_ok.mp h
    obtain rfl := emit_eq_ok.mp hemit
    obtain ⟨k, s₄, hk, h⟩ := Prog.bind_eq_ok.mp h
    obtain ⟨-, rfl⟩ := lift_eq_ok.mp hk
    rw [emit_eq_ok.mp h]
    exact expands_two rfl (by decide) q k

theorem packs_packKvAppend : Packs .kvAppend (packKvAppend a c) c.proto where
  appends := appends_packKvAppend
  expands d h := by
    obtain ⟨row, s₁, hrow, h⟩ := Prog.bind_eq_ok.mp h
    obtain ⟨-, rfl⟩ := lift_eq_ok.mp hrow
    obtain ⟨rw', s₂, hrw, h⟩ := Prog.bind_eq_ok.mp h
    obtain ⟨-, rfl⟩ := lift_eq_ok.mp hrw
    obtain ⟨kk, s₃, hkk, h⟩ := Prog.bind_eq_ok.mp h
    obtain ⟨-, rfl⟩ := lift_eq_ok.mp hkk
    obtain ⟨_, s₄, hemit, h⟩ := Prog.bind_eq_ok.mp h
    obtain rfl := emit_eq_ok.mp hemit
    obtain ⟨vv, s₅, hvv, h⟩ := Prog.bind_eq_ok.mp h
    obtain ⟨-, rfl⟩ := lift_eq_ok.mp hvv
    rw [emit_eq_ok.mp h]
    exact expands_two rfl (by decide) kk vv

theorem packs_packFattnDecode : Packs .fattnDecode (packFattnDecode a c) c.proto where
  appends := appends_packFattnDecode
  expands d h := by
    obtain ⟨ms, s₁, hms, h⟩ := Prog.bind_eq_ok.mp h
    obtain ⟨-, rfl⟩ := lift_eq_ok.mp hms
    obtain ⟨_, s₂, hnote, h⟩ := Prog.bind_eq_ok.mp h
    obtain rfl : { fattnIdx := [0] } = s₂ := congrArg Prod.snd hnote
    rw [emit_eq_ok.mp h]
    exact expands_one rfl (by decide) ⟨_, rfl⟩ [0]

/-- The only packer that records a position in `xchg_idx`, which is that of the instruction it then
emits. -/
theorem packs_packXchgReduce : Packs .xchgReduce (packXchgReduce a c) c.proto where
  appends := appends_packXchgReduce
  expands d h := by
    obtain ⟨ms, s₁, hms, h⟩ := Prog.bind_eq_ok.mp h
    obtain ⟨hargs, rfl⟩ := lift_eq_ok.mp hms
    obtain ⟨_, s₂, hnote, h⟩ := Prog.bind_eq_ok.mp h
    obtain rfl : { xchgIdx := [0] } = s₂ := congrArg Prod.snd hnote
    rw [emit_eq_ok.mp h]
    refine ⟨rfl, forall_mem_singleton.mpr ⟨_, rfl⟩, rfl, fun _ => ?_⟩
    -- the members in the order in which the packer comes to them
    simp only [except_bind_ok] at hargs
    obtain ⟨localPartial, -, myPayload, -, out, -, peerSeqno, -, mySeqno, -, nElems, -, hargs⟩ :=
      hargs
    obtain rfl := Except.ok.inj hargs
    exact ⟨⟨localPartial, myPayload, out, peerSeqno, mySeqno, nElems, c.gpuIndex⟩, rfl⟩

/-- Every kind of the table. -/
theorem packs_of_mem {e : KindEntry} (he : e ∈ kindTable) (a : Jv Num) (c : PackCtx) :
    Packs e.kind (e.pack a c) c.proto := by
  simp only [kindTable, mem_cons, not_mem_nil, or_false] at he
  rcases he with rfl | rfl | rfl | rfl | rfl | rfl | rfl | rfl | rfl | rfl | rfl | rfl | rfl | rfl |
    rfl | rfl | rfl | rfl | rfl | rfl | rfl | rfl | rfl | rfl | rfl | rfl | rfl
  all_goals dsimp only
  all_goals first
    | exact packs_packOne rfl (by decide)
    | exact packs_packGemvF16Common rfl (by decide)
    | exact packs_packMmvqCommon rfl (by decide)
    | exact packs_pushBack_proto rfl (by decide)
    | exact packs_packQkNormRope
    | exact packs_packKvAppend
    | exact packs_packFattnDecode
    | exact packs_packUnsupported
    | exact packs_packXchgReduce

end Packs

/-! ## The output of a program -/

section Track

variable {o d : PackOut} {proto : PackedInstr} {k : MacroKind}

/-- The recorded positions are those of the instructions to be patched, and these have the arguments
of OP_XCHG_REDUCE. -/
structure Tracked (o : PackOut) : Prop where
  recorded : ∀ i, i ∈ o.xchgIdx ↔ ∃ ins, o.instrs[i]? = some ins ∧ ins.Is .xchgReduce
  reduce : ∀ ins ∈ o.instrs, ins.Is .xchgReduce →
    ∃ (proto : PackedInstr) (x : XchgReduce), ins = withPayload proto (x.members 0)

/-- Nothing is tracked in an empty output. -/
theorem tracked_one : Tracked 1 where
  recorded i := by simp [PackOut.one_def]
  reduce ins h := by cases h

/-- Two tracked outputs one behind the other are tracked: the positions in the second are moved on
by the length of the first. -/
theorem Tracked.mul (ho : Tracked o) (hd : Tracked d) : Tracked (o * d) where
  recorded i := by
    simp only [PackOut.mul_def, PackOut.append, mem_append, mem_map, ho.recorded, hd.recorded]
    constructor
    · rintro (⟨ins, hins, his⟩ | ⟨j, ⟨ins, hins, his⟩, rfl⟩)
      · exact ⟨ins, (getElem?_append_left (List.getElem?_eq_some_iff.mp hins).1).trans hins, his⟩
      · exact ⟨ins, by rwa [getElem?_append_right (Nat.le_add_right _ _), Nat.add_sub_cancel_left],
          his⟩
    · rintro ⟨ins, hins, his⟩
      obtain hlt | hge := lt_or_ge i o.instrs.length
      · exact .inl ⟨ins, (getElem?_append_left hlt).symm.trans hins, his⟩
      · refine .inr ⟨i - o.instrs.length, ⟨ins, ?_, his⟩, Nat.add_sub_cancel' hge⟩
        rwa [← getElem?_append_right hge]
  reduce ins hins his := by
    obtain h | h := mem_append.mp hins
    · exact ho.reduce ins h his
    · exact hd.reduce ins h his

/-- The codes of the kinds are different 16-bit numbers. -/
theorem ofNat_code_inj {k k' : MacroKind} (h : BitVec.ofNat 16 k.code = BitVec.ofNat 16 k'.code) :
    k = k' := by
  have hlt := k.code_lt
  have hlt' := k'.code_lt
  have hnat := congrArg BitVec.toNat h
  rw [BitVec.toNat_ofNat, BitVec.toNat_ofNat, opKindCount] at *
  rw [Nat.mod_eq_of_lt (by omega), Nat.mod_eq_of_lt (by omega)] at hnat
  rw [← MacroKind.ofNat_ctorIdx k, ← MacroKind.ofNat_ctorIdx k']
  exact congrArg _ hnat

/-- All instructions of an expansion have the kind of their source. -/
theorem Expands.is_iff (h : Expands k proto d) (hproto : proto.kind = BitVec.ofNat 16 k.code)
    {ins : PackedInstr} (hins : ins ∈ d.instrs) (k' : MacroKind) : ins.Is k' ↔ k = k' := by
  obtain ⟨payload, rfl⟩ := h.header ins hins
  constructor
  · intro his
    exact ofNat_code_inj (hproto.symm.trans his)
  · rintro rfl
    exact hproto

/-- So every expansion is tracked, that of OP_XCHG_REDUCE because its position is recorded, the
others because they have nothing to record. -/
theorem Expands.tracked (h : Expands k proto d) (hproto : proto.kind = BitVec.ofNat 16 k.code) :
    Tracked d := by
  by_cases hk : k = .xchgReduce
  · obtain ⟨x, hx⟩ := h.reduce hk
    refine ⟨fun i => ?_, fun ins hins _ => ?_⟩
    · rw [h.xchg, if_pos hk, hx, mem_singleton]
      constructor
      · rintro rfl
        exact ⟨_, rfl, hproto.trans (hk ▸ rfl)⟩
      · rintro ⟨ins, hins, -⟩
        simpa using (List.getElem?_eq_some_iff.mp hins).1
    · rw [hx, mem_singleton] at hins
      exact ⟨proto, x, hins⟩
  · refine ⟨fun i => ?_, fun ins hins his => ?_⟩
    · rw [h.xchg, if_neg hk]
      refine ⟨fun hi => absurd hi not_mem_nil, ?_⟩
      rintro ⟨ins, hins, his⟩
      exact absurd ((h.is_iff hproto (mem_of_getElem? hins) _).mp his) hk
    · exact absurd ((h.is_iff hproto hins _).mp his) hk

end Track

/-! ## Positions in a concatenation -/

/-- If the sources with `Q` become one element, which has `P`, and the others become elements
without, then the elements with `P` stand where the parts of the sources with `Q` begin. -/
theorem getElem?_flatten_iff {A B : Type} {P : B → Prop} {Q : A → Prop} {l : List A}
    {parts : List (List B)}
    (h : Forall₂ (fun a part => (Q a → ∃ b, part = [b] ∧ P b) ∧
      (¬ Q a → ∀ b ∈ part, ¬ P b)) l parts)
    (p : ℕ) :
    (∃ b, parts.flatten[p]? = some b ∧ P b) ↔
      ∃ (i : ℕ) (a : A), l[i]? = some a ∧ Q a ∧ p = ((parts.take i).map length).sum := by
  induction h generalizing p with
  | nil => simp
  | @cons a part l parts hap h ih =>
    obtain ⟨hone, hnone⟩ := hap
    rw [flatten_cons]
    constructor
    · rintro ⟨b, hb, hP⟩
      obtain hlt | hge := lt_or_ge p part.length
      · rw [getElem?_append_left hlt] at hb
        have hQ : Q a := by
          by_contra hQ
          exact hnone hQ b (mem_of_getElem? hb) hP
        obtain ⟨b', rfl, -⟩ := hone hQ
        rw [length_singleton] at hlt
        exact ⟨0, a, rfl, hQ, Nat.lt_one_iff.mp hlt⟩
      · rw [getElem?_append_right hge] at hb
        obtain ⟨i, a', hi, hQ, hp⟩ := (ih (p - part.length)).mp ⟨b, hb, hP⟩
        refine ⟨i + 1, a', hi, hQ, ?_⟩
        rw [take_succ_cons, map_cons, sum_cons, ← hp, Nat.add_sub_cancel' hge]
    · rintro ⟨_ | i, a', hi, hQ, hp⟩
      · obtain rfl : a = a' := Option.some.inj hi
        obtain ⟨b, rfl, hP⟩ := hone hQ
        obtain rfl : p = 0 := hp
        exact ⟨b, rfl, hP⟩
      · rw [take_succ_cons, map_cons, sum_cons] at hp
        obtain ⟨b, hb, hP⟩ := (ih (p - part.length)).mpr ⟨i, a', hi, hQ, by omega⟩
        refine ⟨b, ?_, hP⟩
        rwa [getElem?_append_right (by omega)]

/-! ## A program and its parts -/

/-- The kind that an instruction of program.json names. -/
def kindOf (ij : Jv Num) : Option MacroKind :=
  match ij.atKey "kind" with
  | .ok kname => (kindByName kname.text).map KindEntry.kind
  | .error _ => none

/-- A name that is found is in the table. -/
theorem mem_of_kindByName {raw : String} {e : KindEntry} (h : kindByName raw = some e) :
    e ∈ kindTable := by
  rw [kindByName] at h
  exact mem_of_find?_eq_some h

/-- A number that a 16-bit field holds. -/
def FitsField (ij : Jv Num) (key : String) (n : ℕ) : Prop :=
  ∃ x q, ij.get key = some (.num x) ∧ x.value = .fin q ∧ truncate q = n ∧ n < 2 ^ 16

/-- An instruction of program.json and what it becomes: instructions with its kind and its blocks,
as the 16-bit fields hold them, one or two according to the kind. -/
structure IsExpansion (ij : Jv Num) (part : List PackedInstr) (k : MacroKind) : Prop where
  kind : kindOf ij = some k
  length : part.length = width k
  header : ∃ lo hi : ℤ, argI ij "block_lo" = .ok lo ∧ argI ij "block_hi" = .ok hi ∧
    ∀ ins ∈ part, ins.kind = BitVec.ofNat 16 k.code ∧ ins.blockLo = BitVec.ofInt 16 lo ∧
      ins.blockHi = BitVec.ofInt 16 hi
  /-- a range that the fields hold is that of the source -/
  blocks : ∀ ins ∈ part, (∀ n, FitsField ij "block_lo" n → ins.blockLo.toNat = n) ∧
    ∀ n, FitsField ij "block_hi" n → ins.blockHi.toNat = n

/-- A number that the field holds goes into it unchanged. -/
theorem FitsField.toNat_ofInt {ij : Jv Num} {key : String} {n : ℕ} (h : FitsField ij key n) {z : ℤ}
    (hz : argI ij key = .ok z) : (BitVec.ofInt 16 z).toNat = n := by
  obtain ⟨x, q, hget, hq, htrunc, hlt⟩ := h
  have hint : x.toI64.toInt = n := by
    rw [Num.toInt_toI64 hq (by omega) (by omega), htrunc]
  rw [argI, Jv.atKey, hget] at hz
  obtain rfl : x.toI64.toInt = z := Except.ok.inj hz
  rw [hint, BitVec.ofInt_natCast, BitVec.toNat_ofNat, Nat.mod_eq_of_lt hlt]

/-- The header of an instruction: its kind, and its blocks as 16-bit fields hold them. -/
theorem kind_of_protoOf {k : MacroKind} {ij : Jv Num} {proto : PackedInstr}
    (h : protoOf k ij = .ok proto) :
    ∃ lo hi : ℤ, argI ij "block_lo" = .ok lo ∧ argI ij "block_hi" = .ok hi ∧
      proto.kind = BitVec.ofNat 16 k.code ∧ proto.blockLo = BitVec.ofInt 16 lo ∧
      proto.blockHi = BitVec.ofInt 16 hi := by
  simp only [protoOf, except_bind_ok] at h
  obtain ⟨lo, hlo, hi, hhi, flags, -, h⟩ := h
  refine ⟨lo, hi, hlo, hhi, ?_⟩
  split at h
  · obtain ⟨dbgNode, -, h⟩ := except_bind_ok.mp h
    obtain rfl := Except.ok.inj h
    exact ⟨rfl, rfl, rfl⟩
  · obtain ⟨dbgNode, -, h⟩ := except_bind_ok.mp h
    obtain rfl := Except.ok.inj h
    exact ⟨rfl, rfl, rfl⟩

section Program

variable (R : Resolver) (mbox : Option (String → Option Ptr)) (gpuIndex : ℤ)

/-- An instruction packed on its own. -/
def expand (ij : Jv Num) : Except String (List PackedInstr) := do
  let kname ← ij.atKey "kind"
  match kindByName kname.text with
  | none => .error s!"unknown kind '{kname.text}'"
  | some ke =>
    let proto ← protoOf ke.kind ij
    match ke.pack ((ij.get "args").getD .nul) ⟨R, proto, mbox, gpuIndex⟩ {} with
    | (.ok _, o) => .ok o.instrs
    | (.error e, _) => .error e

variable {R mbox gpuIndex}

/-- The loop does not fail at an instruction: it adds what the instruction expands to. -/
theorem packLoop_cons {i : ℕ} {ij : Jv Num} {rest : List (Jv Num)} {out out' : PackedProgram}
    (h : packLoop R mbox gpuIndex i (ij :: rest) out = .ok out') (hout : out.complete = false)
    (hout' : out'.complete = true) :
    ∃ k proto d, kindOf ij = some k ∧ protoOf k ij = .ok proto ∧
      expand R mbox gpuIndex ij = .ok d.instrs ∧ Expands k proto d ∧
      packLoop R mbox gpuIndex (i + 1) rest { out with toPackOut := out.toPackOut * d } =
        .ok out' := by
  rw [packLoop] at h
  obtain ⟨kname, hkname, h⟩ := except_bind_ok.mp h
  rcases hke : kindByName kname.text with _ | ke
  · simp only [hke] at h
    obtain rfl := Except.ok.inj h
    exact absurd (hout.symm.trans hout') Bool.false_ne_true
  · simp only [hke] at h
    obtain ⟨proto, hproto, h⟩ := except_bind_ok.mp h
    have hpacks := packs_of_mem (mem_of_kindByName hke) ((ij.get "args").getD .nul)
      ⟨R, proto, mbox, gpuIndex⟩
    rw [hpacks.appends out.toPackOut] at h
    rcases hone : ke.pack ((ij.get "args").getD .nul) ⟨R, proto, mbox, gpuIndex⟩ 1 with ⟨e | u, d⟩
    · simp only [hone] at h
      obtain rfl := Except.ok.inj h
      exact absurd (hout.symm.trans hout') Bool.false_ne_true
    · simp only [hone] at h
      refine ⟨ke.kind, proto, d, ?_, hproto, ?_, hpacks.expands d hone, h⟩
      · simp only [kindOf, hkname, hke, Option.map_some]
      · refine except_bind_ok.mpr ⟨kname, hkname, ?_⟩
        simp only [hke]
        refine except_bind_ok.mpr ⟨proto, hproto, ?_⟩
        rw [← PackOut.one_def, hone]

/-- **A program is the concatenation of its instructions packed one by one.** -/
theorem packLoop_expand {l : List (Jv Num)} {i : ℕ} {out out' : PackedProgram}
    (h : packLoop R mbox gpuIndex i l out = .ok out') (hout : out.complete = false)
    (hout' : out'.complete = true) :
    ∃ parts, l.mapM (expand R mbox gpuIndex) = .ok parts ∧
      out'.instrs = out.instrs ++ parts.flatten ∧
      Forall₂ (fun ij part => ∃ k, IsExpansion ij part k) l parts ∧
      (Tracked out.toPackOut → Tracked out'.toPackOut) := by
  induction l generalizing i out with
  | nil =>
    obtain rfl := Except.ok.inj h
    exact ⟨[], rfl, (append_nil _).symm, Forall₂.nil, id⟩
  | cons ij rest ih =>
    obtain ⟨k, proto, d, hk, hproto, hexpand, hd, hrest⟩ := packLoop_cons h hout hout'
    obtain ⟨parts, hparts, hinstrs, hall, htracked⟩ := ih hrest hout
    obtain ⟨lo, hi, hlo, hhi, hkind, hblockLo, hblockHi⟩ := kind_of_protoOf hproto
    have hheader : ∀ ins ∈ d.instrs, ins.kind = BitVec.ofNat 16 k.code ∧
        ins.blockLo = BitVec.ofInt 16 lo ∧ ins.blockHi = BitVec.ofInt 16 hi := by
      intro ins hins
      obtain ⟨payload, rfl⟩ := hd.header ins hins
      exact ⟨hkind, hblockLo, hblockHi⟩
    refine ⟨d.instrs :: parts, ?_, ?_,
      Forall₂.cons ⟨k, hk, hd.length, ⟨lo, hi, hlo, hhi, hheader⟩, fun ins hins => ?_⟩ hall,
      fun ho => htracked (ho.mul (hd.tracked hkind))⟩
    · rw [mapM_cons, hexpand, hparts]
      rfl
    · rw [hinstrs, flatten_cons, ← append_assoc]
      rfl
    · obtain ⟨-, hinsLo, hinsHi⟩ := hheader ins hins
      rw [hinsLo, hinsHi]
      exact ⟨fun n hn => hn.toNat_ofInt hlo, fun n hn => hn.toNat_ofInt hhi⟩

end Program

end Packing

end Megakernel
