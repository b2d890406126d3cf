import Megakernel.Decoding
import Megakernel.GgufImage

/-!
# GGUF files are read back

The reader of `k0/gguf.h` on the bytes of a well-formed file. What the format writes one
behind the other is decoded one after the other (`Prog.Decodes`), so every part has its own
lemma, and the cursor is where the next part begins.

The proof follows `parse` from top to bottom. Only two places need an argument of their own: the
alignment, which is looked up from the end of the entries, and the data, of which the reader
computes the place and the image has the bytes.
-/

namespace Megakernel

namespace Gguf

open List Prog

/-! ## Numbers -/

section Numbers

/-- Little-endian bytes are read back as the number they were made from, as long as it fits. -/
theorem leValue_leBytes {k v : ℕ} (h : v < 256 ^ k) : leValue (leBytes k v) = v := by
  induction k generalizing v with
  | zero => exact (Nat.lt_one_iff.mp h).symm
  | succ k ih =>
    have hdiv : v / 256 < 256 ^ k := by
      rw [Nat.pow_succ] at h
      exact Nat.div_lt_of_lt_mul (by rwa [Nat.mul_comm])
    have htail : leBytes (k + 1) v = UInt8.ofNat v :: leBytes k (v / 256) := by
      rw [leBytes, range_succ_eq_map, map_cons, map_map, leBytes, Nat.pow_zero, Nat.div_one]
      congr 1
      apply map_congr_left
      intro i _
      simp only [Function.comp_apply, Nat.div_div_eq_div_mul, Nat.pow_succ']
    have hmod := Nat.mod_add_div v 256
    rw [htail, leValue, ih hdiv, UInt8.toNat_ofNat']
    exact hmod

@[simp] theorem length_leBytes (k v : ℕ) : (leBytes k v).length = k := by
  rw [leBytes, length_map, length_range]

/-- A signed number is stored as its two's complement and sign-extended when it is read. -/
theorem signed_toNat {w : ℕ} (k : ℕ) (x : BitVec w) (h : w = 8 * k) :
    signed k x.toNat = x.toInt := by
  subst h
  rw [signed, BitVec.ofNat_toNat, BitVec.setWidth_eq]

end Numbers

/-! ## The cursor -/

section Decode

variable {lim : Limits} {file : Mapped}

/-- The cursor stands in front of `l`: what follows it in the file begins with `l`. -/
def Stands (file : Mapped) (c : Cursor) (l : Bytes) : Prop :=
  c.cur ≤ file.size ∧ file.bytes.drop c.cur = l

/-- What a cursor stands in front of is all that is left of the file. -/
theorem Stands.length {c : Cursor} {l : Bytes} (h : Stands file c l) :
    c.cur + l.length = file.size := by
  obtain ⟨hle, rfl⟩ := h
  rw [length_drop]
  exact Nat.add_sub_cancel' hle

/-- What is decoded is no longer than the file. -/
theorem decodes_of_length {α : Type} {m : Parse α} {bs : Bytes} {a : α}
    (h : bs.length < 2 ^ 63 → bs.length ≤ file.size → Decodes (Stands file) m bs a) :
    Decodes (Stands file) m bs a := by
  intro c rest hc
  have hlen := hc.length
  have hsize : file.size < 2 ^ 63 := file.size_lt
  rw [length_append] at hlen
  exact h (by omega) (by omega) c rest hc

/-- A cursor in front of `bs` may be moved behind it: the sum stays in the file, so it does not
wrap. -/
theorem Stands.cur_add {c : Cursor} {bs rest : Bytes} (h : Stands file c (bs ++ rest)) :
    u64 (c.cur + bs.length) = c.cur + bs.length ∧ c.cur + bs.length ≤ file.size := by
  have hlen := h.length
  have hsize : file.size < 2 ^ 63 := file.size_lt
  rw [length_append] at hlen
  exact ⟨u64_eq (by omega), by omega⟩

/-- What is there may be read. -/
theorem Stands.need {c : Cursor} {bs rest : Bytes} (h : Stands file c (bs ++ rest)) :
    need file bs.length c = (.ok (), c) := by
  obtain ⟨hcur, hle⟩ := h.cur_add
  have hnot : ¬ file.size < u64 (c.cur + bs.length) := by
    rw [hcur]
    exact not_lt.mpr hle
  exact if_neg hnot

/-- The bytes of a string are handed out as they are. -/
theorem decodes_takeBytes (bs : Bytes) :
    Decodes (Stands file) (takeBytes file bs.length) bs bs := by
  intro c rest hc
  obtain ⟨hcur, hle⟩ := hc.cur_add
  refine ⟨⟨c.cur + bs.length, (c.cur, bs.length) :: c.reads⟩, ?_, hle, ?_⟩
  · rw [takeBytes, act, hc.2, take_left, hcur]
  · change file.bytes.drop (c.cur + bs.length) = rest
    rw [← drop_drop, hc.2, drop_left]

/-- A number of `k` bytes. -/
theorem decodes_rd {k v : ℕ} (h : v < 256 ^ k) :
    Decodes (Stands file) (rd file k) (leBytes k v) v := by
  intro c rest hc
  have hneed := hc.need
  obtain ⟨c', htake, hc'⟩ := decodes_takeBytes (leBytes k v) c rest hc
  rw [length_leBytes] at hneed htake
  refine ⟨c', bind_eq_ok.mpr ⟨(), c, hneed, bind_eq_ok.mpr ⟨leBytes k v, c', htake, ?_⟩⟩, hc'⟩
  rw [leValue_leBytes h]
  rfl

/-- A string. The library holds strings as long as the file. -/
theorem decodes_rdStr (hlim : file.size ≤ lim.maxString) (s : Bytes) :
    Decodes (Stands file) (rdStr lim file) (strBytes s) s := by
  apply decodes_of_length
  intro hlt hsize
  rw [strBytes, length_append, length_leBytes] at hlt hsize
  have hlen : s.length < 256 ^ 8 := lt_trans (by omega : s.length < 2 ^ 63) (by decide)
  refine (decodes_rd hlen).bind fun c rest hc => ?_
  obtain ⟨c', htake, hc'⟩ := decodes_takeBytes s c rest hc
  have hmax : ¬ lim.maxString < s.length := by omega
  refine ⟨c', bind_eq_ok.mpr ⟨(), c, hc.need, bind_eq_ok.mpr ⟨(), c, ?_, htake⟩⟩, hc'⟩
  rw [failIf, if_neg hmax]
  rfl

/-! ## Entries -/

/-- The code under which a kind of elements is written is the one that is looked up. -/
theorem ofCode_code (k : ElemKind) : ValueKind.ofCode k.code = some k.toKind := by
  cases k <;> rfl

/-- There are no arrays of arrays, in the images as in the reader. -/
theorem toKind_ne_array (k : ElemKind) : k.toKind ≠ .array := by
  cases k <;> decide

theorem toNat_lt {w k : ℕ} (x : BitVec w) (h : w = 8 * k) : x.toNat < 256 ^ k := by
  subst h
  have hpow : (256 : ℕ) ^ k = 2 ^ (8 * k) := by
    rw [Nat.pow_mul]
  rw [hpow]
  exact x.isLt

/-- A signed number goes through `i`, whatever its width. -/
theorem decodes_rd_signed {w : ℕ} (k : ℕ) (x : BitVec w) (h : w = 8 * k) (v : Value) :
    Decodes (Stands file) (do let y ← rd file k; return { v with i := signed k y })
      (leBytes k x.toNat) { v with i := x.toInt } := by
  rw [← signed_toNat k x h]
  exact (decodes_rd (toNat_lt x h)).map

/-- **A value of any kind.** -/
theorem decodes_rdScalar (hlim : file.size ≤ lim.maxString) (k : ElemKind)
    (x : Elem k) (v : Value) :
    Decodes (Stands file) (rdScalar lim file k.code v) (Elem.bytes k x) (Elem.store k x v) := by
  rw [rdScalar, ofCode_code]
  cases k with
  | u8 => exact (decodes_rd (toNat_lt x rfl)).map
  | u16 => exact (decodes_rd (toNat_lt x rfl)).map
  | u32 => exact (decodes_rd (toNat_lt x rfl)).map
  | f32 => exact (decodes_rd (toNat_lt x rfl)).map
  | f64 => exact (decodes_rd (toNat_lt x rfl)).map
  | string => exact (decodes_rdStr hlim x).map
  | i8 => exact decodes_rd_signed 1 x rfl v
  | i16 => exact decodes_rd_signed 2 x rfl v
  | i32 => exact decodes_rd_signed 4 x rfl v
  | u64 => exact decodes_rd_signed 8 x rfl v
  | i64 => exact decodes_rd_signed 8 x rfl v
  | bool =>
    cases x with
    | false => exact (decodes_rd (by decide : 0 < 256 ^ 1)).map
    | true => exact (decodes_rd (by decide : 1 < 256 ^ 1)).map

/-- An array is read element by element into its own list, and what the reader makes of the list is
the representation of the array. -/
theorem ofElems_store (k : ElemKind) (xs : List (Elem k)) :
    Value.ofElems arrayCode k.code (xs.map fun x => Elem.store k x {}) = (Val.array k xs).repr := by
  rw [Value.ofElems, ofCode_code]
  cases k <;> simp [ElemKind.toKind, Val.repr, Elem.store, Elem.int, Function.comp_def]

/-- An element takes at least one byte. So an array with more elements than the file has bytes
cannot be in it, which is what keeps the count in range. -/
theorem Elem.bytes_pos (k : ElemKind) (x : Elem k) : 1 ≤ (Elem.bytes k x).length := by
  cases k <;> simp [Elem.bytes, strBytes, Nat.le_add_right_of_le]

/-- The same for a list of anything that takes at least one byte. -/
theorem length_le_flatMap {A B : Type} {f : A → List B} (h : ∀ a, 1 ≤ (f a).length) (l : List A) :
    l.length ≤ (l.flatMap f).length := by
  induction l with
  | nil => exact le_rfl
  | cons a l ih =>
    have ha := h a
    rw [flatMap_cons, length_append, length_cons]
    omega

/-- **A metadata entry.** -/
theorem decodes_rdEntry (hlim : file.size ≤ lim.maxString) (e : Bytes × Val) :
    Decodes (Stands file) (rdEntry lim file) (entryBytes e) (e.1, e.2.repr) := by
  obtain ⟨key, v⟩ := e
  have hcode (k : ElemKind) : k.code < 256 ^ 4 := by cases k <;> decide
  refine (decodes_rdStr hlim key).bind ?_
  cases v with
  | scalar k x =>
    have hkind : ¬ ValueKind.ofCode k.code = some .array := by
      rw [ofCode_code]
      exact fun h => toKind_ne_array k (Option.some.inj h)
    refine (decodes_rd (hcode k)).bind ?_
    rw [if_neg hkind]
    exact (decodes_rdScalar hlim k x _).map
  | array k xs =>
    refine (decodes_rd (by decide : arrayCode < 256 ^ 4)).bind ?_
    have hkind : ValueKind.ofCode arrayCode = some .array := rfl
    rw [if_pos hkind]
    refine (decodes_rd (hcode k)).bind ?_
    apply decodes_of_length
    intro hlt _
    have hle := length_le_flatMap (fun x => Elem.bytes_pos k x) xs
    rw [length_append] at hlt
    have hlen : xs.length < 256 ^ 8 := lt_trans (by omega : xs.length < 2 ^ 63) (by decide)
    refine (decodes_rd hlen).bind ?_
    rw [← ofElems_store]
    exact (Decodes.times fun x _ => decodes_rdScalar hlim k x {}).map

/-! ## The tensor table -/

/-- What the table says of a tensor, before its data is placed. -/
def TensorDesc.entry (d : TensorDesc) : TensorInfo := { d.info 0 with data := 0 }

/-- The types that the reader knows have codes of 32 bits. -/
theorem lt_of_typeTraits {t : ℕ} {tt : TypeTraits} (h : typeTraits t = some tt) : t < 256 ^ 4 := by
  unfold typeTraits at h
  split at h
  · decide
  · decide
  · decide
  · decide
  · decide
  · cases h

/-- **A descriptor**, as far as the table says what it is: where the data is, is only known behind
the table. -/
theorem decodes_rdTensor (hlim : file.size ≤ lim.maxString) {alignment : ℕ} {dataSize : ℕ}
    (hdata : dataSize < 2 ^ 63) {d : TensorDesc} (h : d.WellFormed alignment dataSize) :
    Decodes (Stands file) (rdTensor lim file) d.bytes d.entry := by
  obtain ⟨tt, htt, hdvd⟩ := h.known
  have hinside := h.inside
  have htype : d.type < 256 ^ 4 := lt_of_typeTraits htt
  refine (decodes_rdStr hlim d.name).bind ?_
  have hdims : d.dims.length < 256 ^ 4 := lt_of_le_of_lt h.dims_le (by decide)
  refine (decodes_rd hdims).bind ?_
  refine (Decodes.failIf (not_lt.mpr h.dims_le) _).bind_nil ?_
  have hrd : ∀ n ∈ d.dims, Decodes (Stands file) (rd file 8) (leBytes 8 n) (id n) := fun n hn =>
    decodes_rd ((h.dims_lt n hn).trans_le (by decide))
  have htimes := Decodes.times hrd
  rw [map_id] at htimes
  refine htimes.bind ?_
  refine (decodes_rd htype).bind ?_
  have hoffset : d.offset < 256 ^ 8 := lt_trans (by omega : d.offset < 2 ^ 63) (by decide)
  have hsize : u64 (u64 (u64 (u64 (d.ne 0 / tt.blockElems * tt.blockBytes) * d.ne 1) * d.ne 2) *
      d.ne 3) = d.nbytes := by
    have hexact : d.nbytes =
        d.ne 1 * d.ne 2 * d.ne 3 * (d.ne 0 / tt.blockElems) * tt.blockBytes := by
      rw [TensorDesc.nbytes, htt]
    rw [u64_nbytes, ← hexact]
    exact u64_eq (by omega)
  have hblocks : ¬ d.ne 0 % tt.blockElems ≠ 0 := not_not.mpr (Nat.mod_eq_zero_of_dvd hdvd)
  rw [← append_nil (leBytes 8 d.offset)]
  refine (decodes_rd hoffset).bind ?_
  simp only [htt]
  refine (Decodes.failIf hblocks _).bind_nil ?_
  rw [TensorDesc.entry, TensorDesc.info, ← hsize]
  exact Decodes.pure _ _

/-! ## The data section -/

/-- Clearing the low bits of a number is rounding it down. -/
theorem and_mask {x k : ℕ} (hx : x < 2 ^ 64) (hk : k ≤ 64) :
    x &&& (2 ^ 64 - 1 - (2 ^ k - 1)) = x / 2 ^ k * 2 ^ k := by
  have hmask : 2 ^ 64 - 1 - (2 ^ k - 1) = 2 ^ k * (2 ^ (64 - k) - 1) := by
    have hpow : 2 ^ k * 2 ^ (64 - k) = 2 ^ 64 := by
      rw [← Nat.pow_add, Nat.add_sub_cancel' hk]
    have hpos := Nat.two_pow_pos k
    rw [Nat.mul_sub, hpow, Nat.mul_one]
    omega
  rw [hmask]
  apply Nat.eq_of_testBit_eq
  intro i
  rw [Nat.testBit_and, Nat.mul_comm (x / 2 ^ k), Nat.testBit_two_pow_mul, Nat.testBit_two_pow_mul,
    Nat.testBit_two_pow_sub_one, Nat.testBit_div_two_pow]
  by_cases hi : k ≤ i
  · obtain hlt | hge := lt_or_ge i 64
    · have hsub : i - k < 64 - k := by omega
      simp [hi, hsub]
    · have hfalse : x.testBit i = false :=
        Nat.testBit_lt_two_pow (hx.trans_le (Nat.pow_le_pow_right (by decide) hge))
      simp [hi, hfalse]
  · simp [hi]

/-- `data_start` is the cursor rounded up. -/
theorem dataStart_eq {cur k : ℕ} (h : cur + 2 ^ k ≤ 2 ^ 64) (hk : k ≤ 64) :
    dataStart cur (2 ^ k) = Loops.padUp cur (2 ^ k) := by
  have hpos := Nat.two_pow_pos k
  have hlt : cur + 2 ^ k - 1 < 2 ^ 64 := by omega
  rw [dataStart, u64_eq hlt, and_mask hlt hk, Loops.padUp]

/-- Where keys are distinct it does not matter from which end one looks for them. -/
theorem find?_reverse {A K : Type} [DecidableEq K] {g : A → K} {l : List A} (h : (l.map g).Nodup)
    (key : K) : l.reverse.find? (fun a => g a = key) = l.find? fun a => g a = key := by
  induction l with
  | nil => rfl
  | cons a l ih =>
    rw [map_cons, nodup_cons] at h
    rw [reverse_cons, find?_append, ih h.2]
    by_cases ha : g a = key
    · have hnone : l.find? (fun a => g a = key) = none := by
        rw [find?_eq_none]
        intro b hb hkey
        exact h.1 (mem_map.mpr ⟨b, hb, (of_decide_eq_true hkey).trans ha.symm⟩)
      rw [hnone]
      simp [ha]
    · simp [ha]

/-- Entries are looked up from the end, and as the keys of an image are different, this finds what
the image has under a key. -/
theorem findKv_repr (img : Image) (hkeys : (img.entries.map Prod.fst).Nodup) (key : Bytes) :
    findKv (img.entries.map fun e => (e.1, e.2.repr)).reverse key =
      (img.lookup key).map Val.repr := by
  have hnodup : ((img.entries.map fun e => (e.1, e.2.repr)).map Prod.fst).Nodup := by
    rwa [map_map]
  rw [findKv, find?_reverse hnodup, find?_map, Image.lookup, Option.map_map, Option.map_map]
  rfl

/-- An integer that is a power of two is shown as itself, or as the signed number with its bits. -/
theorem store_i_of_pow {k : ℕ} (hk : k < 64) (kind : ElemKind) (x : Elem kind) (v : Value)
    (h : Elem.int kind x = (2 ^ k : ℕ)) : ((Elem.store kind x v).i % 2 ^ 64).toNat = 2 ^ k := by
  have hlt : 2 ^ k < 2 ^ 64 := Nat.pow_lt_pow_right (by decide) hk
  have hself : (((2 ^ k : ℕ) : ℤ) % 2 ^ 64).toNat = 2 ^ k := by
    have hmod : ((2 ^ k : ℕ) : ℤ) % 2 ^ 64 = (2 ^ k : ℕ) :=
      Int.emod_eq_of_lt (Int.natCast_nonneg _) (by exact_mod_cast hlt)
    rw [hmod, Int.toNat_natCast]
  have hne : (0 : ℤ) ≠ (2 ^ k : ℕ) := by
    exact_mod_cast (Nat.two_pow_pos k).ne
  cases kind with
  | u64 =>
    have hbits : BitVec.toInt (n := 64) x % 2 ^ 64 = (2 ^ k : ℕ) % 2 ^ 64 := by
      rw [← h, BitVec.toInt_eq_toNat_bmod]
      exact Int.bmod_emod
    exact (congrArg Int.toNat hbits).trans hself
  | f32 => exact absurd h hne
  | f64 => exact absurd h hne
  | bool => exact absurd h hne
  | string => exact absurd h hne
  | _ => exact (congrArg (fun z : ℤ => (z % 2 ^ 64).toNat) h).trans hself

/-- The alignment that the reader takes from the metadata. -/
theorem decodes_rdAlignment {img : Image} (hkeys : (img.entries.map Prod.fst).Nodup) {k : ℕ}
    (hk : k < 64) (halign : img.alignment = (2 ^ k : ℕ)) :
    Decodes (Stands file) (rdAlignment (img.entries.map fun e => (e.1, e.2.repr)).reverse) []
      (2 ^ k) := by
  have hpow : ¬ (2 ^ k = 0 ∨ 2 ^ k &&& (2 ^ k - 1) ≠ 0) := by
    rw [Nat.and_two_pow_sub_one_eq_mod, Nat.mod_self]
    simp
  rw [rdAlignment, findKv_repr img hkeys]
  rw [Image.alignment] at halign
  cases hval : img.lookup (ofText "general.alignment") with
  | none =>
    simp only [hval] at halign
    have h32 : 2 ^ k = 32 := by exact_mod_cast halign.symm
    rw [h32]
    exact Decodes.pure _ 32
  | some v =>
    cases v with
    | scalar kind x =>
      simp only [hval] at halign
      have hi := store_i_of_pow hk kind x { kind := kind.code } halign
      simp only [Option.map_some, Val.repr]
      rw [hi]
      exact (Decodes.failIf hpow _).bind_nil (Decodes.pure _ _)
    | array kind xs =>
      simp only [hval] at halign
      have hne : (0 : ℤ) ≠ (2 ^ k : ℕ) := by
        exact_mod_cast (Nat.two_pow_pos k).ne
      exact absurd halign hne

/-- A tensor finds its data. -/
theorem decodes_place {alignment dataSize : ℕ} (hdata : dataSize < 2 ^ 63) (dataBase : ℕ)
    {d : TensorDesc} (h : d.WellFormed alignment dataSize) :
    Decodes (Stands file) (place alignment dataBase dataSize d.entry) [] (d.info dataBase) := by
  have hinside := h.inside
  have haligned : ¬ d.entry.offset % alignment ≠ 0 :=
    not_not.mpr (Nat.mod_eq_zero_of_dvd h.aligned)
  have hend : ¬ dataSize < u64 (d.entry.offset + d.entry.nbytes) := by
    have hexact : u64 (d.entry.offset + d.entry.nbytes) = d.offset + d.nbytes :=
      u64_eq (lt_of_le_of_lt hinside (by omega))
    rw [hexact]
    exact not_lt.mpr hinside
  refine (Decodes.failIf haligned _).bind_nil ?_
  exact (Decodes.failIf hend _).bind_nil (Decodes.pure _ _)

end Decode

/-! ## The whole file -/

/-- What the parse of a file recovers: the entries, the tensors in their order with the bytes of
their data, and each tensor by its name. -/
structure Recovers (img : Image) (f : File) : Prop where
  version : f.version = 3
  entries : f.kv.Perm (img.entries.map fun e => (e.1, e.2.repr))
  kv : ∀ key, findKv f.kv key = (img.lookup key).map Val.repr
  alignment : (f.alignment : ℤ) = img.alignment
  dataSize : f.dataSize = img.data.length
  tensors : f.tensors = img.tensors.map (TensorDesc.info f.dataBase)
  data : ∀ d ∈ img.tensors, (img.bytes.drop (d.info f.dataBase).data).take d.nbytes =
    (img.data.drop d.offset).take d.nbytes
  find : ∀ d ∈ img.tensors, f.find d.name = some (d.info f.dataBase)
  find_none : ∀ name, name ∉ img.tensors.map TensorDesc.name → f.find name = none

namespace Image

variable {img : Image}

/-- The magic stands in front of everything. -/
theorem head_pos (img : Image) : 0 < img.head.length := by
  rw [head, length_append, length_leBytes]
  omega

/-- Nothing follows the data. -/
theorem WellFormed.length (h : img.WellFormed) :
    img.bytes.length = img.dataBase + img.data.length := by
  have hpad := h.padding
  rw [bytes, length_append, length_append]
  omega

/-- The alignment is no larger than the file. -/
theorem WellFormed.exists_pow (h : img.WellFormed) :
    ∃ k : ℕ, k < 63 ∧ img.alignment = (2 ^ k : ℕ) ∧
      img.dataBase = Loops.padUp img.head.length (2 ^ k) := by
  obtain ⟨k, hk⟩ := h.align
  have halign : img.alignment = (2 ^ k : ℕ) := by
    rw [hk]
    norm_cast
  have hbase : img.dataBase = Loops.padUp img.head.length (2 ^ k) := by
    rw [dataBase, halign, Int.toNat_natCast]
  refine ⟨k, ?_, halign, hbase⟩
  have hle : 2 ^ k ≤ img.dataBase := by
    rw [hbase]
    apply Nat.le_of_dvd
    · exact (head_pos img).trans_le (Loops.le_padUp _ (Nat.two_pow_pos k))
    · exact Loops.dvd_padUp _ _
  have hlt : 2 ^ k < 2 ^ 63 := by
    have hsize := h.size_lt
    rw [h.length] at hsize
    omega
  exact (Nat.pow_lt_pow_iff_right (by decide)).mp hlt

/-- The data begin where the reader places them. -/
theorem drop_dataBase (h : img.WellFormed) : img.bytes.drop img.dataBase = img.data := by
  have hpre : (img.head ++ img.padding).length = img.dataBase := by
    rw [length_append]
    exact h.padding
  rw [bytes, ← append_assoc, ← hpre, drop_left]

end Image

/-- Tensors are looked up from the end in the same way, and their names are different too. -/
theorem find_info {img : Image} (hnames : (img.tensors.map TensorDesc.name).Nodup) (dataBase : ℕ)
    (name : Bytes) :
    ((img.tensors.map (TensorDesc.info dataBase)).reverse.find? fun ti => ti.name = name) =
      (img.tensors.find? fun d => d.name = name).map (TensorDesc.info dataBase) := by
  have hnodup : ((img.tensors.map (TensorDesc.info dataBase)).map TensorInfo.name).Nodup := by
    rwa [map_map]
  rw [find?_reverse hnodup, find?_map]
  rfl

/-- Where keys are distinct, an element is found under its key. -/
theorem find?_of_mem {A K : Type} [DecidableEq K] {g : A → K} {l : List A} (h : (l.map g).Nodup)
    {a : A} (ha : a ∈ l) : l.find? (fun b => g b = g a) = some a := by
  cases hfind : l.find? (fun b => g b = g a) with
  | none =>
    rw [find?_eq_none] at hfind
    exact absurd (decide_eq_true rfl) (hfind a ha)
  | some b =>
    have hkey : g b = g a := by simpa using find?_some hfind
    rw [inj_on_of_nodup_map h (mem_of_find?_eq_some hfind) ha hkey]

section ParseImage

variable {lim : Limits} {img : Image}

theorem one_le_length_entryBytes (e : Bytes × Val) : 1 ≤ (entryBytes e).length := by
  rw [entryBytes, strBytes, length_append, length_append, length_leBytes]
  omega

theorem one_le_length_bytes (d : TensorDesc) : 1 ≤ d.bytes.length := by
  rw [TensorDesc.bytes, strBytes, length_append, length_append, length_leBytes]
  omega

/-- There are no more entries and tensors than bytes. -/
theorem length_le_head (img : Image) :
    img.entries.length ≤ img.head.length ∧ img.tensors.length ≤ img.head.length := by
  have hentries := length_le_flatMap one_le_length_entryBytes img.entries
  have htensors := length_le_flatMap one_le_length_bytes img.tensors
  simp only [Image.head, length_append, length_leBytes]
  omega

/-- The bytes of a well-formed file. -/
def Image.mapped (img : Image) (h : img.WellFormed) : Mapped := ⟨img.bytes, h.size_lt⟩

/-- What the reader returns. -/
def Image.file (img : Image) : File where
  version := 3
  kv := (img.entries.map fun e => (e.1, e.2.repr)).reverse
  tensors := img.tensors.map (TensorDesc.info img.dataBase)
  alignment := img.alignment.toNat
  dataBase := img.dataBase
  dataSize := img.data.length
  fileSize := img.bytes.length

/-- The reader gets through a well-formed file, and what it returns is known. -/
theorem returns_parse (h : img.WellFormed) (hstr : img.bytes.length ≤ lim.maxString)
    (hten : img.tensors.length ≤ lim.maxTensors) :
    Returns (parse lim (img.mapped h)) ⟨0, []⟩ img.file := by
  obtain ⟨k, hk, halign, hbase⟩ := h.exists_pow
  have hlen := h.length
  have hsize := h.size_lt
  have hpad := h.padding
  obtain ⟨hentries, htensors⟩ := length_le_head img
  have hpow : 2 ^ 63 ≤ 256 ^ 8 := by decide
  have hdata : img.data.length < 2 ^ 63 := by omega
  have hnat : img.alignment.toNat = 2 ^ k := by rw [halign, Int.toNat_natCast]
  have hlim : (img.mapped h).size ≤ lim.maxString := hstr
  have hstart : Stands (img.mapped h) ⟨0, []⟩ (img.head ++ (img.padding ++ img.data)) :=
    ⟨Nat.zero_le _, rfl⟩
  simp only [Image.head, append_assoc] at hstart
  -- the parts of the head, in the order of the reader
  refine (decodes_rd (by decide)).returns hstart fun c₁ h₁ => ?_
  refine (Decodes.failIf (not_not.mpr rfl) _).returns_nil h₁ fun c₂ h₂ => ?_
  refine (decodes_rd (by decide)).returns h₂ fun c₃ h₃ => ?_
  refine (Decodes.failIf (not_not.mpr rfl) _).returns_nil h₃ fun c₄ h₄ => ?_
  refine (decodes_rd (by omega)).returns h₄ fun c₅ h₅ => ?_
  refine (decodes_rd (by omega)).returns h₅ fun c₆ h₆ => ?_
  refine (Decodes.times fun e _ => decodes_rdEntry hlim e).returns h₆ fun c₇ h₇ => ?_
  refine (decodes_rdAlignment h.keys (by omega) halign).returns_nil h₇ fun c₈ h₈ => ?_
  refine (Decodes.failIf (not_lt.mpr hten) _).returns_nil h₈ fun c₉ h₉ => ?_
  refine (Decodes.times fun d hd => decodes_rdTensor hlim hdata (h.tensors d hd)).returns h₉
    fun c hc => ?_
  -- the cursor is behind the head
  have hcur : c.cur = img.head.length := by
    have hc := hc.length
    have hmapped : (img.mapped h).size = img.bytes.length := rfl
    rw [length_append] at hc
    omega
  have hbaseEq : dataStart c.cur (2 ^ k) = img.dataBase := by
    rw [hcur, hbase]
    have hpow63 : 2 ^ k ≤ 2 ^ 63 := Nat.pow_le_pow_right (by decide) hk.le
    exact dataStart_eq (by omega) (by omega)
  have hfsize : (img.mapped h).size - img.dataBase = img.data.length :=
    Nat.sub_eq_of_eq_add' hlen
  have hle : ¬ (img.mapped h).size < img.dataBase := by
    change ¬ img.bytes.length < img.dataBase
    omega
  refine Returns.act_bind ?_
  dsimp only
  rw [hbaseEq, hfsize]
  refine (Decodes.failIf hle _).returns_nil hc fun c' hc' => ?_
  have hplace (d : TensorDesc) (hd : d ∈ img.tensors) :
      Decodes (Stands (img.mapped h)) (place (2 ^ k) img.dataBase img.data.length d.entry) []
        (d.info img.dataBase) := by
    rw [← hnat]
    exact decodes_place hdata img.dataBase (h.tensors d hd)
  refine (Decodes.forEach hplace).returns_nil hc' fun c'' _ => ?_
  rw [Image.file, hnat]
  exact ⟨c'', rfl⟩

/-- What is recovered of an image is what the image says: the version, the entries under their keys,
and the tensors under their names with their places. -/
theorem recovers_file (h : img.WellFormed) : Recovers img img.file where
  version := rfl
  entries := reverse_perm _
  kv := findKv_repr img h.keys
  alignment := by
    obtain ⟨k, -, halign, -⟩ := h.exists_pow
    rw [Image.file, halign, Int.toNat_natCast]
  dataSize := rfl
  tensors := rfl
  data := by
    intro d hd
    have hdrop : img.bytes.drop (d.info img.file.dataBase).data = img.data.drop d.offset := by
      change img.bytes.drop (img.dataBase + d.offset) = img.data.drop d.offset
      rw [← drop_drop, Image.drop_dataBase h]
    rw [hdrop]
  find := by
    intro d hd
    rw [File.find, Image.file, find_info h.names, find?_of_mem h.names hd, Option.map_some]
  find_none := by
    intro name hname
    have hnone : img.tensors.find? (fun d => d.name = name) = none := by
      rw [find?_eq_none]
      intro d hd heq
      exact hname (mem_map.mpr ⟨d, hd, of_decide_eq_true heq⟩)
    rw [File.find, Image.file, find_info h.names, hnone, Option.map_none]

/-- **The reader is faithful**: of a well-formed file it recovers the entries and the tensors,
where the library can hold strings and vectors of their sizes. -/
theorem parseFile_recovers (lim : Limits) (img : Image) (h : img.WellFormed)
    (hstr : img.bytes.length ≤ lim.maxString) (hten : img.tensors.length ≤ lim.maxTensors) :
    ∃ f c, parseFile lim (img.mapped h) = (.ok f, c) ∧ Recovers img f := by
  obtain ⟨c, hc⟩ := returns_parse h hstr hten
  exact ⟨img.file, c, hc, recovers_file h⟩

/-- A file with an alignment, a list of strings and a tensor of two floats. -/
def smallImage : Image where
  entries := [(ofText "general.alignment", .scalar .u32 64),
    (ofText "names", .array .string [ofText "a", ofText "b"])]
  tensors := [⟨ofText "w", [2], 0, 0⟩]
  padding := replicate 55 0
  data := [0, 0, 128, 63, 0, 0, 0, 64]

theorem smallImage_wellFormed : smallImage.WellFormed where
  keys := by decide +kernel
  names := by decide +kernel
  align := ⟨6, by decide +kernel⟩
  padding := by decide +kernel
  tensors := by
    intro d hd
    rw [smallImage, mem_singleton] at hd
    subst hd
    exact ⟨by decide, by decide, by decide, ⟨_, rfl, one_dvd _⟩, dvd_zero _, by decide⟩
  size_lt := by decide +kernel

theorem parseFile_recovers_small :
    ∃ f c, parseFile usualLimits (smallImage.mapped smallImage_wellFormed) = (.ok f, c) ∧
      Recovers smallImage f :=
  parseFile_recovers usualLimits smallImage smallImage_wellFormed (by decide +kernel) (by decide)

end ParseImage

end Gguf

end Megakernel
