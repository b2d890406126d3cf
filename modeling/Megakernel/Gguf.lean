import Megakernel.Programs
import Mathlib.Data.BitVec
import Mathlib.Data.Nat.ModEq
import Mathlib.Tactic.Ring

/-!
# The GGUF reader

`k0/gguf.h`: `File::parse` over the bytes of a mapped file. Offsets and sizes are
64-bit registers, written out with `u64` wherever the code adds or multiplies. The
reads into the mapping are logged, so that a parse that throws can be held to
account for what it has read.

Every read stays inside the file (`parse_ok`): a length that makes the sum in
`need` wrap is longer than any `std::string`. The sizes of the tensors are another
matter: the product of the dimensions wraps, and so does the sum of offset and
size in the last check. What the reader promises of the tensors holds exactly for
the files whose tensors end, in exact arithmetic, below 2^64 (`well_parsed_iff`).

The library may throw as well, for a string or a vector that is too long. Its limits are parameters
with what the standard says of them, and every statement holds for all of them.
-/

namespace Megakernel

namespace Gguf

/-- A value as a 64-bit unsigned register holds it. It stands wherever the code adds or multiplies
without a check, so that a wrap is visible in the definition. -/
def u64 (x : ℕ) : ℕ := x % 2 ^ 64

theorem u64_eq {x : ℕ} (h : x < 2 ^ 64) : u64 x = x := Nat.mod_eq_of_lt h

/-- Bytes of the file, also as the contents of a `std::string`. -/
abbrev Bytes : Type := List UInt8

/-- A text as a `std::string`. -/
def ofText (s : String) : Bytes := s.toUTF8.toList

/-! ## Types and values -/

/-- `TypeTraits` -/
structure TypeTraits : Type where
  name : String
  blockElems : ℕ
  blockBytes : ℕ

/-- `type_traits` -/
def typeTraits (t : ℕ) : Option TypeTraits :=
  match t with
  | 0 => some ⟨"f32", 1, 4⟩
  | 1 => some ⟨"f16", 1, 2⟩
  | 2 => some ⟨"q4_0", 32, 18⟩
  | 26 => some ⟨"i32", 1, 4⟩
  | 42 => some ⟨"q4_0_ar16", 16, 10⟩
  | _ => none

/-- `ValueKind`, in declaration order. -/
inductive ValueKind : Type where
  | u8 | i8 | u16 | i16 | u32 | i32 | f32 | bool | string | array | u64 | i64 | f64
  deriving DecidableEq

/-- The kind with a code. -/
def ValueKind.ofCode (c : ℕ) : Option ValueKind :=
  [u8, i8, u16, i16, u32, i32, f32, bool, string, array, u64, i64, f64][c]?

/-- The bits of a floating-point value. -/
inductive FloatBits : Type where
  | single (bits : ℕ)
  | double (bits : ℕ)

/-- `Value`: the kind, and the member of the union or the container that goes with it. -/
structure Value : Type where
  kind : ℕ := 0xffffffff
  arrKind : ℕ := 0xffffffff
  i : ℤ := 0
  f : FloatBits := .double 0
  b : Bool := false
  s : Bytes := []
  arrI : List ℤ := []
  arrF : List FloatBits := []
  arrS : List Bytes := []

/-- `TensorInfo`; `data` counts from the start of the mapping. Type traits are looked up by the code
of the type, and the size is what the register holds. -/
structure TensorInfo : Type where
  name : Bytes
  type : ℕ
  ne : Fin 4 → ℕ
  offset : ℕ
  nbytes : ℕ
  data : ℕ := 0

/-- `File` after the parse; `data_base` counts from the start of the mapping. -/
structure File : Type where
  version : ℕ
  kv : List (Bytes × Value)
  tensors : List TensorInfo
  alignment : ℕ
  dataBase : ℕ
  dataSize : ℕ
  fileSize : ℕ

/-- The metadata entry with a key; later entries come first. -/
def findKv (kv : List (Bytes × Value)) (key : Bytes) : Option Value :=
  (kv.find? fun e => e.1 = key).map Prod.snd

/-- `File::find`: the last tensor with a name. -/
def File.find (f : File) (name : Bytes) : Option TensorInfo :=
  f.tensors.reverse.find? fun ti => ti.name = name

/-! ## Exceptions -/

/-- What the reader throws. -/
inductive Error : Type where
  | truncated (n cur : ℕ)
  /-- `std::length_error` of the string constructor -/
  | stringLength
  /-- `std::length_error` of `reserve` -/
  | reserve
  | scalarKind (kind : ℕ)
  | magic
  | version (v : ℕ)
  | alignment (a : ℕ)
  | dims (name : Bytes) (n : ℕ)
  | typeId (name : Bytes) (t : ℕ)
  | blocks (name : Bytes) (ne0 block : ℕ)
  | dataSection
  | unaligned (name : Bytes)
  | tensorData (name : Bytes) (offset nbytes : ℕ)

/-! ## Reading -/

/-- Where the parse stands: `cur_`, and the reads so far as offset and length. -/
structure Cursor : Type where
  cur : ℕ
  reads : List (ℕ × ℕ)

/-- A file as `open` maps it: its size is a `st_size`, a signed 64-bit number, so that no offset
into it comes near the range of a register. -/
structure Mapped : Type where
  bytes : Bytes
  size_lt : bytes.length < 2 ^ 63

/-- `file_size` -/
def Mapped.size (file : Mapped) : ℕ := file.bytes.length

/-- What the standard library can hold: the longest string, and the most tensors that a vector can
have. Beyond them the library throws. -/
structure Limits : Type where
  /-- `std::string::max_size()` -/
  maxString : ℕ
  /-- it fits a `ptrdiff_t` -/
  maxString_lt : maxString < 2 ^ 63
  /-- `std::vector<TensorInfo>::max_size()` -/
  maxTensors : ℕ

/-- A part of the parse. -/
abbrev Parse (α : Type) : Type := Prog Error Cursor α

open Prog

/-- The number a sequence of bytes stands for, least significant first. -/
def leValue : Bytes → ℕ
  | [] => 0
  | b :: bs => b.toNat + 256 * leValue bs

/-- The signed number that `k` bytes stand for. -/
def signed (k v : ℕ) : ℤ := (BitVec.ofNat (8 * k) v).toInt

section Parse

variable (lim : Limits) (file : Mapped)

/-- `need`: the check that `n` more bytes are there. The sum in it is a 64-bit one and may wrap. -/
def need (n : ℕ) : Parse Unit :=
  failWhen (fun c => file.size < u64 (c.cur + n)) fun c => .truncated n c.cur

/-- Copy `n` bytes at the cursor and move on. -/
def takeBytes (n : ℕ) : Parse Bytes := act fun c =>
  ((file.bytes.drop c.cur).take n, { cur := u64 (c.cur + n), reads := (c.cur, n) :: c.reads })

/-- `rd` of a type of `k` bytes. -/
def rd (k : ℕ) : Parse ℕ := do
  need file k
  let bs ← takeBytes file k
  return leValue bs

/-- `rd_str` -/
def rdStr : Parse Bytes := do
  let n ← rd file 8
  need file n
  failIf (lim.maxString < n) .stringLength
  takeBytes file n

/-- `rd_scalar` -/
def rdScalar (kind : ℕ) (v : Value) : Parse Value :=
  match ValueKind.ofCode kind with
  | some .u8 => do
    let x ← rd file 1
    return { v with i := x }
  | some .i8 => do
    let x ← rd file 1
    return { v with i := signed 1 x }
  | some .u16 => do
    let x ← rd file 2
    return { v with i := x }
  | some .i16 => do
    let x ← rd file 2
    return { v with i := signed 2 x }
  | some .u32 => do
    let x ← rd file 4
    return { v with i := x }
  | some .i32 => do
    let x ← rd file 4
    return { v with i := signed 4 x }
  | some .u64 | some .i64 => do
    let x ← rd file 8
    return { v with i := signed 8 x }
  | some .f32 => do
    let x ← rd file 4
    return { v with f := .single x }
  | some .f64 => do
    let x ← rd file 8
    return { v with f := .double x }
  | some .bool => do
    let x ← rd file 1
    return { v with b := decide (x ≠ 0) }
  | some .string => do
    let x ← rdStr lim file
    return { v with s := x }
  | some .array | none => fail (.scalarKind kind)

/-- An array value with its elements. -/
def Value.ofElems (kind arrKind : ℕ) (es : List Value) : Value :=
  match ValueKind.ofCode arrKind with
  | some .string => { kind, arrKind, arrS := es.map Value.s }
  | some .f32 | some .f64 => { kind, arrKind, arrF := es.map Value.f }
  | some .bool => { kind, arrKind, arrI := es.map fun e => if e.b then 1 else 0 }
  | _ => { kind, arrKind, arrI := es.map Value.i }

/-- A metadata entry. -/
def rdEntry : Parse (Bytes × Value) := do
  let key ← rdStr lim file
  let kind ← rd file 4
  if ValueKind.ofCode kind = some .array then
    let arrKind ← rd file 4
    let n ← rd file 8
    let es ← (rdScalar lim file arrKind {}).times n
    return (key, Value.ofElems kind arrKind es)
  else
    let v ← rdScalar lim file kind { kind }
    return (key, v)

/-- `alignment`: 32, or what the metadata says. -/
def rdAlignment (kv : List (Bytes × Value)) : Parse ℕ :=
  match findKv kv (ofText "general.alignment") with
  | none => pure 32
  | some a => do
    let alignment := (a.i % 2 ^ 64).toNat
    failIf (alignment = 0 ∨ alignment &&& (alignment - 1) ≠ 0) (.alignment alignment)
    return alignment

/-- An entry of the tensor table. -/
def rdTensor : Parse TensorInfo := do
  let name ← rdStr lim file
  let nDims ← rd file 4
  failIf (4 < nDims) (.dims name nDims)
  let dims ← (rd file 8).times nDims
  let type ← rd file 4
  let offset ← rd file 8
  match typeTraits type with
  | none => fail (.typeId name type)
  | some tt => do
    let ne := fun d : Fin 4 => dims.getD d 1
    failIf (ne 0 % tt.blockElems ≠ 0) (.blocks name (ne 0) tt.blockElems)
    let rowBytes := u64 (ne 0 / tt.blockElems * tt.blockBytes)
    let nbytes := u64 (u64 (u64 (rowBytes * ne 1) * ne 2) * ne 3)
    return { name, type, ne, offset, nbytes }

/-- The last loop: find the data of a tensor. Its check is of a wrapped sum, which is what
`well_parsed_iff` is about. -/
def place (alignment dataBase dataSize : ℕ) (ti : TensorInfo) : Parse TensorInfo := do
  failIf (ti.offset % alignment ≠ 0) (.unaligned ti.name)
  failIf (dataSize < u64 (ti.offset + ti.nbytes)) (.tensorData ti.name ti.offset ti.nbytes)
  return { ti with data := dataBase + ti.offset }

/-- `data_start`: the cursor, aligned. -/
def dataStart (cur alignment : ℕ) : ℕ :=
  u64 (cur + alignment - 1) &&& (2 ^ 64 - 1 - (alignment - 1))

/-- `File::parse`: magic and version, the counts, the metadata, the tensor table, and then the
places of the data. Each part throws where the source does. -/
def parse : Parse File := do
  let magic ← rd file 4
  failIf (magic ≠ 0x46554747) .magic
  let version ← rd file 4
  failIf (version ≠ 3) (.version version)
  let nTensors ← rd file 8
  let nKv ← rd file 8
  let entries ← (rdEntry lim file).times nKv
  let kv := entries.reverse
  let alignment ← rdAlignment kv
  failIf (lim.maxTensors < nTensors) .reserve
  let infos ← (rdTensor lim file).times nTensors
  let cur ← act fun c => (c.cur, c)
  let dataBase := dataStart cur alignment
  failIf (file.size < dataBase) .dataSection
  let dataSize := file.size - dataBase
  let tensors ← forEach (place alignment dataBase dataSize) infos
  return { version, kv, tensors, alignment, dataBase, dataSize, fileSize := file.size }

/-- The parse of a file: the outcome, and the reads it has made. -/
def parseFile : Except Error File × Cursor := parse lim file ⟨0, []⟩

end Parse

/-! ## Reads stay in the file -/

section Reads

variable {lim : Limits} {file : Mapped}

/-- The cursor and all reads so far are inside the file. -/
def Cursor.Ok (file : Mapped) (c : Cursor) : Prop :=
  c.cur ≤ file.size ∧ ∀ r ∈ c.reads, r.1 + r.2 ≤ file.size

theorem takeBytes_ok (n : ℕ) :
    Triple (fun c => c.Ok file ∧ c.cur + n ≤ file.size) (takeBytes file n) (fun _ c => c.Ok file)
      (Cursor.Ok file) := by
  refine Triple.act ?_
  rintro c ⟨⟨-, hreads⟩, hle⟩
  have hsize : file.size < 2 ^ 63 := file.size_lt
  refine ⟨?_, ?_⟩
  · rw [u64_eq (by omega)]
    exact hle
  · exact List.forall_mem_cons.mpr ⟨hle, hreads⟩

/-- `need` is sound for lengths that do not make the sum wrap. -/
theorem Cursor.Ok.le_size {c : Cursor} (h : c.Ok file) {n : ℕ} (hn : n ≤ 2 ^ 63)
    (hneed : ¬ file.size < u64 (c.cur + n)) : c.cur + n ≤ file.size := by
  have hsize : file.size < 2 ^ 63 := file.size_lt
  have hcur := h.1
  rw [u64_eq (by omega)] at hneed
  exact Nat.le_of_not_lt hneed

theorem rd_ok {k : ℕ} (hk : k ≤ 8) :
    Triple (Cursor.Ok file) (rd file k) (fun _ c => c.Ok file) (Cursor.Ok file) := by
  refine (Triple.failWhen fun _ h => h).bind fun _ => ?_
  refine Triple.bind ((takeBytes_ok k).conseq ?_ fun _ _ h => h) fun bs => Triple.pure fun _ h => h
  rintro c ⟨hc, hneed⟩
  exact ⟨hc, hc.le_size (by omega) hneed⟩

/-- A string whose length makes the sum in `need` wrap is too long to be constructed. -/
theorem rdStr_ok :
    Triple (Cursor.Ok file) (rdStr lim file) (fun _ c => c.Ok file) (Cursor.Ok file) := by
  refine (rd_ok (by decide)).bind fun n => ?_
  refine (Triple.failWhen fun _ h => h).bind fun _ => ?_
  refine (Triple.failIf fun _ h => h.1).bind fun _ => Triple.assume fun hlen => ?_
  refine (takeBytes_ok n).conseq ?_ fun _ _ h => h
  rintro c ⟨hc, hneed⟩
  have hmax := lim.maxString_lt
  exact ⟨hc, hc.le_size (by omega) hneed⟩

theorem rdScalar_ok (kind : ℕ) (v : Value) :
    Triple (Cursor.Ok file) (rdScalar lim file kind v) (fun _ c => c.Ok file) (Cursor.Ok file) := by
  rw [rdScalar]
  rcases ValueKind.ofCode kind with _ | k
  · exact Triple.fail fun _ h => h
  · cases k with
    | array => exact Triple.fail fun _ h => h
    | string => exact rdStr_ok.bind fun x => Triple.pure fun _ h => h
    | _ => exact (rd_ok (by decide)).bind fun x => Triple.pure fun _ h => h

theorem rdEntry_ok :
    Triple (Cursor.Ok file) (rdEntry lim file) (fun _ c => c.Ok file) (Cursor.Ok file) := by
  refine rdStr_ok.bind fun key => (rd_ok (by decide)).bind fun kind => ?_
  split
  · refine (rd_ok (by decide)).bind fun arrKind => (rd_ok (by decide)).bind fun n => ?_
    have helem : Triple (Cursor.Ok file) (rdScalar lim file arrKind {})
        (fun _ c => True ∧ c.Ok file) (Cursor.Ok file) :=
      (rdScalar_ok arrKind {}).conseq (fun _ h => h) fun _ _ h => ⟨trivial, h⟩
    exact (Triple.times helem n).bind fun es => Triple.pure fun _ h => h.2
  · exact (rdScalar_ok kind _).bind fun v => Triple.pure fun _ h => h

theorem rdAlignment_ok (kv : List (Bytes × Value)) :
    Triple (Cursor.Ok file) (rdAlignment kv) (fun _ c => c.Ok file) (Cursor.Ok file) := by
  rw [rdAlignment]
  split
  · exact Triple.pure fun _ h => h
  · exact (Triple.failIf fun _ h => h).bind fun _ => Triple.pure fun _ h => h.2

/-! ## Tensors -/

/-- The size of a tensor in exact arithmetic. -/
def TensorInfo.exactBytes (tt : TypeTraits) (ti : TensorInfo) : ℕ :=
  ti.ne 1 * ti.ne 2 * ti.ne 3 * (ti.ne 0 / tt.blockElems) * tt.blockBytes

/-- What an entry of the tensor table satisfies: whole blocks, and the size modulo 2^64. -/
def TensorInfo.Sized (ti : TensorInfo) : Prop :=
  ∃ tt, typeTraits ti.type = some tt ∧ tt.blockElems ∣ ti.ne 0 ∧ ti.nbytes = u64 (ti.exactBytes tt)

/-- The register computes the size modulo 2^64. -/
theorem u64_nbytes (a b c d e : ℕ) :
    u64 (u64 (u64 (u64 (a * b) * c) * d) * e) = u64 (c * d * e * a * b) := by
  have hmod : ∀ x y : ℕ, u64 (u64 x * y) = u64 (x * y) := fun x y => by
    rw [u64, u64, u64, Nat.mod_mul_mod]
  calc u64 (u64 (u64 (u64 (a * b) * c) * d) * e)
      = u64 (u64 (u64 (a * b) * c) * d * e) := hmod _ _
    _ = u64 (u64 (u64 (a * b) * c) * (d * e)) := by rw [Nat.mul_assoc]
    _ = u64 (u64 (a * b) * c * (d * e)) := hmod _ _
    _ = u64 (u64 (a * b) * (c * (d * e))) := by rw [Nat.mul_assoc]
    _ = u64 (a * b * (c * (d * e))) := hmod _ _
    _ = u64 (c * d * e * a * b) := by
      congr 1
      ring

theorem rdTensor_ok :
    Triple (Cursor.Ok file) (rdTensor lim file) (fun ti c => ti.Sized ∧ c.Ok file)
      (Cursor.Ok file) := by
  refine rdStr_ok.bind fun name => (rd_ok (by decide)).bind fun nDims => ?_
  refine (Triple.failIf fun _ h => h).bind fun _ => Triple.assume fun _ => ?_
  have hdim : Triple (Cursor.Ok file) (rd file 8) (fun _ c => True ∧ c.Ok file) (Cursor.Ok file) :=
    (rd_ok (by decide)).conseq (fun _ h => h) fun _ _ h => ⟨trivial, h⟩
  refine (Triple.times hdim nDims).bind fun dims => Triple.assume fun _ => ?_
  refine (rd_ok (by decide)).bind fun type => (rd_ok (by decide)).bind fun offset => ?_
  split
  · exact Triple.fail fun _ h => h
  · next tt htt =>
    refine (Triple.failIf fun _ h => h).bind fun _ => Triple.assume fun hdvd => ?_
    refine Triple.pure fun c hc => ⟨⟨tt, htt, ?_, ?_⟩, hc⟩
    · exact Nat.dvd_of_mod_eq_zero (not_not.mp hdvd)
    · exact u64_nbytes _ _ _ _ _

/-- What the last loop leaves of a tensor. -/
def TensorInfo.Placed (dataBase dataSize : ℕ) (ti : TensorInfo) : Prop :=
  ti.Sized ∧ u64 (ti.offset + ti.nbytes) ≤ dataSize ∧ ti.data = dataBase + ti.offset

theorem place_ok (file : Mapped) (alignment dataBase dataSize : ℕ) {ti : TensorInfo}
    (hti : ti.Sized) :
    Triple (Cursor.Ok file) (place alignment dataBase dataSize ti)
      (fun ti' c => ti'.Placed dataBase dataSize ∧ c.Ok file) (Cursor.Ok file) := by
  refine (Triple.failIf fun _ h => h).bind fun _ => Triple.assume fun _ => ?_
  refine (Triple.failIf fun _ h => h).bind fun _ => Triple.assume fun hle => ?_
  exact Triple.pure fun c hc => ⟨⟨hti, Nat.le_of_not_lt hle, rfl⟩, hc⟩

/-- What a parse returns: the data section ends with the file, and every tensor has its place in it.
-/
structure File.Parsed (file : Mapped) (f : File) : Prop where
  section_eq : f.dataBase + f.dataSize = file.size
  placed : ∀ ti ∈ f.tensors, ti.Placed f.dataBase f.dataSize

/-- **The parse keeps the reads in the file**, whether it throws or not, and places the tensors. -/
theorem parse_ok (lim : Limits) (file : Mapped) :
    Triple (Cursor.Ok file) (parse lim file) (fun f c => f.Parsed file ∧ c.Ok file)
      (Cursor.Ok file) := by
  refine (rd_ok (by decide)).bind fun magic => ?_
  refine (Triple.failIf fun _ h => h).bind fun _ => Triple.assume fun _ => ?_
  refine (rd_ok (by decide)).bind fun version => ?_
  refine (Triple.failIf fun _ h => h).bind fun _ => Triple.assume fun _ => ?_
  refine (rd_ok (by decide)).bind fun nTensors => (rd_ok (by decide)).bind fun nKv => ?_
  have hentry : Triple (Cursor.Ok file) (rdEntry lim file) (fun _ c => True ∧ c.Ok file)
      (Cursor.Ok file) := rdEntry_ok.conseq (fun _ h => h) fun _ _ h => ⟨trivial, h⟩
  refine (Triple.times hentry nKv).bind fun entries => Triple.assume fun _ => ?_
  refine (rdAlignment_ok entries.reverse).bind fun alignment => ?_
  refine (Triple.failIf fun _ h => h).bind fun _ => Triple.assume fun _ => ?_
  refine (Triple.times rdTensor_ok nTensors).bind fun infos => Triple.assume fun hinfos => ?_
  have hcur : Triple (Cursor.Ok file) (act fun c => (c.cur, c) : Parse ℕ) (fun _ c => c.Ok file)
      (Cursor.Ok file) := Triple.act fun _ h => h
  refine hcur.bind fun cur => ?_
  refine (Triple.failIf fun _ h => h).bind fun _ => Triple.assume fun hstart => ?_
  have hplace := Triple.forEach (fun ti hti => place_ok file alignment (dataStart cur alignment)
    (file.size - dataStart cur alignment) hti) infos hinfos
  refine hplace.bind fun tensors => Triple.assume fun htensors => Triple.pure fun c hc => ?_
  exact ⟨⟨Nat.add_sub_cancel' (Nat.le_of_not_lt hstart), htensors⟩, hc⟩

/-- The outcome of a parse. -/
theorem parseFile_ok (lim : Limits) (file : Mapped) :
    (parseFile lim file).2.Ok file ∧
      ∀ f, (parseFile lim file).1 = .ok f → f.Parsed file := by
  have hstart : (⟨0, []⟩ : Cursor).Ok file := ⟨Nat.zero_le _, nofun⟩
  have h := parse_ok lim file ⟨0, []⟩ hstart
  rw [parseFile]
  rcases hp : parse lim file ⟨0, []⟩ with ⟨e | f, c⟩
  · rw [hp] at h
    exact ⟨h, nofun⟩
  · rw [hp] at h
    refine ⟨h.2, fun f' hf' => ?_⟩
    cases hf'
    exact h.1

/-! ## What the reader promises -/

/-- The parse reads nothing outside the file, and every tensor it returns has whole blocks, its
exact size, and its data in the data section. -/
structure WellParsed (lim : Limits) (file : Mapped) : Prop where
  reads : ∀ r ∈ (parseFile lim file).2.reads, r.1 + r.2 ≤ file.size
  tensors : ∀ f, (parseFile lim file).1 = .ok f → f.dataBase + f.dataSize = file.size ∧
    ∀ ti ∈ f.tensors, ∃ tt, typeTraits ti.type = some tt ∧ tt.blockElems ∣ ti.ne 0 ∧
      ti.nbytes = ti.exactBytes tt ∧ f.dataBase ≤ ti.data ∧
      ti.data + ti.nbytes ≤ f.dataBase + f.dataSize

/-- **The reader keeps its promise for a file if and only if no tensor of the file, where it is
accepted, ends beyond 2^64**, counted from the data section in exact arithmetic. -/
theorem well_parsed_iff (lim : Limits) (file : Mapped) :
    WellParsed lim file ↔ ∀ f, (parseFile lim file).1 = .ok f → ∀ ti ∈ f.tensors,
      ∀ tt, typeTraits ti.type = some tt → ti.offset + ti.exactBytes tt < 2 ^ 64 := by
  obtain ⟨⟨-, hreads⟩, hparsed⟩ := parseFile_ok lim file
  have hsize : file.size < 2 ^ 63 := file.size_lt
  constructor
  · intro h f hf ti hti tt htt
    obtain ⟨hsec, htensors⟩ := h.tensors f hf
    obtain ⟨tt', htt', -, hbytes, -, hend⟩ := htensors ti hti
    obtain ⟨-, -, hdata⟩ := (hparsed f hf).placed ti hti
    cases htt.symm.trans htt'
    rw [← hbytes]
    omega
  · intro h
    refine ⟨hreads, fun f hf => ⟨(hparsed f hf).section_eq, fun ti hti => ?_⟩⟩
    obtain ⟨⟨tt, htt, hdvd, hbytes⟩, hend, hdata⟩ := (hparsed f hf).placed ti hti
    have hlt := h f hf ti hti tt htt
    rw [u64_eq (by omega)] at hbytes
    rw [hbytes, u64_eq hlt] at hend
    refine ⟨tt, htt, hdvd, hbytes, ?_, ?_⟩
    · rw [hdata]
      exact Nat.le_add_right _ _
    · rw [hdata, hbytes]
      omega

end Reads

/-! ## A file that is not parsed well -/

/-- `v` in `k` bytes, least significant first. -/
def leBytes (k v : ℕ) : Bytes := (List.range k).map fun i => UInt8.ofNat (v / 256 ^ i)

/-- A file of 64 bytes with one f32 tensor of 2^62 elements. -/
def hugeTensor : Mapped where
  bytes := leBytes 4 0x46554747 ++ leBytes 4 3 ++ leBytes 8 1 ++ leBytes 8 0 ++
    leBytes 8 1 ++ [119] ++ leBytes 4 1 ++ leBytes 8 (2 ^ 62) ++ leBytes 4 0 ++ leBytes 8 0 ++
    leBytes 7 0
  size_lt := by decide

/-- The limits of a usual implementation. -/
def usualLimits : Limits := ⟨2 ^ 63 - 1, by decide, 2 ^ 56⟩

/-- **The size of a tensor wraps**: the reader accepts 2^62 floats in an empty data section, as a
tensor of no bytes. -/
theorem not_well_parsed :
    ∃ f c, parseFile usualLimits hugeTensor = (.ok f, c) ∧ f.dataSize = 0 ∧
      (∃ ti ∈ f.tensors, ti.type = 0 ∧ ti.ne 0 = 2 ^ 62 ∧ ti.nbytes = 0) ∧
      ¬ WellParsed usualLimits hugeTensor := by
  obtain ⟨f, c, hf, hsize, ti, hti, htype, hne, hbytes, hdims⟩ :
      ∃ f c, parseFile usualLimits hugeTensor = (.ok f, c) ∧ f.dataSize = 0 ∧
        ∃ ti ∈ f.tensors, ti.type = 0 ∧ ti.ne 0 = 2 ^ 62 ∧ ti.nbytes = 0 ∧
          ti.ne 1 = 1 ∧ ti.ne 2 = 1 ∧ ti.ne 3 = 1 :=
    ⟨_, _, rfl, rfl, _, List.mem_cons_self, rfl, rfl, rfl, rfl, rfl, rfl⟩
  refine ⟨f, c, hf, hsize, ⟨ti, hti, htype, hne, hbytes⟩, fun h => ?_⟩
  obtain ⟨-, htensors⟩ := h.tensors f (by rw [hf])
  obtain ⟨tt, htt, -, hexact, -⟩ := htensors ti hti
  obtain ⟨h1, h2, h3⟩ := hdims
  rw [htype] at htt
  cases htt
  rw [hbytes, TensorInfo.exactBytes, hne, h1, h2, h3] at hexact
  norm_num at hexact

end Gguf

end Megakernel
