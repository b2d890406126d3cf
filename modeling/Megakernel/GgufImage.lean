import Megakernel.Gguf
import Megakernel.Loops

/-!
# GGUF files

What a GGUF file of version 3 is made of, and its bytes: metadata entries with scalars,
strings and arrays of these, descriptors of tensors, padding, and the data section. This is
the format, not the reader; `Val.repr` and `TensorDesc.info` say how the reader shows an
entry and a tensor.

An image is what a writer would start from: entries and descriptors as values. That a file is well
formed is a statement about the image, and the bytes follow from it.
-/

namespace Megakernel

namespace Gguf

open List

/-! ## Entries -/

/-- The kinds of values that are not arrays. -/
inductive ElemKind : Type where
  | u8 | i8 | u16 | i16 | u32 | i32 | f32 | bool | string | u64 | i64 | f64
  deriving DecidableEq

/-- The value kind. -/
def ElemKind.toKind : ElemKind → ValueKind
  | u8 => .u8
  | i8 => .i8
  | u16 => .u16
  | i16 => .i16
  | u32 => .u32
  | i32 => .i32
  | f32 => .f32
  | bool => .bool
  | string => .string
  | u64 => .u64
  | i64 => .i64
  | f64 => .f64

/-- The code in the file. -/
def ElemKind.code : ElemKind → ℕ
  | u8 => 0
  | i8 => 1
  | u16 => 2
  | i16 => 3
  | u32 => 4
  | i32 => 5
  | f32 => 6
  | bool => 7
  | string => 8
  | u64 => 10
  | i64 => 11
  | f64 => 12

/-- The code of arrays. -/
def arrayCode : ℕ := 9

/-- The values of a kind; a floating-point value is given by its bits. -/
abbrev Elem : ElemKind → Type
  | .u8 | .i8 => BitVec 8
  | .u16 | .i16 => BitVec 16
  | .u32 | .i32 | .f32 => BitVec 32
  | .u64 | .i64 | .f64 => BitVec 64
  | .bool => Bool
  | .string => Bytes

/-- A string: its length and its bytes. -/
def strBytes (s : Bytes) : Bytes := leBytes 8 s.length ++ s

/-- The bytes of a value. -/
def Elem.bytes : (k : ElemKind) → Elem k → Bytes
  | .u8, x | .i8, x => leBytes 1 x.toNat
  | .u16, x | .i16, x => leBytes 2 x.toNat
  | .u32, x | .i32, x | .f32, x => leBytes 4 x.toNat
  | .u64, x | .i64, x | .f64, x => leBytes 8 x.toNat
  | .bool, x => leBytes 1 x.toNat
  | .string, x => strBytes x

/-- The integer that a value is. -/
def Elem.int : (k : ElemKind) → Elem k → ℤ
  | .u8, x | .u16, x | .u32, x => x.toNat
  | .i8, x | .i16, x | .i32, x | .i64, x => x.toInt
  | .u64, x => x.toNat
  | _, _ => 0

/-- A metadata value: a scalar or a string, or an array of values of one kind. Arrays of arrays are
not in the image, as the reader refuses them. -/
inductive Val : Type where
  | scalar (k : ElemKind) (x : Elem k)
  | array (k : ElemKind) (xs : List (Elem k))

/-- The bytes of a metadata value, with its kind. -/
def Val.bytes : Val → Bytes
  | scalar k x => leBytes 4 k.code ++ Elem.bytes k x
  | array k xs =>
    leBytes 4 arrayCode ++ (leBytes 4 k.code ++ (leBytes 8 xs.length ++ xs.flatMap (Elem.bytes k)))

/-- A member of the representation of a scalar, in `v`. An unsigned 64-bit integer is shown as
the signed one with its bits. -/
def Elem.store : (k : ElemKind) → Elem k → Value → Value
  | .u8, x, v | .u16, x, v | .u32, x, v => { v with i := x.toNat }
  | .i8, x, v | .i16, x, v | .i32, x, v | .i64, x, v | .u64, x, v => { v with i := x.toInt }
  | .f32, x, v => { v with f := .single x.toNat }
  | .f64, x, v => { v with f := .double x.toNat }
  | .bool, x, v => { v with b := x }
  | .string, x, v => { v with s := x }

/-- What `find_kv` shows of a value. -/
def Val.repr : Val → Value
  | scalar k x => Elem.store k x { kind := k.code }
  | array .string xs => { kind := arrayCode, arrKind := ElemKind.string.code, arrS := xs }
  | array .f32 xs =>
    { kind := arrayCode, arrKind := ElemKind.f32.code, arrF := xs.map fun x => .single x.toNat }
  | array .f64 xs =>
    { kind := arrayCode, arrKind := ElemKind.f64.code, arrF := xs.map fun x => .double x.toNat }
  | array .bool xs =>
    { kind := arrayCode, arrKind := ElemKind.bool.code, arrI := xs.map fun x => if x then 1 else 0 }
  | array .u64 xs =>
    { kind := arrayCode, arrKind := ElemKind.u64.code, arrI := xs.map BitVec.toInt }
  | array k xs => { kind := arrayCode, arrKind := k.code, arrI := xs.map (Elem.int k) }

/-! ## Tensors -/

/-- A descriptor in the tensor table. The data is not a part of it, but the offset of the data is.
-/
structure TensorDesc : Type where
  name : Bytes
  dims : List ℕ
  type : ℕ
  offset : ℕ

/-- The extents: missing ones are 1. -/
def TensorDesc.ne (d : TensorDesc) (i : Fin 4) : ℕ := d.dims.getD i 1

/-- The size of the data. -/
def TensorDesc.nbytes (d : TensorDesc) : ℕ :=
  match typeTraits d.type with
  | some tt => d.ne 1 * d.ne 2 * d.ne 3 * (d.ne 0 / tt.blockElems) * tt.blockBytes
  | none => 0

/-- The bytes of a descriptor. -/
def TensorDesc.bytes (d : TensorDesc) : Bytes :=
  strBytes d.name ++ (leBytes 4 d.dims.length ++ (d.dims.flatMap (leBytes 8) ++
    (leBytes 4 d.type ++ leBytes 8 d.offset)))

/-- What the reader shows of a tensor. -/
def TensorDesc.info (dataBase : ℕ) (d : TensorDesc) : TensorInfo where
  name := d.name
  type := d.type
  ne := d.ne
  offset := d.offset
  nbytes := d.nbytes
  data := dataBase + d.offset

/-! ## Files -/

/-- The contents of a file: the entries, the descriptors, and the bytes of the data section. How the
bytes are laid out follows from it. -/
structure Image : Type where
  entries : List (Bytes × Val)
  tensors : List TensorDesc
  padding : Bytes
  data : Bytes

/-- The bytes of an entry. -/
def entryBytes (e : Bytes × Val) : Bytes := strBytes e.1 ++ e.2.bytes

namespace Image

variable (img : Image)

/-- What comes before the padding. -/
def head : Bytes :=
  leBytes 4 0x46554747 ++ (leBytes 4 3 ++ (leBytes 8 img.tensors.length ++
    (leBytes 8 img.entries.length ++
      (img.entries.flatMap entryBytes ++ img.tensors.flatMap TensorDesc.bytes))))

/-- The file. -/
def bytes : Bytes := img.head ++ (img.padding ++ img.data)

/-- The value with a key. -/
def lookup (key : Bytes) : Option Val := (img.entries.find? fun e => e.1 = key).map Prod.snd

/-- The alignment of the data: 32, or the integer that `general.alignment` is. -/
def alignment : ℤ :=
  match img.lookup (ofText "general.alignment") with
  | none => 32
  | some (.scalar k x) => Elem.int k x
  | some (.array _ _) => 0

/-- Where the data begins. -/
def dataBase : ℕ := Loops.padUp img.head.length img.alignment.toNat

end Image

/-- A descriptor that is well formed in a file. -/
structure TensorDesc.WellFormed (alignment dataSize : ℕ) (d : TensorDesc) : Prop where
  dims_pos : 1 ≤ d.dims.length
  dims_le : d.dims.length ≤ 4
  dims_lt : ∀ n ∈ d.dims, n < 2 ^ 64
  known : ∃ tt, typeTraits d.type = some tt ∧ tt.blockElems ∣ d.ne 0
  aligned : alignment ∣ d.offset
  inside : d.offset + d.nbytes ≤ dataSize

/-- A file that is well formed: keys and names are distinct, the alignment is a power of two, the
data begins where the padding ends, and the size is one that a file can have. -/
structure Image.WellFormed (img : Image) : Prop where
  keys : (img.entries.map Prod.fst).Nodup
  names : (img.tensors.map TensorDesc.name).Nodup
  align : ∃ k : ℕ, img.alignment = 2 ^ k
  padding : img.head.length + img.padding.length = img.dataBase
  tensors : ∀ d ∈ img.tensors, d.WellFormed img.alignment.toNat img.data.length
  size_lt : img.bytes.length < 2 ^ 63

end Gguf

end Megakernel
