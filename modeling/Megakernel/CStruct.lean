import Megakernel.Words

/-!
# Structures in memory

The bytes of a C structure whose members are aligned to their own size, with zeros in
between, and copies of bytes into a memory. A member that is overwritten in place
leaves the structure that would have been encoded with the new value
(`encodeFrom_set`).

Nothing else about C is needed: structures are written and read as a whole, and only one member of
one structure is ever overwritten in place.
-/

namespace CStruct

open List

abbrev Byte : Type := BitVec 8

/-- The `n` low bytes of a word, least significant byte first. -/
def leBytes (n : ℕ) {w : ℕ} (x : BitVec w) : List Byte := (range n).map (Words.byte x)

@[simp] theorem length_leBytes (n : ℕ) {w : ℕ} (x : BitVec w) : (leBytes n x).length = n := by
  rw [leBytes, length_map, length_range]

/-- The bytes between an offset and the next multiple of `size`. -/
def padding (off size : ℕ) : ℕ := (size - off % size) % size

/-- The members from an offset on. A member is given by its bytes, and its size is its alignment, as
it is for the integers and pointers of the argument structures. -/
def encodeFrom : ℕ → List (List Byte) → List Byte
  | _, [] => []
  | off, m :: ms =>
    replicate (padding off m.length) 0 ++
      (m ++ encodeFrom (off + padding off m.length + m.length) ms)

/-- A structure. -/
def encode (ms : List (List Byte)) : List Byte := encodeFrom 0 ms

/-- How far member `i` is from the offset: `offsetof`. -/
def offsetFrom : ℕ → List ℕ → ℕ → ℕ
  | _, [], _ => 0
  | off, size :: _, 0 => padding off size
  | off, size :: sizes, i + 1 =>
    padding off size + size + offsetFrom (off + padding off size + size) sizes i

/-- Write bytes into a list. The length stays, and what would go beyond the end is dropped. -/
def overwrite (l : List Byte) (k : ℕ) (bs : List Byte) : List Byte :=
  l.take k ++ (bs ++ l.drop (k + bs.length))

theorem length_overwrite {l bs : List Byte} {k : ℕ} (h : k + bs.length ≤ l.length) :
    (overwrite l k bs).length = l.length := by
  rw [overwrite, length_append, length_append, length_take, length_drop]
  omega

/-- Inside stand the new bytes, outside the old ones. -/
theorem getElem?_overwrite {l bs : List Byte} {k : ℕ} (h : k + bs.length ≤ l.length) (q : ℕ) :
    (overwrite l k bs)[q]? = if k ≤ q ∧ q < k + bs.length then bs[q - k]? else l[q]? := by
  have htake : (l.take k).length = k := by
    rw [length_take]
    omega
  rw [overwrite]
  obtain hlt | hge := lt_or_ge q k
  · rw [getElem?_append_left (htake.symm ▸ hlt), getElem?_take_of_lt hlt,
      if_neg fun hq => (not_le.mpr hlt) hq.1]
  · rw [getElem?_append_right (htake.symm ▸ hge), htake]
    obtain hlt | hge' := lt_or_ge (q - k) bs.length
    · rw [getElem?_append_left hlt, if_pos ⟨hge, by omega⟩]
    · rw [getElem?_append_right hge', getElem?_drop, if_neg (by omega)]
      congr 1
      omega

/-- Bytes in front of what is overwritten. -/
theorem overwrite_append {l₁ : List Byte} {k j : ℕ} (h : k = l₁.length + j) (l₂ bs : List Byte) :
    overwrite (l₁ ++ l₂) k bs = l₁ ++ overwrite l₂ j bs := by
  rw [h, overwrite, overwrite, take_length_add_append, Nat.add_assoc, drop_length_add_append,
    append_assoc]

theorem overwrite_zero (m l bs : List Byte) (h : m.length = bs.length) :
    overwrite (m ++ l) 0 bs = bs ++ l := by
  rw [overwrite, take_zero, nil_append, Nat.zero_add, ← h, drop_left]

/-- A member that is overwritten before something that follows. -/
theorem overwrite_append_left {l₁ l₂ : List Byte} {k : ℕ} {bs : List Byte}
    (h : k + bs.length ≤ l₁.length) : overwrite (l₁ ++ l₂) k bs = overwrite l₁ k bs ++ l₂ := by
  rw [overwrite, overwrite, take_append_of_le_length (by omega), drop_append_of_le_length h,
    append_assoc, append_assoc]

/-- **Overwriting a member in place** is encoding the structure with the new member. -/
theorem encodeFrom_set {ms : List (List Byte)} {i : ℕ} {m : List Byte} (hi : i < ms.length)
    (hm : m.length = ms[i].length) (off : ℕ) :
    encodeFrom off (ms.set i m) =
      overwrite (encodeFrom off ms) (offsetFrom off (ms.map length) i) m := by
  induction ms generalizing off i with
  | nil => cases hi
  | cons m₀ ms ih =>
    cases i with
    | zero =>
      have hlen : m.length = m₀.length := hm
      rw [set_cons_zero, encodeFrom, encodeFrom, map_cons, offsetFrom, hlen]
      rw [overwrite_append (j := 0) (by rw [length_replicate, Nat.add_zero]),
        overwrite_zero _ _ _ hlen.symm]
    | succ i =>
      have hrest := ih (Nat.lt_of_succ_lt_succ hi) hm (off + padding off m₀.length + m₀.length)
      rw [set_cons_succ, encodeFrom, encodeFrom, map_cons, offsetFrom]
      rw [overwrite_append (by rw [length_replicate, Nat.add_assoc]), overwrite_append rfl, hrest]

/-! ## Memory -/

/-- `memcpy` into a memory that is a function of addresses. -/
def memcpy (dst : ℕ) (src : List Byte) (mem : ℕ → Byte) : ℕ → Byte := fun p =>
  if dst ≤ p then (src[p - dst]?).getD (mem p) else mem p

theorem memcpy_of_lt {dst p : ℕ} {src : List Byte} (h : p < dst) (mem : ℕ → Byte) :
    memcpy dst src mem p = mem p := if_neg (not_le.mpr h)

theorem memcpy_of_ge {dst p : ℕ} {src : List Byte} (h : dst + src.length ≤ p) (mem : ℕ → Byte) :
    memcpy dst src mem p = mem p := by
  rw [memcpy, if_pos (by omega), getElem?_eq_none (by omega), Option.getD_none]

theorem memcpy_of_mem {dst k : ℕ} {src : List Byte} (h : k < src.length) (mem : ℕ → Byte) :
    memcpy dst src mem (dst + k) = src[k] := by
  rw [memcpy, if_pos (Nat.le_add_right _ _), Nat.add_sub_cancel_left, getElem?_eq_getElem h,
    Option.getD_some]

end CStruct
