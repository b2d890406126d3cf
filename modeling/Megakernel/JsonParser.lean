import Mathlib.Data.List.GetD
import Mathlib.Data.List.TakeWhile
import Mathlib.Tactic.Common

/-!
# The JSON parser

`Jv` and `JsonParser` of `k0/harness.cpp`. The parser walks over the text with one cursor,
which is compared with the end before a character is read but is also moved on by fixed
widths, so it may come to stand beyond the end. The text is therefore a piece of memory:
what stands behind its terminator exists and is arbitrary.

Every function returns where the cursor stands, together with a proof that it has moved
on; this is why the parser comes to an end on every text.
-/

namespace Megakernel

/-- `Jv`, over the type `D` of its numbers. -/
inductive Jv (D : Type) : Type where
  | nul
  | boo (b : Bool)
  | num (d : D)
  | str (s : String)
  | arr (l : List (Jv D))
  | obj (l : List (String × Jv D))

/-! ## The C library -/

namespace CLib

/-- `isspace` -/
def isSpace (c : Char) : Bool :=
  c = ' ' || c = '\t' || c = '\n' || c = '\x0b' || c = '\x0c' || c = '\r'

/-- The value of a hexadecimal digit, in letters of either case, or nothing. -/
def hexValue (c : Char) : Option ℕ :=
  if c.isDigit then some (c.toNat - '0'.toNat)
  else if 'a' ≤ c ∧ c ≤ 'f' then some (c.toNat - 'a'.toNat + 10)
  else if 'A' ≤ c ∧ c ≤ 'F' then some (c.toNat - 'A'.toNat + 10)
  else none

/-- `isxdigit` -/
def isHexDigit (c : Char) : Bool := (hexValue c).isSome

/-- A sign, and what follows it. -/
def splitSign : List Char → List Char × List Char
  | c :: s => if c = '-' ∨ c = '+' then ([c], s) else ([], c :: s)
  | [] => ([], [])

/-- `0x`, if a digit follows it, and what follows. Without a digit behind it the zero is a number of
its own. -/
def splitHexPrefix : List Char → List Char × List Char
  | z :: x :: d :: s =>
    if z = '0' ∧ (x = 'x' ∨ x = 'X') ∧ isHexDigit d then ([z, x], d :: s)
    else ([], z :: x :: d :: s)
  | s => ([], s)

/-- `(unsigned) strtoul(s, nullptr, 16)`: blanks, a sign and `0x` are accepted too, and a text
without digits stands for 0. -/
def strtoul16 (s : List Char) : BitVec 32 :=
  let signed := splitSign ((s.takeWhile (· ≠ '\x00')).dropWhile isSpace)
  let digits := (splitHexPrefix signed.2).2.takeWhile isHexDigit
  let v := digits.foldl (fun n c => 16 * n + (hexValue c).getD 0) 0
  if signed.1 = ['-'] then -BitVec.ofNat 32 v else BitVec.ofNat 32 v

/-- How many characters an exponent takes: the letter, perhaps a sign, digits. -/
def exponentLength (letter : Char) : List Char → ℕ
  | c :: s =>
    let signed := splitSign s
    let n := (signed.2.takeWhile Char.isDigit).length
    if c.toLower = letter ∧ n ≠ 0 then 1 + signed.1.length + n else 0
  | [] => 0

/-- How many characters digits with a point among them take, or 0 if there is no digit. -/
def mantissaLength (digit : Char → Bool) (s : List Char) : ℕ :=
  let n := (s.takeWhile digit).length
  match s.drop n with
  | '.' :: r =>
    let k := (r.takeWhile digit).length
    if n + k = 0 then 0 else n + 1 + k
  | _ => n

/-- A word in letters of any case, as `strtod` takes `inf` and `nan`. -/
def startsWith (word : String) (s : List Char) : Bool :=
  word.toList.isPrefixOf (s.map Char.toLower)

/-- How many characters a decimal number takes. -/
def decimalLength (s : List Char) : ℕ :=
  let n := mantissaLength Char.isDigit s
  if n = 0 then 0 else n + exponentLength 'e' (s.drop n)

/-- How many characters of a number without a sign `strtod` takes. -/
def unsignedLength (s : List Char) : ℕ :=
  if startsWith "infinity" s then 8
  else if startsWith "inf" s then 3
  else if startsWith "nan" s then
    match s.drop 3 with
    | '(' :: r =>
      let n := (r.takeWhile fun c => c.isAlphanum || c = '_').length
      if (r.drop n).head? = some ')' then 3 + n + 2 else 3
    | _ => 3
  else
    match s with
    | '0' :: x :: r =>
      let n := mantissaLength isHexDigit r
      if (x = 'x' ∨ x = 'X') ∧ n ≠ 0 then 2 + n + exponentLength 'p' (r.drop n)
      else decimalLength s
    | _ => decimalLength s

/-- `strtod` on a C string: the number, and how many characters it takes. A double is what
`toDouble` makes of the characters. -/
def strtod {D : Type} (toDouble : List Char → D) (s : List Char) : D × ℕ :=
  let blank := (s.takeWhile isSpace).length
  let signed := splitSign (s.drop blank)
  let n := unsignedLength signed.2
  if n = 0 then (toDouble [], 0)
  else (toDouble (signed.1 ++ signed.2.take n), blank + signed.1.length + n)

end CLib

/-! ## The text -/

/-- A `std::string` of `n` characters: the memory from its first character on. -/
structure Text (n : ℕ) : Type where
  /-- what stands where -/
  mem : ℕ → Char
  /-- the terminator -/
  nul : mem n = '\x00'

namespace Text

variable {n : ℕ}

/-- The characters from the cursor to the end. -/
def rest (t : Text n) (p : ℕ) : List Char := (List.range (n - p)).map fun i => t.mem (p + i)

/-- The C string at the cursor. The terminator ends it at the latest. -/
def cString (t : Text n) (p : ℕ) : List Char := (t.rest p).takeWhile (· ≠ '\x00')

/-- The text is `s`. -/
def Holds (t : Text n) (s : List Char) : Prop := t.rest 0 = s

/-- A text with nothing behind its terminator. -/
def of (s : List Char) : Text s.length where
  mem i := s.getD i '\x00'
  nul := List.getD_eq_default _ _ le_rfl

theorem holds_of (s : List Char) : (of s).Holds s := by
  refine List.ext_getElem (by simp [rest]) fun i _ hi => ?_
  simp only [rest, of, List.getElem_map, List.getElem_range, Nat.zero_add]
  exact List.getD_eq_getElem _ _ hi

end Text

namespace JsonParser

/-- A cursor beyond `p`. -/
abbrev Past (p : ℕ) : Type := { q : ℕ // p < q }

/-- The blanks between tokens, of which there are four. -/
def isWs (c : Char) : Bool := c = ' ' || c = '\t' || c = '\n' || c = '\r'

/-- What the four characters behind `\u` stand for. -/
def unit (s : List Char) : Char :=
  let v := CLib.strtoul16 s
  if v < 128 then Char.ofNat v.toNat else '?'

/-- What any other letter behind a backslash stands for: the control characters that have an escape,
and otherwise the letter itself. -/
def letter : Char → Char
  | 'n' => '\n'
  | 't' => '\t'
  | 'r' => '\r'
  | 'b' => '\x08'
  | 'f' => '\x0c'
  | c => c

/-- The characters of a string up to its closing quote, and how many characters they and the
quote take; nothing if there is no closing quote. -/
def strLoop : List Char → Option (List Char × ℕ)
  | [] => none
  | '"' :: _ => some ([], 1)
  | ['\\'] => none
  | '\\' :: 'u' :: a :: b :: c :: d :: s =>
    (strLoop s).map fun r => (unit [a, b, c, d] :: r.1, r.2 + 6)
  | '\\' :: 'u' :: s => (strLoop s).map fun r => (r.1, r.2 + 2)
  | '\\' :: c :: s => (strLoop s).map fun r => (letter c :: r.1, r.2 + 2)
  | c :: s => (strLoop s).map fun r => (c :: r.1, r.2 + 1)

section Parser

variable {D : Type} (toDouble : List Char → D) {n : ℕ} (t : Text n)

/-- `ws`: the cursor behind the blanks. It does not pass the end, but it may start beyond it. -/
def ws (p : ℕ) : ℕ := p + ((t.rest p).takeWhile isWs).length

/-- `peek`: the cursor stands at a character of the text. -/
def peek (p : ℕ) : Except String { q : ℕ // p ≤ q ∧ q < n } :=
  if h : ws t p < n then .ok ⟨ws t p, Nat.le_add_right _ _, h⟩
  else .error "json: unexpected EOF"

/-- `expect`: skip blanks and one character, which has to be this one. -/
def expect (c : Char) (p : ℕ) : Except String { q : ℕ // p < q ∧ q ≤ n } := do
  let ⟨q, hq⟩ ← peek t p
  if t.mem q ≠ c then .error s!"json: expected '{c}'"
  else return ⟨q + 1, Nat.lt_succ_of_le hq.1, hq.2⟩

/-- `str`: a string with its quotes. Its characters are bytes. -/
def str (p : ℕ) : Except String (String × Past p) := do
  let ⟨q, hq⟩ ← expect t '"' p
  match strLoop (t.rest q) with
  | none => .error "json: unterminated string"
  | some (s, k) => return (String.ofList s, ⟨q + k, Nat.lt_add_right k hq.1⟩)

/-- The last branch of `value`: whatever `strtod` takes is a number, also where JSON has none, and
if it takes nothing the parser throws. -/
def number (p : ℕ) : Except String (Jv D × Past p) :=
  let r := CLib.strtod toDouble (t.cString p)
  if h : r.2 = 0 then .error "json: bad number"
  else .ok (.num r.1, ⟨p + r.2, Nat.lt_add_of_pos_right (Nat.pos_of_ne_zero h)⟩)

mutual

/-- `value`: the first character decides the form. The three literals are told by their first
letter, and the cursor is moved on by their lengths. -/
def value (p : ℕ) : Except String (Jv D × Past p) := do
  let ⟨q, hq⟩ ← peek t p
  match t.mem q with
  | '{' =>
    let ⟨r, hr⟩ ← peek t (q + 1)
    if t.mem r = '}' then return (.obj [], ⟨r + 1, by omega⟩)
    else
      let (l, ⟨e, he⟩) ← members r
      return (.obj l, ⟨e, by omega⟩)
  | '[' =>
    let ⟨r, hr⟩ ← peek t (q + 1)
    if t.mem r = ']' then return (.arr [], ⟨r + 1, by omega⟩)
    else
      let (l, ⟨e, he⟩) ← elements r
      return (.arr l, ⟨e, by omega⟩)
  | '"' =>
    let (s, ⟨e, he⟩) ← str t q
    return (.str s, ⟨e, by omega⟩)
  | 't' => return (.boo true, ⟨q + 4, by omega⟩)
  | 'f' => return (.boo false, ⟨q + 5, by omega⟩)
  | 'n' => return (.nul, ⟨q + 4, by omega⟩)
  | _ =>
    let (v, ⟨e, he⟩) ← number toDouble t q
    return (v, ⟨e, by omega⟩)
termination_by (n - p, 0)

/-- The loop over the members of an object, behind its opening bracket. -/
def members (p : ℕ) : Except String (List (String × Jv D) × Past p) := do
  let (key, ⟨q, hq⟩) ← str t p
  let ⟨r, hr⟩ ← expect t ':' q
  let (v, ⟨e, he⟩) ← value r
  let ⟨d, hd⟩ ← peek t e
  if t.mem d = ',' then
    let (l, ⟨f, hf⟩) ← members (d + 1)
    return ((key, v) :: l, ⟨f, by omega⟩)
  else
    let ⟨f, hf⟩ ← expect t '}' d
    return ([(key, v)], ⟨f, by omega⟩)
termination_by (n - p, 1)

/-- The loop over the elements of an array, behind its opening bracket. -/
def elements (p : ℕ) : Except String (List (Jv D) × Past p) := do
  let (v, ⟨e, he⟩) ← value p
  let ⟨d, hd⟩ ← peek t e
  if t.mem d = ',' then
    let (l, ⟨f, hf⟩) ← elements (d + 1)
    return (v :: l, ⟨f, by omega⟩)
  else
    let ⟨f, hf⟩ ← expect t ']' d
    return ([v], ⟨f, by omega⟩)
termination_by (n - p, 1)

end

/-- `json_load`, of a file that can be read: one value. What follows it is not looked at. -/
def jsonLoad : Except String (Jv D) := do
  let (v, _) ← value toDouble t 0
  return v

end Parser

end JsonParser

end Megakernel
