import Mathlib.Data.List.Basic

/-!
# JSON texts

The grammar of JSON with ASCII strings, as a relation between a text and what it denotes.
What the strings and the numbers denote is left open: the relation is over a type of values
with a constructor for every form, and over two relations for the literals.
-/

namespace JsonText

open List

/-! ## Literals -/

/-- The insignificant blanks. -/
def Blank (w : List Char) : Prop := ∀ c ∈ w, c = ' ' ∨ c = '\t' ∨ c = '\n' ∨ c = '\r'

/-- Digits, at least one. -/
def Digits (s : List Char) : Prop := s ≠ [] ∧ ∀ c ∈ s, c.isDigit = true

/-- A fraction, or nothing: a point and digits, at least one. -/
def Fraction (s : List Char) : Prop := s = [] ∨ ∃ ds, s = '.' :: ds ∧ Digits ds

/-- An exponent, or nothing: the letter, perhaps a sign, and digits. -/
def Exponent (s : List Char) : Prop :=
  s = [] ∨ ∃ e sign ds, s = e :: (sign ++ ds) ∧ (e = 'e' ∨ e = 'E') ∧
    (sign = [] ∨ sign = ['+'] ∨ sign = ['-']) ∧ Digits ds

/-- A number: perhaps a minus sign, digits without a leading zero, a fraction and an exponent. -/
inductive Number : List Char → Prop where
  | mk {sign int frac exp : List Char} (hsign : sign = [] ∨ sign = ['-']) (hint : Digits int)
      (hzero : int = ['0'] ∨ int.head? ≠ some '0') (hfrac : Fraction frac) (hexp : Exponent exp) :
      Number (sign ++ (int ++ (frac ++ exp)))

/-- The hexadecimal digits. -/
def HexDigit (c : Char) : Prop := c ∈ "0123456789abcdefABCDEF".toList

instance (c : Char) : Decidable (HexDigit c) := inferInstanceAs (Decidable (_ ∈ _))

/-- The escapes of one letter, and what they denote. -/
def escapes : List (Char × Char) :=
  [('"', '"'), ('\\', '\\'), ('/', '/'), ('b', '\x08'), ('f', '\x0c'), ('n', '\n'), ('r', '\r'),
    ('t', '\t')]

/-- What stands between the quotes of a string, and the characters it denotes. An escape of four
hexadecimal digits denotes what `unit` makes of them. -/
inductive Chars (unit : List Char → Char) : List Char → List Char → Prop where
  | nil : Chars unit [] []
  | plain {c : Char} {s v : List Char} (hlo : 32 ≤ c.toNat) (hhi : c.toNat < 128) (hq : c ≠ '"')
      (hb : c ≠ '\\') (h : Chars unit s v) : Chars unit (c :: s) (c :: v)
  | letter {e c : Char} {s v : List Char} (he : (e, c) ∈ escapes) (h : Chars unit s v) :
      Chars unit ('\\' :: e :: s) (c :: v)
  | unit {a b c d : Char} {s v : List Char} (hx : ∀ x ∈ [a, b, c, d], HexDigit x)
      (h : Chars unit s v) :
      Chars unit ('\\' :: 'u' :: a :: b :: c :: d :: s) (unit [a, b, c, d] :: v)

/-- A string: what denotes its characters, between quotes. -/
def StringLit (unit : List Char → Char) (s : List Char) (v : String) : Prop :=
  ∃ body cs, Chars unit body cs ∧ s = '"' :: (body ++ ['"']) ∧ v = String.ofList cs

/-! ## Values -/

/-- The forms of values, over a type of values and a type of numbers. -/
structure Forms (V D : Type) : Type where
  nul : V
  boo : Bool → V
  num : D → V
  str : String → V
  arr : List V → V
  obj : List (String × V) → V

/-- A value between blanks, as it stands in an array. -/
structure Spaced (V : Type) : Type where
  before : List Char
  text : List Char
  after : List Char
  val : V

/-- A member of an object: a key and a value, each between blanks. -/
structure Member (V : Type) : Type where
  before : List Char
  keyText : List Char
  key : String
  after : List Char
  item : Spaced V

variable {V D : Type}

/-- The text of a value between blanks. -/
def Spaced.form (i : Spaced V) : List Char := i.before ++ (i.text ++ i.after)

/-- The text of a member. -/
def Member.form (m : Member V) : List Char :=
  m.before ++ (m.keyText ++ (m.after ++ ':' :: m.item.form))

/-- Blanks are blanks. The text of the value itself is a matter of `Denotes`. -/
def Spaced.Ok (i : Spaced V) : Prop := Blank i.before ∧ Blank i.after

/-- Blanks are blanks, and the key is a string. -/
def Member.Ok (S : List Char → String → Prop) (m : Member V) : Prop :=
  Blank m.before ∧ S m.keyText m.key ∧ Blank m.after ∧ m.item.Ok

/-- What stands between the brackets: the texts of the items with commas between them. -/
def inner {α : Type} (form : α → List Char) (is : List α) : List Char :=
  [','].intercalate (is.map form)

/-- A text denotes a value; strings are literals of `S`, numbers are literals of `N`. -/
inductive Denotes (F : Forms V D) (S : List Char → String → Prop) (N : List Char → D → Prop) :
    List Char → V → Prop where
  | nul : Denotes F S N "null".toList F.nul
  | tru : Denotes F S N "true".toList (F.boo true)
  | fls : Denotes F S N "false".toList (F.boo false)
  | num {s : List Char} {d : D} (h : N s d) : Denotes F S N s (F.num d)
  | str {s : List Char} {v : String} (h : S s v) : Denotes F S N s (F.str v)
  | arrNil {w : List Char} (h : Blank w) : Denotes F S N ('[' :: (w ++ [']'])) (F.arr [])
  | arr {is : List (Spaced V)} (hne : is ≠ []) (hok : ∀ i ∈ is, i.Ok)
      (hval : ∀ i ∈ is, Denotes F S N i.text i.val) :
      Denotes F S N ('[' :: (inner Spaced.form is ++ [']'])) (F.arr (is.map Spaced.val))
  | objNil {w : List Char} (h : Blank w) : Denotes F S N ('{' :: (w ++ ['}'])) (F.obj [])
  | obj {ms : List (Member V)} (hne : ms ≠ []) (hok : ∀ m ∈ ms, m.Ok S)
      (hval : ∀ m ∈ ms, Denotes F S N m.item.text m.item.val) :
      Denotes F S N ('{' :: (inner Member.form ms ++ ['}']))
        (F.obj (ms.map fun m => (m.key, m.item.val)))

end JsonText
