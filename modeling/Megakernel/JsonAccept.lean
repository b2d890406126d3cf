import Mathlib.Tactic.Tauto
import Megakernel.JsonParser
import Megakernel.JsonText

/-!
# What the JSON parser does with a token

One lemma for every function of the parser, in terms of the characters that follow the cursor: what
it returns and where the cursor stands then (`Yields`), or that it throws (`Throws`). The lemmas are
about any text that goes on as they say, so that they can be used in the middle of a document and at
a cut.

A number is the hardest token, because `strtod` takes more than JSON writes: signs, points,
exponents, hexadecimal digits, infinities and NaN. That it takes exactly a JSON number depends on
the character behind it (`Stops`), which is why every value is followed by a blank, a comma, a
bracket or the end (`Follows`).
-/

namespace Megakernel

open List

/-! ## Reading -/

namespace Text

variable {n : ℕ} {t : Text n} {p : ℕ} {c : Char} {s r : List Char}

@[simp] theorem length_rest (t : Text n) (p : ℕ) : (t.rest p).length = n - p := by
  rw [rest, length_map, length_range]

/-- Before the end of the text there is a character at the cursor, and what follows it is what is
left one further on. -/
theorem rest_of_lt (h : p < n) : t.rest p = t.mem p :: t.rest (p + 1) := by
  have hn : n - p = (n - (p + 1)) + 1 := by omega
  rw [rest, hn, range_succ_eq_map, map_cons, map_map, rest]
  refine congrArg _ (map_congr_left fun i _ => ?_)
  exact congrArg t.mem (by rw [Nat.succ_eq_add_one]; omega)

/-- From the end on nothing is left, also where the cursor has gone beyond it. -/
theorem rest_of_ge (h : n ≤ p) : t.rest p = [] := by
  rw [← length_eq_zero_iff, length_rest]
  exact Nat.sub_eq_zero_of_le h

/-- The character at the cursor. -/
theorem of_rest_cons (h : t.rest p = c :: r) : p < n ∧ t.mem p = c ∧ t.rest (p + 1) = r := by
  obtain hlt | hge := Nat.lt_or_ge p n
  · rw [rest_of_lt hlt, cons_eq_cons] at h
    exact ⟨hlt, h⟩
  · rw [rest_of_ge hge] at h
    cases h

/-- Moving the cursor over what stands there. -/
theorem rest_add_length (h : t.rest p = s ++ r) : t.rest (p + s.length) = r := by
  induction s generalizing p with
  | nil => exact h
  | cons c s ih =>
    have hrest := ih (of_rest_cons h).2.2
    rwa [length_cons, Nat.add_comm s.length, ← Nat.add_assoc]

end Text

namespace JsonParser

open JsonText CLib

/-- A function returns `a` and leaves the cursor at `q`. -/
def Yields {α : Type} {p : ℕ} (x : Except String (α × Past p)) (a : α) (q : ℕ) : Prop :=
  ∃ h : p < q, x = .ok (a, ⟨q, h⟩)

/-- A function throws an exception. -/
def Throws {α : Type} (x : Except String α) : Prop := ∃ e, x = .error e

variable {D : Type} {toDouble : List Char → D} {n : ℕ} {t : Text n} {p q : ℕ} {c : Char}
  {w s r : List Char}

theorem ok_bind {α β : Type} (a : α) (f : α → Except String β) : (.ok a >>= f) = f a := rfl

/-! ## Tokens -/

theorem isWs_of_blank (h : Blank w) : ∀ c ∈ w, isWs c = true := by
  intro c hc
  obtain rfl | rfl | rfl | rfl := h c hc <;> rfl

/-- What satisfies a test, followed by something that does not. -/
theorem takeWhile_append_stop {f : Char → Bool} (hs : ∀ c ∈ s, f c = true)
    (hr : ∀ c ∈ r.head?, f c = false) : (s ++ r).takeWhile f = s := by
  rw [takeWhile_append_of_pos hs]
  cases r with
  | nil => exact append_nil s
  | cons c r => rw [takeWhile_cons, hr c rfl, if_neg Bool.false_ne_true, append_nil]

/-- The blanks in front of something that is no blank are skipped, all of them and nothing else. -/
theorem ws_of_rest (h : t.rest p = w ++ r) (hw : Blank w) (hr : ∀ c ∈ r.head?, isWs c = false) :
    ws t p = p + w.length := by
  rw [ws, h, takeWhile_append_stop (isWs_of_blank hw) hr]

/-- `peek` skips blanks. -/
theorem peek_of_rest (h : t.rest p = w ++ c :: r) (hw : Blank w) (hc : isWs c = false) :
    ∃ hq, peek t p = .ok ⟨p + w.length, hq⟩ := by
  have hws : ws t p = p + w.length := ws_of_rest h hw fun x hx => by
    obtain rfl := Option.some.inj hx
    exact hc
  have hlt : p + w.length < n := (Text.of_rest_cons (Text.rest_add_length h)).1
  refine ⟨⟨Nat.le_add_right _ _, hlt⟩, ?_⟩
  simp only [peek, hws, dif_pos hlt]

/-- `peek` throws when only blanks are left. -/
theorem peek_of_blank (h : t.rest p = w) (hw : Blank w) : Throws (peek t p) := by
  have hws : ws t p = p + w.length :=
    ws_of_rest (h.trans (append_nil w).symm) hw fun x hx => by cases hx
  have hge : ¬ ws t p < n := by
    have hlen := congrArg length h
    rw [Text.length_rest] at hlen
    omega
  exact ⟨_, dif_neg hge⟩

/-- If the character that is seen next is the expected one, the cursor is moved behind it. -/
theorem expect_of_peek {hq} (h : peek t p = .ok ⟨q, hq⟩) (hc : t.mem q = c) :
    ∃ h', expect t c p = .ok ⟨q + 1, h'⟩ := by
  refine ⟨⟨Nat.lt_succ_of_le hq.1, hq.2⟩, ?_⟩
  rw [expect, h, ok_bind]
  exact if_neg (not_not.mpr hc)

/-- If another character is seen, the parser throws. -/
theorem expect_throws_of_peek {hq} (h : peek t p = .ok ⟨q, hq⟩) (hc : t.mem q ≠ c) :
    Throws (expect t c p) := by
  rw [expect, h, ok_bind]
  exact ⟨_, if_pos hc⟩

/-- Nothing can be expected where nothing can be seen. -/
theorem expect_throws (h : Throws (peek t p)) : Throws (expect t c p) := by
  obtain ⟨e, he⟩ := h
  rw [expect, he]
  exact ⟨e, rfl⟩

theorem expect_of_rest (h : t.rest p = w ++ c :: r) (hw : Blank w) (hc : isWs c = false) :
    ∃ h', expect t c p = .ok ⟨p + w.length + 1, h'⟩ := by
  obtain ⟨hq, hpeek⟩ := peek_of_rest h hw hc
  exact expect_of_peek hpeek (Text.of_rest_cons (Text.rest_add_length h)).2.1

/-! ## Strings -/

/-- A character other than a quote and a backslash stands for itself. -/
theorem strLoop_plain (hq : c ≠ '"') (hb : c ≠ '\\') (s : List Char) :
    strLoop (c :: s) = (strLoop s).map fun r => (c :: r.1, r.2 + 1) := by
  rw [strLoop]
  all_goals simp_all

/-- An escape of two characters stands for one, and the loop goes on behind both. The escape `u` is
the only one that is longer. -/
theorem strLoop_letter (hc : c ≠ 'u') (s : List Char) :
    strLoop ('\\' :: c :: s) = (strLoop s).map fun r => (letter c :: r.1, r.2 + 2) := by
  rw [strLoop]
  all_goals simp_all

/-- What the grammar says of the escapes of two characters is what the parser makes of them. -/
theorem letter_of_escapes {e c : Char} (h : (e, c) ∈ escapes) : e ≠ 'u' ∧ letter e = c := by
  simp only [escapes, mem_cons, Prod.mk.injEq, not_mem_nil, or_false] at h
  obtain ⟨rfl, rfl⟩ | ⟨rfl, rfl⟩ | ⟨rfl, rfl⟩ | ⟨rfl, rfl⟩ | ⟨rfl, rfl⟩ | ⟨rfl, rfl⟩ | ⟨rfl, rfl⟩ |
    ⟨rfl, rfl⟩ := h <;> exact ⟨by decide, rfl⟩

/-- The loop reads the characters of a string and its closing quote. -/
theorem strLoop_of_chars {v : List Char} (h : Chars unit s v) (r : List Char) :
    strLoop (s ++ '"' :: r) = some (v, s.length + 1) := by
  induction h with
  | nil => rfl
  | plain _ _ hq hb _ ih =>
    rw [cons_append, strLoop_plain hq hb, ih]
    rfl
  | letter he _ ih =>
    obtain ⟨hu, hl⟩ := letter_of_escapes he
    rw [cons_append, cons_append, strLoop_letter hu, ih, hl]
    rfl
  | unit _ _ ih =>
    simp only [cons_append]
    rw [strLoop, ih]
    rfl

/-- A string literal, with blanks in front of it, is read as the text that it denotes, and the
cursor comes to stand just behind the closing quote. -/
theorem str_of_rest {v : String} (hs : StringLit unit s v) (h : t.rest p = w ++ (s ++ r))
    (hw : Blank w) : Yields (str t p) v (p + w.length + s.length) := by
  obtain ⟨body, cs, hchars, rfl, rfl⟩ := hs
  rw [cons_append, append_assoc, singleton_append] at h
  obtain ⟨hq, hexp⟩ := expect_of_rest h hw rfl
  have hrest := (Text.of_rest_cons (Text.rest_add_length h)).2.2
  have hlen : p + w.length + ('"' :: (body ++ ['"'])).length =
      p + w.length + 1 + (body.length + 1) := by
    rw [length_cons, length_append, length_singleton]
    omega
  rw [hlen]
  refine ⟨by omega, ?_⟩
  rw [str, hexp, ok_bind]
  dsimp only
  rw [hrest, strLoop_of_chars hchars]
  rfl

/-! ## Numbers -/

/-- No character that continues a number is at the front. Behind a number of a document such a
character cannot stand. -/
def Stops (r : List Char) : Prop :=
  ∀ c ∈ r.head?, c.isDigit = false ∧ c ≠ '.' ∧ c.toLower ≠ 'e' ∧ c ≠ 'x' ∧ c ≠ 'X'

/-- What may follow a value: the end, a blank, a comma or a closing bracket. -/
def Follows (r : List Char) : Prop := ∀ c ∈ r.head?, isWs c = true ∨ c = ',' ∨ c = ']' ∨ c = '}'

/-- What follows a value is no part of a number. -/
theorem Follows.stops (h : Follows r) : Stops r := by
  intro c hc
  have hcs : c = ' ' ∨ c = '\t' ∨ c = '\n' ∨ c = '\r' ∨ c = ',' ∨ c = ']' ∨ c = '}' := by
    have := h c hc
    simp only [isWs, Bool.or_eq_true, decide_eq_true_eq] at this
    tauto
  obtain rfl | rfl | rfl | rfl | rfl | rfl | rfl := hcs <;> decide

theorem digit_range {c : Char} (h : c.isDigit = true) : 48 ≤ c.toNat ∧ c.toNat ≤ 57 := by
  simpa [Char.isDigit, UInt32.le_iff_toNat_le] using h

/-- A digit is no other character that `strtod` looks for. -/
theorem of_isDigit {c : Char} (h : c.isDigit = true) :
    isSpace c = false ∧ c ≠ '-' ∧ c ≠ '+' ∧ c ≠ '.' ∧ c.toLower = c ∧ c ≠ '\x00' := by
  have hc := digit_range h
  refine ⟨?_, ?_, ?_, ?_, ?_, ?_⟩
  · simp only [isSpace, Bool.or_eq_false_iff, decide_eq_false_iff_not]
    refine ⟨⟨⟨⟨⟨?_, ?_⟩, ?_⟩, ?_⟩, ?_⟩, ?_⟩ <;> rintro rfl <;> simp at hc
  · rintro rfl
    simp at hc
  · rintro rfl
    simp at hc
  · rintro rfl
    simp at hc
  · refine dif_neg ?_
    rintro ⟨hA, -⟩
    have hle : 65 ≤ c.toNat := UInt32.le_iff_toNat_le.mp hA
    omega
  · rintro rfl
    simp at hc

/-- `strtod` takes all of the integer part and of the fraction and stops behind them, as what comes
next is neither a digit nor a point. -/
theorem mantissaLength_of_digits {int frac : List Char} (hi : Digits int) (hf : Fraction frac)
    (hr : ∀ c ∈ r.head?, c.isDigit = false ∧ c ≠ '.') :
    mantissaLength Char.isDigit (int ++ (frac ++ r)) = int.length + frac.length := by
  have hstop : ∀ c ∈ r.head?, c.isDigit = false := fun c hc => (hr c hc).1
  obtain rfl | ⟨ds, rfl, hds⟩ := hf
  · rw [nil_append, mantissaLength, takeWhile_append_stop hi.2 hstop, drop_left]
    cases r with
    | nil => rfl
    | cons c r =>
      have hc : c ≠ '.' := (hr c rfl).2
      dsimp only
      split
      · next heq => exact absurd (cons_eq_cons.mp heq).1 hc
      · rfl
  · have hdot : ∀ c ∈ ('.' :: (ds ++ r)).head?, c.isDigit = false := by
      rintro c hc
      obtain rfl := Option.some.inj hc
      rfl
    have hpos : int.length + ds.length ≠ 0 := fun h =>
      hi.1 (length_eq_zero_iff.mp (Nat.eq_zero_of_add_eq_zero h).1)
    have hfrac : (ds ++ r).takeWhile Char.isDigit = ds := takeWhile_append_stop hds.2 hstop
    rw [cons_append, mantissaLength, takeWhile_append_stop hi.2 hdot, drop_left]
    simp only [hfrac, if_neg hpos, length_cons]
    omega

/-- The exponent likewise. If there is none, what follows has no `e`, so nothing is taken for one.
-/
theorem exponentLength_of_exponent {exp : List Char} (he : Exponent exp)
    (hr : ∀ c ∈ r.head?, c.isDigit = false ∧ c.toLower ≠ 'e') :
    exponentLength 'e' (exp ++ r) = exp.length := by
  obtain rfl | ⟨e, sign, ds, rfl, hes, hsign, hds⟩ := he
  · cases r with
    | nil => rfl
    | cons c r =>
      rw [nil_append, exponentLength]
      exact if_neg fun h => (hr c rfl).2 h.1
  · have hlow : e.toLower = 'e' := by
      obtain rfl | rfl := hes <;> decide
    have hsplit : splitSign (sign ++ ds ++ r) = (sign, ds ++ r) := by
      obtain rfl | rfl | rfl := hsign
      · obtain ⟨d, ds, rfl⟩ := exists_cons_of_ne_nil hds.1
        have hd := of_isDigit (hds.2 d mem_cons_self)
        rw [nil_append, cons_append, splitSign, if_neg (by tauto)]
      · rfl
      · rfl
    have hpos : ds.length ≠ 0 := fun h => hds.1 (length_eq_zero_iff.mp h)
    rw [cons_append, exponentLength, hsplit]
    dsimp only
    rw [takeWhile_append_stop hds.2 fun c hc => (hr c hc).1, if_pos ⟨hlow, hpos⟩, length_cons,
      length_append]
    omega

/-- A number of the grammar is the longest prefix that `strtod` can use. -/
theorem decimalLength_of_number {int frac exp : List Char} (hi : Digits int) (hf : Fraction frac)
    (he : Exponent exp) (hr : Stops r) :
    decimalLength (int ++ (frac ++ (exp ++ r))) = (int ++ (frac ++ exp)).length := by
  have hmant : mantissaLength Char.isDigit (int ++ (frac ++ (exp ++ r))) =
      int.length + frac.length := by
    refine mantissaLength_of_digits hi hf fun c hc => ?_
    obtain rfl | ⟨e, sign, ds, rfl, hes, -⟩ := he
    · exact ⟨(hr c hc).1, (hr c hc).2.1⟩
    · obtain rfl := Option.some.inj hc
      obtain rfl | rfl := hes <;> decide
  have hpos : int.length ≠ 0 := fun h => hi.1 (length_eq_zero_iff.mp h)
  have hdrop : (int ++ (frac ++ (exp ++ r))).drop (int.length + frac.length) = exp ++ r := by
    rw [← append_assoc, ← length_append, drop_left]
  rw [decimalLength, hmant, if_neg (by omega), hdrop,
    exponentLength_of_exponent he fun c hc => ⟨(hr c hc).1, (hr c hc).2.2.1⟩]
  simp only [length_append]
  omega

/-- A number that starts with a digit is decimal, unless it starts with `0x`. -/
theorem unsignedLength_of_digit {d : Char} (hd : d.isDigit = true)
    (hx : ∀ x ∈ s.head?, d = '0' → x ≠ 'x' ∧ x ≠ 'X') :
    unsignedLength (d :: s) = decimalLength (d :: s) := by
  have hlow : d.toLower = d := (of_isDigit hd).2.2.2.2.1
  have hword : ∀ word ∈ ["infinity", "inf", "nan"], startsWith word (d :: s) = false := by
    intro word hword
    simp only [mem_cons, not_mem_nil, or_false] at hword
    rw [startsWith, map_cons, hlow]
    obtain rfl | rfl | rfl := hword
    all_goals
      rw [Bool.eq_false_iff]
      intro h
      have hpre := isPrefixOf_iff_prefix.mp h
      rw [← (cons_prefix_cons.mp hpre).1] at hd
      revert hd
      decide
  unfold unsignedLength
  rw [if_neg (by simp [hword]), if_neg (by simp [hword]), if_neg (by simp [hword])]
  split
  · next x r heq =>
    obtain ⟨rfl, rfl⟩ := cons_eq_cons.mp heq
    have hne := hx x rfl rfl
    exact if_neg fun h => by tauto
  · rfl

/-- `strtod` takes exactly a number: all of its characters, and none of what follows. -/
theorem strtod_of_number (hs : Number s) (hr : Stops r) :
    strtod toDouble (s ++ r) = (toDouble s, s.length) := by
  obtain @⟨sign, int, frac, exp, hsign, hi, hzero, hf, he⟩ := hs
  obtain ⟨d, int', rfl⟩ := exists_cons_of_ne_nil hi.1
  have hd : d.isDigit = true := hi.2 d mem_cons_self
  obtain ⟨hspace, hminus, hplus, -⟩ := of_isDigit hd
  have hlen := decimalLength_of_number hi hf he hr
  have hassoc : (d :: int' ++ (frac ++ exp)) ++ r = d :: int' ++ (frac ++ (exp ++ r)) := by
    simp only [append_assoc]
  have hunsigned : unsignedLength (d :: int' ++ (frac ++ (exp ++ r))) =
      (d :: int' ++ (frac ++ exp)).length := by
    rw [cons_append, unsignedLength_of_digit hd, ← cons_append, hlen]
    rintro x hx rfl
    -- a leading zero is the whole integer part
    have hint : int' = [] := by
      obtain h | h := hzero
      · exact (cons_eq_cons.mp h).2
      · exact absurd rfl h
    rw [hint, nil_append] at hx
    obtain rfl | ⟨ds, rfl, -⟩ := hf
    · obtain rfl | ⟨e, sg, ds, rfl, hes, -⟩ := he
      · exact (hr x hx).2.2.2
      · obtain rfl := Option.some.inj hx
        obtain rfl | rfl := hes <;> decide
    · obtain rfl := Option.some.inj hx
      decide
  have htake : (d :: int' ++ (frac ++ (exp ++ r))).take (d :: int' ++ (frac ++ exp)).length =
      d :: int' ++ (frac ++ exp) := by
    rw [← hassoc, take_left]
  have hpos : (d :: int' ++ (frac ++ exp)).length ≠ 0 := by
    rw [cons_append, length_cons]
    omega
  have hblank : ((sign ++ (d :: int' ++ (frac ++ exp)) ++ r).takeWhile isSpace).length = 0 := by
    obtain rfl | rfl := hsign
    · rw [nil_append, cons_append, cons_append, takeWhile_cons, hspace]
      rfl
    · rfl
  have hsplit : splitSign (sign ++ (d :: int' ++ (frac ++ exp)) ++ r) =
      (sign, d :: int' ++ (frac ++ (exp ++ r))) := by
    rw [append_assoc, hassoc]
    obtain rfl | rfl := hsign
    · rw [nil_append, cons_append, splitSign, if_neg (by tauto)]
    · rfl
  rw [strtod, hblank, drop_zero, hsplit]
  dsimp only
  rw [hunsigned, if_neg hpos, htake, Nat.zero_add, ← length_append]

/-- The characters of numbers. -/
def Numeric (c : Char) : Prop := c.isDigit = true ∨ c ∈ ['-', '+', '.', 'e', 'E']

/-- No character of a number ends one, so that its end is found by what follows it. -/
theorem numeric_of_number (hs : Number s) : ∀ c ∈ s, Numeric c := by
  obtain ⟨hsign, hi, -, hf, he⟩ := hs
  intro c hc
  rw [mem_append, mem_append, mem_append] at hc
  obtain hc | hc | hc | hc := hc
  · obtain rfl | rfl := hsign
    · cases hc
    · obtain rfl := mem_singleton.mp hc
      exact Or.inr (by decide)
  · exact Or.inl (hi.2 c hc)
  · obtain rfl | ⟨ds, rfl, hds⟩ := hf
    · cases hc
    · obtain rfl | hc := mem_cons.mp hc
      · exact Or.inr (by decide)
      · exact Or.inl (hds.2 c hc)
  · obtain rfl | ⟨e, sign, ds, rfl, hes, hsign, hds⟩ := he
    · cases hc
    · obtain rfl | hc := mem_cons.mp hc
      · obtain rfl | rfl := hes <;> exact Or.inr (by decide)
      · obtain hc | hc := mem_append.mp hc
        · obtain rfl | rfl | rfl := hsign
          · cases hc
          · obtain rfl := mem_singleton.mp hc
            exact Or.inr (by decide)
          · obtain rfl := mem_singleton.mp hc
            exact Or.inr (by decide)
        · exact Or.inl (hds.2 c hc)

theorem number_ne_nil (hs : Number s) : s ≠ [] := by
  obtain ⟨-, hi, -⟩ := hs
  intro h
  exact hi.1 (append_eq_nil_iff.mp (append_eq_nil_iff.mp h).2).1

/-- A character of a number is no other character that the parser looks for. -/
theorem Numeric.ne (h : Numeric c) :
    isWs c = false ∧ c ≠ '\x00' ∧ c ∉ [',', ':', '[', ']', '{', '}', '"', 't', 'f', 'n'] := by
  obtain hd | hc := h
  · have hr := digit_range hd
    refine ⟨?_, (of_isDigit hd).2.2.2.2.2, ?_⟩
    · simp only [isWs, Bool.or_eq_false_iff, decide_eq_false_iff_not]
      refine ⟨⟨⟨?_, ?_⟩, ?_⟩, ?_⟩ <;> rintro rfl <;> simp at hr
    · intro hmem
      simp only [mem_cons, not_mem_nil, or_false] at hmem
      obtain rfl | rfl | rfl | rfl | rfl | rfl | rfl | rfl | rfl | rfl := hmem <;> simp at hr
  · simp only [mem_cons, not_mem_nil, or_false] at hc
    obtain rfl | rfl | rfl | rfl | rfl := hc <;> decide

/-- What `strtod` sees from the cursor is the number and whatever follows it up to the next zero. -/
theorem cString_of_rest (h : t.rest p = s ++ r) (hs : ∀ c ∈ s, Numeric c) :
    t.cString p = s ++ r.takeWhile (· ≠ '\x00') := by
  rw [Text.cString, h, takeWhile_append_of_pos]
  intro c hc
  exact decide_eq_true (hs c hc).ne.2.1

/-- A number is read as the double its characters stand for. What follows must not go on as a number
does, which a blank, a comma and the closing brackets do not. -/
theorem number_of_rest (hs : Number s) (h : t.rest p = s ++ r) (hr : Follows r) :
    Yields (number toDouble t p) (.num (toDouble s)) (p + s.length) := by
  have hstops : Stops (r.takeWhile (· ≠ '\x00')) := by
    intro c hc
    cases r with
    | nil => cases hc
    | cons d r =>
      rw [takeWhile_cons] at hc
      split at hc
      · exact hr.stops c hc
      · cases hc
  have hstr : strtod toDouble (t.cString p) = (toDouble s, s.length) := by
    rw [cString_of_rest h (numeric_of_number hs), strtod_of_number hs hstops]
  have hpos : s.length ≠ 0 := fun h => number_ne_nil hs (length_eq_zero_iff.mp h)
  refine ⟨by omega, ?_⟩
  simp only [number, hstr, dif_neg hpos]

/-! ## Values -/

/-- What throws at first throws as a whole. -/
theorem Throws.bind {α β : Type} {x : Except String α} (h : Throws x) (f : α → Except String β) :
    Throws (x >>= f) := by
  obtain ⟨e, rfl⟩ := h
  exact ⟨e, rfl⟩

/-- A value begins with what is seen at the cursor; where nothing is seen, there is none. -/
theorem value_throws (h : Throws (peek t p)) : Throws (value toDouble t p) := by
  rw [value]
  exact h.bind _

section Value

variable {hq : p ≤ q ∧ q < n} {e : ℕ}

/-- A quote begins a string, and the value is that of the string. -/
theorem value_str {v : String} (hpeek : peek t p = .ok ⟨q, hq⟩) (hc : t.mem q = '"')
    (h : Yields (str t q) v e) : Yields (value toDouble t p) (.str v) e := by
  obtain ⟨he, hstr⟩ := h
  refine ⟨by omega, ?_⟩
  rw [value, hpeek, ok_bind]
  dsimp only
  rw [hc, hstr, ok_bind]
  rfl

/-- A string that cannot be read is no value either. -/
theorem value_str_throws (hpeek : peek t p = .ok ⟨q, hq⟩) (hc : t.mem q = '"')
    (h : Throws (str t q)) : Throws (value toDouble t p) := by
  rw [value, hpeek, ok_bind]
  dsimp only
  rw [hc]
  exact h.bind _

/-- A `t` is `true` without a look at the other letters: the cursor moves on by four, wherever it
then stands. -/
theorem value_tru (hpeek : peek t p = .ok ⟨q, hq⟩) (hc : t.mem q = 't') :
    Yields (value toDouble t p) (.boo true) (q + 4) := by
  refine ⟨by omega, ?_⟩
  rw [value, hpeek, ok_bind]
  dsimp only
  rw [hc]
  rfl

/-- An `f` is `false` in the same way, five characters long. -/
theorem value_fls (hpeek : peek t p = .ok ⟨q, hq⟩) (hc : t.mem q = 'f') :
    Yields (value toDouble t p) (.boo false) (q + 5) := by
  refine ⟨by omega, ?_⟩
  rw [value, hpeek, ok_bind]
  dsimp only
  rw [hc]
  rfl

/-- An `n` is `null`, four characters long. -/
theorem value_nul (hpeek : peek t p = .ok ⟨q, hq⟩) (hc : t.mem q = 'n') :
    Yields (value toDouble t p) .nul (q + 4) := by
  refine ⟨by omega, ?_⟩
  rw [value, hpeek, ok_bind]
  dsimp only
  rw [hc]
  rfl

/-- The last branch is taken for the characters of numbers. -/
theorem value_number (hpeek : peek t p = .ok ⟨q, hq⟩) (hc : Numeric (t.mem q)) :
    (∀ v, Yields (number toDouble t q) v e → Yields (value toDouble t p) v e) ∧
      (Throws (number toDouble t q) → Throws (value toDouble t p)) := by
  have hne := hc.ne.2.2
  simp only [mem_cons, not_mem_nil, or_false, not_or] at hne
  have heq : value toDouble t p =
      (number toDouble t q >>= fun r => .ok (r.1, ⟨r.2.1, lt_of_le_of_lt hq.1 r.2.2⟩)) := by
    rw [value, hpeek, ok_bind]
    dsimp only
    split <;> first | rfl | exact absurd ‹_› (by tauto)
  rw [heq]
  constructor
  · rintro v ⟨he, hnum⟩
    refine ⟨by omega, ?_⟩
    rw [hnum]
    rfl
  · exact fun h => h.bind _

/-! ### Arrays -/

section Arrays

variable {l : List (Jv D)} {v : Jv D} {r d f : ℕ} {hr : q + 1 ≤ r ∧ r < n} {hd : e ≤ d ∧ d < n}

/-- Behind an opening bracket something has to follow. -/
theorem value_arr_eof (hpeek : peek t p = .ok ⟨q, hq⟩) (hc : t.mem q = '[')
    (h : Throws (peek t (q + 1))) : Throws (value toDouble t p) := by
  rw [value, hpeek, ok_bind]
  dsimp only
  rw [hc]
  exact h.bind _

/-- An array that is closed at once is empty. -/
theorem value_arr_nil (hpeek : peek t p = .ok ⟨q, hq⟩) (hc : t.mem q = '[')
    (hpeek' : peek t (q + 1) = .ok ⟨r, hr⟩) (hc' : t.mem r = ']') :
    Yields (value toDouble t p) (.arr []) (r + 1) := by
  refine ⟨by omega, ?_⟩
  rw [value, hpeek, ok_bind]
  dsimp only
  rw [hc, hpeek', ok_bind]
  exact if_pos hc'

/-- Otherwise an array is what the loop over its elements reads, and it throws if the loop does. -/
theorem value_arr (hpeek : peek t p = .ok ⟨q, hq⟩) (hc : t.mem q = '[')
    (hpeek' : peek t (q + 1) = .ok ⟨r, hr⟩) (hc' : t.mem r ≠ ']') :
    (Yields (elements toDouble t r) l e → Yields (value toDouble t p) (.arr l) e) ∧
      (Throws (elements toDouble t r) → Throws (value toDouble t p)) := by
  rw [value, hpeek, ok_bind]
  dsimp only
  rw [hc, hpeek', ok_bind]
  constructor
  · rintro ⟨he, hl⟩
    refine ⟨by omega, (if_neg hc').trans ?_⟩
    rw [hl]
    rfl
  · rintro ⟨e, he⟩
    refine ⟨e, (if_neg hc').trans ?_⟩
    rw [he]
    rfl

/-- The loop over the elements fails with its first element, -/
theorem elements_throws (h : Throws (value toDouble t p)) : Throws (elements toDouble t p) := by
  rw [elements]
  exact h.bind _

/-- or behind it, where a comma or the closing bracket should be. -/
theorem elements_throws_peek (h : Yields (value toDouble t p) v e) (hpeek : Throws (peek t e)) :
    Throws (elements toDouble t p) := by
  obtain ⟨he, hv⟩ := h
  rw [elements, hv, ok_bind]
  exact hpeek.bind _

/-- An element with a comma behind it. -/
theorem elements_cons (h : Yields (value toDouble t p) v e) (hpeek : peek t e = .ok ⟨d, hd⟩)
    (hc : t.mem d = ',') :
    (Yields (elements toDouble t (d + 1)) l f → Yields (elements toDouble t p) (v :: l) f) ∧
      (Throws (elements toDouble t (d + 1)) → Throws (elements toDouble t p)) := by
  obtain ⟨he, hv⟩ := h
  rw [elements.eq_def _ _ p, hv, ok_bind]
  dsimp only
  rw [hpeek, ok_bind]
  constructor
  · rintro ⟨hf, hl⟩
    refine ⟨by omega, (if_pos hc).trans ?_⟩
    rw [hl]
    rfl
  · rintro ⟨m, hm⟩
    refine ⟨m, (if_pos hc).trans ?_⟩
    rw [hm]
    rfl

/-- An element with something else behind it. -/
theorem elements_last (h : Yields (value toDouble t p) v e) (hpeek : peek t e = .ok ⟨d, hd⟩)
    (hc : t.mem d ≠ ',') :
    (∀ hf, expect t ']' d = .ok ⟨f, hf⟩ → Yields (elements toDouble t p) [v] f) ∧
      (Throws (expect t ']' d) → Throws (elements toDouble t p)) := by
  obtain ⟨he, hv⟩ := h
  rw [elements, hv, ok_bind]
  dsimp only
  rw [hpeek, ok_bind]
  constructor
  · intro hf hexp
    refine ⟨by omega, (if_neg hc).trans ?_⟩
    rw [hexp]
    rfl
  · rintro ⟨m, hm⟩
    refine ⟨m, (if_neg hc).trans ?_⟩
    rw [hm]
    rfl

end Arrays

/-! ### Objects -/

section Objects

variable {l : List (String × Jv D)} {key : String} {v : Jv D} {r d f k : ℕ}
  {hr : q + 1 ≤ r ∧ r < n} {hd : e ≤ d ∧ d < n} {hk : q < k ∧ k ≤ n}

/-- Behind an opening brace something has to follow. -/
theorem value_obj_eof (hpeek : peek t p = .ok ⟨q, hq⟩) (hc : t.mem q = '{')
    (h : Throws (peek t (q + 1))) : Throws (value toDouble t p) := by
  rw [value, hpeek, ok_bind]
  dsimp only
  rw [hc]
  exact h.bind _

/-- An object that is closed at once is empty. -/
theorem value_obj_nil (hpeek : peek t p = .ok ⟨q, hq⟩) (hc : t.mem q = '{')
    (hpeek' : peek t (q + 1) = .ok ⟨r, hr⟩) (hc' : t.mem r = '}') :
    Yields (value toDouble t p) (.obj []) (r + 1) := by
  refine ⟨by omega, ?_⟩
  rw [value, hpeek, ok_bind]
  dsimp only
  rw [hc, hpeek', ok_bind]
  exact if_pos hc'

/-- Otherwise an object is what the loop over its members reads, and it throws if the loop does. -/
theorem value_obj (hpeek : peek t p = .ok ⟨q, hq⟩) (hc : t.mem q = '{')
    (hpeek' : peek t (q + 1) = .ok ⟨r, hr⟩) (hc' : t.mem r ≠ '}') :
    (Yields (members toDouble t r) l e → Yields (value toDouble t p) (.obj l) e) ∧
      (Throws (members toDouble t r) → Throws (value toDouble t p)) := by
  rw [value, hpeek, ok_bind]
  dsimp only
  rw [hc, hpeek', ok_bind]
  constructor
  · rintro ⟨he, hl⟩
    refine ⟨by omega, (if_neg hc').trans ?_⟩
    rw [hl]
    rfl
  · rintro ⟨e, he⟩
    refine ⟨e, (if_neg hc').trans ?_⟩
    rw [he]
    rfl

/-- The loop over the members fails at a key that cannot be read, -/
theorem members_throws (h : Throws (str t p)) : Throws (members toDouble t p) := by
  rw [members]
  exact h.bind _

/-- at a colon that does not follow it, -/
theorem members_throws_colon (h : Yields (str t p) key q) (hexp : Throws (expect t ':' q)) :
    Throws (members toDouble t p) := by
  obtain ⟨hq, hs⟩ := h
  rw [members, hs, ok_bind]
  exact hexp.bind _

/-- at the value behind the colon, -/
theorem members_throws_value (h : Yields (str t p) key q) (hexp : expect t ':' q = .ok ⟨k, hk⟩)
    (hv : Throws (value toDouble t k)) : Throws (members toDouble t p) := by
  obtain ⟨hq, hs⟩ := h
  rw [members, hs, ok_bind]
  dsimp only
  rw [hexp, ok_bind]
  exact hv.bind _

/-- or behind the value, where a comma or the closing brace should be. -/
theorem members_throws_peek (h : Yields (str t p) key q) (hexp : expect t ':' q = .ok ⟨k, hk⟩)
    (hv : Yields (value toDouble t k) v e) (hpeek : Throws (peek t e)) :
    Throws (members toDouble t p) := by
  obtain ⟨hq, hs⟩ := h
  obtain ⟨he, hv⟩ := hv
  rw [members, hs, ok_bind]
  dsimp only
  rw [hexp, ok_bind]
  dsimp only
  rw [hv, ok_bind]
  exact hpeek.bind _

/-- A member with a comma behind it. -/
theorem members_cons (h : Yields (str t p) key q) (hexp : expect t ':' q = .ok ⟨k, hk⟩)
    (hv : Yields (value toDouble t k) v e) (hpeek : peek t e = .ok ⟨d, hd⟩) (hc : t.mem d = ',') :
    (Yields (members toDouble t (d + 1)) l f →
        Yields (members toDouble t p) ((key, v) :: l) f) ∧
      (Throws (members toDouble t (d + 1)) → Throws (members toDouble t p)) := by
  obtain ⟨hq, hs⟩ := h
  obtain ⟨he, hv⟩ := hv
  rw [members.eq_def _ _ p, hs, ok_bind]
  dsimp only
  rw [hexp, ok_bind]
  dsimp only
  rw [hv, ok_bind]
  dsimp only
  rw [hpeek, ok_bind]
  constructor
  · rintro ⟨hf, hl⟩
    refine ⟨by omega, (if_pos hc).trans ?_⟩
    rw [hl]
    rfl
  · rintro ⟨m, hm⟩
    refine ⟨m, (if_pos hc).trans ?_⟩
    rw [hm]
    rfl

/-- A member with something else behind it. -/
theorem members_last (h : Yields (str t p) key q) (hexp : expect t ':' q = .ok ⟨k, hk⟩)
    (hv : Yields (value toDouble t k) v e) (hpeek : peek t e = .ok ⟨d, hd⟩) (hc : t.mem d ≠ ',') :
    (∀ hf, expect t '}' d = .ok ⟨f, hf⟩ → Yields (members toDouble t p) [(key, v)] f) ∧
      (Throws (expect t '}' d) → Throws (members toDouble t p)) := by
  obtain ⟨hq, hs⟩ := h
  obtain ⟨he, hv⟩ := hv
  rw [members, hs, ok_bind]
  dsimp only
  rw [hexp, ok_bind]
  dsimp only
  rw [hv, ok_bind]
  dsimp only
  rw [hpeek, ok_bind]
  constructor
  · intro hf hexp
    refine ⟨by omega, (if_neg hc).trans ?_⟩
    rw [hexp]
    rfl
  · rintro ⟨m, hm⟩
    refine ⟨m, (if_neg hc).trans ?_⟩
    rw [hm]
    rfl

end Objects

end Value

end JsonParser

end Megakernel
