import Megakernel.JsonAccept

/-!
# The JSON parser reads what is written

`value_of_denotes`: on a text of the grammar the parser returns the value that the text
denotes and leaves the cursor just past it. It is an induction over the derivation; in the
two loops it is one over the list of elements, with what is left of the text as the state.

A value that is printed as `json.dump` of the schedule compiler prints it, with any blanks,
is such a text.
-/

namespace Megakernel

open List

namespace JsonParser

open JsonText CLib

variable {D : Type} {toDouble : List Char → D} {n : ℕ} {t : Text n} {p : ℕ} {w s r : List Char}

/-- The forms of `Jv`. -/
def forms (D : Type) : Forms (Jv D) D := ⟨.nul, .boo, .num, .str, .arr, .obj⟩

/-! ## The cursor -/

/-- Where the cursor stands is told by what follows it. -/
theorem cursor_eq {x : List Char} (h : t.rest p = x ++ r) (hx : x ≠ []) :
    p + x.length = n - r.length := by
  have hlen := congrArg length h
  have hpos := length_pos_iff.mpr hx
  rw [Text.length_rest, length_append] at hlen
  omega

/-- The cursor in front of a suffix of the text is given by the length of the suffix. -/
theorem rest_suffix {x : List Char} (h : t.rest p = x ++ r) : t.rest (n - r.length) = r := by
  by_cases hx : x = []
  · have hlen := congrArg length h
    rw [hx, nil_append] at h
    rw [Text.length_rest, hx, nil_append] at hlen
    obtain hlt | hge := Nat.lt_or_ge p n
    · rwa [← hlen, Nat.sub_sub_self hlt.le]
    · rw [← hlen, Nat.sub_eq_zero_of_le hge, Nat.sub_zero, Text.rest_of_ge le_rfl, ← h,
        Text.rest_of_ge hge]
  · rw [← cursor_eq h hx]
    exact Text.rest_add_length h

/-- No blanks are blanks, so everything below holds of texts without any. -/
theorem blank_nil : Blank [] := nofun

/-- What follows the form of an element of a list that `b` closes. -/
def closing {α : Type} (form : α → List Char) (b : Char) (r : List Char) : List α → List Char
  | [] => b :: r
  | i :: is => ',' :: (form i ++ closing form b r is)

/-- The inner part of an array or object, with its closing character, is its first item and what
follows that; the loops read it in this form. -/
theorem inner_cons_append {α : Type} (form : α → List Char) (b : Char) (i : α) (is : List α)
    (r : List Char) : inner form (i :: is) ++ b :: r = form i ++ closing form b r is := by
  induction is generalizing i with
  | nil => simp [JsonText.inner, closing]
  | cons j is ih =>
    have hinner : inner form (i :: j :: is) = form i ++ ',' :: inner form (j :: is) := by
      simp [JsonText.inner, intercalate]
    rw [hinner, append_assoc, cons_append, ih, closing]

/-- Behind an item there are blanks and then a comma or a closing character, with which no number
goes on. -/
theorem follows_blank {b : Char} (hw : Blank w) (hb : b = ',' ∨ b = ']' ∨ b = '}') :
    Follows (w ++ b :: r) := by
  intro c hc
  cases w with
  | nil =>
    obtain rfl := Option.some.inj hc
    exact Or.inr hb
  | cons d w =>
    obtain rfl := Option.some.inj hc
    exact Or.inl (isWs_of_blank hw _ mem_cons_self)

/-- This is what stands behind every item of an array or object, the last one included. -/
theorem follows_closing {α : Type} {form : α → List Char} {b : Char} {is : List α} (hw : Blank w)
    (hb : b = ']' ∨ b = '}') : Follows (w ++ closing form b r is) := by
  cases is with
  | nil => exact follows_blank hw (Or.inr hb)
  | cons i is => exact follows_blank hw (Or.inl rfl)

/-! ## Reading -/

/-- Wherever `s` stands between blanks, the parser reads `v` and stops behind `s`. As a statement
about every place it is an induction hypothesis that serves for elements, members and the whole
document. -/
def Reads (toDouble : List Char → D) (t : Text n) (s : List Char) (v : Jv D) : Prop :=
  ∀ p w r, t.rest p = w ++ (s ++ r) → Blank w → Follows r →
    Yields (value toDouble t p) v (n - r.length)

/-- The loop over the elements, of which the first one has been come to. -/
theorem elements_reads {i : Spaced (Jv D)} {is : List (Spaced (Jv D))}
    (hok : ∀ j ∈ i :: is, j.Ok) (hread : ∀ j ∈ i :: is, Reads toDouble t j.text j.val)
    (h : t.rest p = w ++ (i.text ++ (i.after ++ closing Spaced.form ']' r is))) (hw : Blank w) :
    Yields (elements toDouble t p) ((i :: is).map Spaced.val) (n - r.length) := by
  induction is generalizing i p w with
  | nil =>
    have hafter : Blank i.after := (hok i mem_cons_self).2
    have hv := hread i mem_cons_self p w _ h hw (follows_closing hafter (Or.inl rfl))
    have hrest := rest_suffix (h.trans (append_assoc _ _ _).symm)
    obtain ⟨hd, hpeek⟩ := peek_of_rest hrest hafter rfl
    have hbehind := Text.rest_add_length hrest
    obtain ⟨-, hmem, -⟩ := Text.of_rest_cons hbehind
    obtain ⟨hf, hexp⟩ := expect_of_rest (w := []) hbehind blank_nil rfl
    have hlast := (elements_last hv hpeek (ne_of_eq_of_ne hmem (by decide))).1 hf hexp
    have hcur := cursor_eq (x := [']']) hbehind (cons_ne_nil _ _)
    rwa [length_nil, Nat.add_zero, ← length_singleton, hcur] at hlast
  | cons j is ih =>
    have hafter : Blank i.after := (hok i mem_cons_self).2
    have hv := hread i mem_cons_self p w _ h hw (follows_closing hafter (Or.inl rfl))
    have hrest := rest_suffix (h.trans (append_assoc _ _ _).symm)
    obtain ⟨hd, hpeek⟩ := peek_of_rest hrest hafter rfl
    obtain ⟨-, hmem, hnext⟩ := Text.of_rest_cons (Text.rest_add_length hrest)
    refine (elements_cons hv hpeek hmem).1 ?_
    rw [Spaced.form, append_assoc, append_assoc] at hnext
    exact ih (fun j hj => hok j (mem_cons_of_mem _ hj)) (fun j hj => hread j (mem_cons_of_mem _ hj))
      hnext (hok j (mem_cons_of_mem _ mem_cons_self)).1

/-- A member up to the end of its value. -/
theorem member_reads {S : List Char → String → Prop} (hS : ∀ s v, S s v → StringLit unit s v)
    {m : Member (Jv D)} (hok : m.Ok S) (hread : Reads toDouble t m.item.text m.item.val)
    {x : List Char}
    (h : t.rest p = w ++ (m.keyText ++ (m.after ++ ':' :: (m.item.before ++ (m.item.text ++ x)))))
    (hw : Blank w) (hx : Follows x) :
    ∃ q k hk, Yields (str t p) m.key q ∧ expect t ':' q = .ok ⟨k, hk⟩ ∧
      Yields (value toDouble t k) m.item.val (n - x.length) ∧ t.rest (n - x.length) = x := by
  obtain ⟨-, hkey, hafter, hitem⟩ := hok
  have hs := str_of_rest (hS _ _ hkey) h hw
  have hcolon := Text.rest_add_length (Text.rest_add_length h)
  obtain ⟨hk, hexp⟩ := expect_of_rest hcolon hafter rfl
  have hform := (Text.of_rest_cons (Text.rest_add_length hcolon)).2.2
  exact ⟨_, _, hk, hs, hexp, hread _ _ _ hform hitem.1 hx,
    rest_suffix (hform.trans (append_assoc _ _ _).symm)⟩

/-- The loop over the members, of which the first one has been come to. -/
theorem members_reads {S : List Char → String → Prop} (hS : ∀ s v, S s v → StringLit unit s v)
    {m : Member (Jv D)} {ms : List (Member (Jv D))} (hok : ∀ m' ∈ m :: ms, m'.Ok S)
    (hread : ∀ m' ∈ m :: ms, Reads toDouble t m'.item.text m'.item.val)
    (h : t.rest p = w ++ (m.keyText ++ (m.after ++ ':' :: (m.item.form ++
      closing Member.form '}' r ms)))) (hw : Blank w) :
    Yields (members toDouble t p) ((m :: ms).map fun m => (m.key, m.item.val)) (n - r.length) := by
  induction ms generalizing m p w with
  | nil =>
    have hm := hok m mem_cons_self
    have hafter : Blank m.item.after := hm.2.2.2.2
    rw [Spaced.form, append_assoc, append_assoc] at h
    obtain ⟨q, k, hk, hs, hexp, hv, hrest⟩ := member_reads hS hm (hread m mem_cons_self) h hw
      (follows_closing hafter (Or.inr rfl))
    obtain ⟨hd, hpeek⟩ := peek_of_rest hrest hafter rfl
    have hbehind := Text.rest_add_length hrest
    obtain ⟨-, hmem, -⟩ := Text.of_rest_cons hbehind
    obtain ⟨hf, hend⟩ := expect_of_rest (w := []) hbehind blank_nil rfl
    have hlast := (members_last hs hexp hv hpeek (ne_of_eq_of_ne hmem (by decide))).1 hf hend
    have hcur := cursor_eq (x := ['}']) hbehind (cons_ne_nil _ _)
    rwa [length_nil, Nat.add_zero, ← length_singleton, hcur] at hlast
  | cons m' ms ih =>
    have hm := hok m mem_cons_self
    have hafter : Blank m.item.after := hm.2.2.2.2
    rw [Spaced.form, append_assoc, append_assoc] at h
    obtain ⟨q, k, hk, hs, hexp, hv, hrest⟩ := member_reads hS hm (hread m mem_cons_self) h hw
      (follows_closing hafter (Or.inr rfl))
    obtain ⟨hd, hpeek⟩ := peek_of_rest hrest hafter rfl
    obtain ⟨-, hmem, hnext⟩ := Text.of_rest_cons (Text.rest_add_length hrest)
    refine (members_cons hs hexp hv hpeek hmem).1 ?_
    simp only [Member.form, append_assoc, cons_append] at hnext
    exact ih (fun j hj => hok j (mem_cons_of_mem _ hj)) (fun j hj => hread j (mem_cons_of_mem _ hj))
      hnext (hok m' (mem_cons_of_mem _ mem_cons_self)).1

/-- The first character of a value. -/
theorem head_of_denotes {S : List Char → String → Prop} {N : List Char → D → Prop} {v : Jv D}
    (hS : ∀ s v, S s v → StringLit unit s v) (hN : ∀ s d, N s d → Number s)
    (h : Denotes (forms D) S N s v) :
    ∃ c x, s = c :: x ∧ isWs c = false ∧ c ≠ ']' := by
  cases h with
  | nul => exact ⟨_, _, rfl, rfl, by decide⟩
  | tru => exact ⟨_, _, rfl, rfl, by decide⟩
  | fls => exact ⟨_, _, rfl, rfl, by decide⟩
  | num h =>
    have hnum := hN _ _ h
    obtain ⟨c, x, rfl⟩ := exists_cons_of_ne_nil (number_ne_nil hnum)
    have hc := (numeric_of_number hnum c mem_cons_self).ne
    exact ⟨c, x, rfl, hc.1, fun h => hc.2.2 (by rw [h]; decide)⟩
  | str h =>
    obtain ⟨body, cs, -, rfl, -⟩ := hS _ _ h
    exact ⟨_, _, rfl, rfl, by decide⟩
  | arrNil => exact ⟨_, _, rfl, rfl, by decide⟩
  | arr => exact ⟨_, _, rfl, rfl, by decide⟩
  | objNil => exact ⟨_, _, rfl, rfl, by decide⟩
  | obj => exact ⟨_, _, rfl, rfl, by decide⟩

/-- **The parser reads what the grammar denotes.** The induction is over the derivation, and the two
loops of the parser have their own lemmas. -/
theorem value_of_denotes {S : List Char → String → Prop} {N : List Char → D → Prop} {v : Jv D}
    (hS : ∀ s v, S s v → StringLit unit s v) (hN : ∀ s d, N s d → Number s ∧ toDouble s = d)
    (h : Denotes (forms D) S N s v) : Reads toDouble t s v := by
  induction h with
  | nul =>
    intro p w r h hw _
    obtain ⟨hq, hpeek⟩ := peek_of_rest (c := 'n') h hw rfl
    have hbehind := Text.rest_add_length h
    rw [← cursor_eq hbehind (cons_ne_nil _ _)]
    exact value_nul hpeek (Text.of_rest_cons hbehind).2.1
  | tru =>
    intro p w r h hw _
    obtain ⟨hq, hpeek⟩ := peek_of_rest (c := 't') h hw rfl
    have hbehind := Text.rest_add_length h
    rw [← cursor_eq hbehind (cons_ne_nil _ _)]
    exact value_tru hpeek (Text.of_rest_cons hbehind).2.1
  | fls =>
    intro p w r h hw _
    obtain ⟨hq, hpeek⟩ := peek_of_rest (c := 'f') h hw rfl
    have hbehind := Text.rest_add_length h
    rw [← cursor_eq hbehind (cons_ne_nil _ _)]
    exact value_fls hpeek (Text.of_rest_cons hbehind).2.1
  | num h =>
    intro p w r hrest hw hr
    obtain ⟨hnum, rfl⟩ := hN _ _ h
    obtain ⟨c, x, rfl⟩ := exists_cons_of_ne_nil (number_ne_nil hnum)
    have hc : Numeric c := numeric_of_number hnum c mem_cons_self
    obtain ⟨hq, hpeek⟩ := peek_of_rest (c := c) hrest hw hc.ne.1
    have hbehind := Text.rest_add_length hrest
    rw [← cursor_eq hbehind (cons_ne_nil _ _)]
    rw [← (Text.of_rest_cons hbehind).2.1] at hc
    exact (value_number hpeek hc).1 _ (number_of_rest hnum hbehind hr)
  | str h =>
    intro p w r hrest hw _
    have hlit := hS _ _ h
    obtain ⟨body, cs, -, rfl, -⟩ := id hlit
    obtain ⟨hq, hpeek⟩ := peek_of_rest (c := '"') hrest hw rfl
    have hbehind := Text.rest_add_length hrest
    have hstr := str_of_rest (w := []) hlit hbehind blank_nil
    rw [length_nil, Nat.add_zero, cursor_eq hbehind (cons_ne_nil _ _)] at hstr
    exact value_str hpeek (Text.of_rest_cons hbehind).2.1 hstr
  | @arrNil b hb =>
    intro p w r hrest hw _
    rw [cons_append, append_assoc] at hrest
    obtain ⟨hq, hpeek⟩ := peek_of_rest hrest hw rfl
    obtain ⟨-, hc, hinner⟩ := Text.of_rest_cons (Text.rest_add_length hrest)
    obtain ⟨hq', hpeek'⟩ := peek_of_rest hinner hb rfl
    have hbehind := Text.rest_add_length hinner
    have hcur := cursor_eq (x := [']']) hbehind (cons_ne_nil _ _)
    rw [← hcur]
    exact value_arr_nil hpeek hc hpeek' (Text.of_rest_cons hbehind).2.1
  | @arr is hne hok hval ih =>
    intro p w r hrest hw _
    obtain ⟨i, is, rfl⟩ := exists_cons_of_ne_nil hne
    rw [cons_append, append_assoc, singleton_append, inner_cons_append] at hrest
    obtain ⟨hq, hpeek⟩ := peek_of_rest hrest hw rfl
    obtain ⟨-, hc, hinner⟩ := Text.of_rest_cons (Text.rest_add_length hrest)
    rw [Spaced.form, append_assoc, append_assoc] at hinner
    have hfirst := Text.rest_add_length hinner
    -- the first element begins the loop, which it does not close
    obtain ⟨c, x, htext, hws, hbr⟩ := head_of_denotes hS (fun s d h => (hN s d h).1)
      (hval i mem_cons_self)
    rw [htext, cons_append] at hinner
    obtain ⟨hq', hpeek'⟩ := peek_of_rest hinner (hok i mem_cons_self).1 hws
    have hc' := (Text.of_rest_cons (Text.rest_add_length hinner)).2.1
    refine (value_arr hpeek hc hpeek' (ne_of_eq_of_ne hc' hbr)).1 ?_
    exact elements_reads (w := []) hok ih hfirst blank_nil
  | @objNil b hb =>
    intro p w r hrest hw _
    rw [cons_append, append_assoc] at hrest
    obtain ⟨hq, hpeek⟩ := peek_of_rest hrest hw rfl
    obtain ⟨-, hc, hinner⟩ := Text.of_rest_cons (Text.rest_add_length hrest)
    obtain ⟨hq', hpeek'⟩ := peek_of_rest hinner hb rfl
    have hbehind := Text.rest_add_length hinner
    have hcur := cursor_eq (x := ['}']) hbehind (cons_ne_nil _ _)
    rw [← hcur]
    exact value_obj_nil hpeek hc hpeek' (Text.of_rest_cons hbehind).2.1
  | @obj ms hne hok hval ih =>
    intro p w r hrest hw _
    obtain ⟨m, ms, rfl⟩ := exists_cons_of_ne_nil hne
    rw [cons_append, append_assoc, singleton_append, inner_cons_append] at hrest
    obtain ⟨hq, hpeek⟩ := peek_of_rest hrest hw rfl
    obtain ⟨-, hc, hinner⟩ := Text.of_rest_cons (Text.rest_add_length hrest)
    simp only [Member.form, append_assoc, cons_append] at hinner
    have hfirst := Text.rest_add_length hinner
    obtain ⟨hbefore, hkey, -⟩ := hok m mem_cons_self
    obtain ⟨body, cs, -, htext, -⟩ := hS _ _ hkey
    rw [htext, cons_append] at hinner
    obtain ⟨hq', hpeek'⟩ := peek_of_rest hinner hbefore rfl
    have hc' := (Text.of_rest_cons (Text.rest_add_length hinner)).2.1
    refine (value_obj hpeek hc hpeek' (ne_of_eq_of_ne hc' (by decide))).1 ?_
    exact members_reads (w := []) hS hok ih hfirst blank_nil

end JsonParser

/-! ## Printing -/

namespace JsonDump

open JsonText JsonParser

variable {D : Type}

/-- A hexadecimal digit. -/
def hexDigit (n : ℕ) : Char := Nat.digitChar (n % 16)

/-- `'{0:04x}'.format(n)` -/
def hex4 (n : ℕ) : List Char :=
  [hexDigit (n / 4096), hexDigit (n / 256), hexDigit (n / 16), hexDigit n]

/-- How `json.dump` prints a character of a string: short escapes for a few characters, four
hexadecimal digits for the other control characters, and printable ASCII as it is. -/
def escape (c : Char) : List Char :=
  if c = '"' then ['\\', '"']
  else if c = '\\' then ['\\', '\\']
  else if c = '\n' then ['\\', 'n']
  else if c = '\r' then ['\\', 'r']
  else if c = '\t' then ['\\', 't']
  else if c = '\x0c' then ['\\', 'f']
  else if c = '\x08' then ['\\', 'b']
  else if ' ' ≤ c ∧ c ≤ '~' then [c]
  else '\\' :: 'u' :: hex4 c.toNat

/-- How `json.dump` prints a string. -/
def quote (s : String) : List Char := '"' :: (s.toList.flatMap escape ++ ['"'])

/-- A string of ASCII characters. -/
def AsciiString (s : String) : Prop := ∀ c ∈ s.toList, c.toNat < 128

/-- A printed string of ASCII characters. -/
def Quoted (s : List Char) (v : String) : Prop := AsciiString v ∧ s = quote v

/-- A printed form of a value: blanks may stand between any two tokens. It leaves open how numbers
are printed, except that each has one text. -/
def Printed (printNum : D → List Char) : List Char → Jv D → Prop :=
  Denotes (forms D) Quoted fun s d => s = printNum d

/-! ### Strings -/

/-- What `hexDigit` writes is a digit that the parser takes, -/
theorem hexDigit_hex (n : ℕ) : HexDigit (hexDigit n) := by
  have hall : ∀ k < 16, HexDigit (Nat.digitChar k) := by decide
  exact hall (n % 16) (Nat.mod_lt n (by decide))

/-- and so are the four of an escape. -/
theorem hex4_hex (n : ℕ) : ∀ c ∈ hex4 n, HexDigit c := by
  simp [hex4, hexDigit_hex]

/-- Four hexadecimal digits are read back as the character they were made from. It is decided for
the 128 that there are. -/
theorem unit_hex4 : ∀ n < 128, unit (hex4 n) = Char.ofNat n := by
  decide +kernel

/-- A character of a string is written as itself or as one of the escapes, and is read back from
either. -/
theorem chars_escape {c : Char} (hc : c.toNat < 128) {s v : List Char} (h : Chars unit s v) :
    Chars unit (escape c ++ s) (c :: v) := by
  unfold escape
  split_ifs with h1 h2 h3 h4 h5 h6 h7 h8
  · obtain rfl := h1
    exact Chars.letter (by decide) h
  · obtain rfl := h2
    exact Chars.letter (by decide) h
  · obtain rfl := h3
    exact Chars.letter (by decide) h
  · obtain rfl := h4
    exact Chars.letter (by decide) h
  · obtain rfl := h5
    exact Chars.letter (by decide) h
  · obtain rfl := h6
    exact Chars.letter (by decide) h
  · obtain rfl := h7
    exact Chars.letter (by decide) h
  · exact Chars.plain h8.1 hc h1 h2 h
  · have hunit := unit_hex4 c.toNat hc
    rw [Char.ofNat_toNat] at hunit
    have hchars := Chars.unit (a := hexDigit (c.toNat / 4096)) (b := hexDigit (c.toNat / 256))
      (c := hexDigit (c.toNat / 16)) (d := hexDigit c.toNat) (hex4_hex c.toNat) h
    rw [hex4] at hunit
    rwa [hunit] at hchars

/-- What is between the quotes denotes the string, whatever ASCII characters it has, quotes,
backslashes and control characters included. -/
theorem stringLit_quote {v : String} (h : AsciiString v) : StringLit unit (quote v) v := by
  refine ⟨v.toList.flatMap escape, v.toList, ?_, rfl, String.ofList_toList.symm⟩
  have hall : ∀ l : List Char, (∀ c ∈ l, c.toNat < 128) → Chars unit (l.flatMap escape) l := by
    intro l
    induction l with
    | nil => exact fun _ => Chars.nil
    | cons c l ih =>
      intro hl
      rw [flatMap_cons]
      exact chars_escape (hl c mem_cons_self) (ih fun x hx => hl x (mem_cons_of_mem _ hx))
  exact hall _ h

/-! ### Values -/

variable {printNum : D → List Char}

/-- A printed value is read back, wherever in a text it stands. What printing and reading have to
agree on for numbers is a hypothesis, since both are a matter of the C library and of Python. -/
theorem reads_printed {toDouble : List Char → D}
    (hnum : ∀ d, Number (printNum d) ∧ toDouble (printNum d) = d) {v : Jv D} {s : List Char}
    (h : Printed printNum s v) {n : ℕ} (t : Text n) : Reads toDouble t s v := by
  have hS : ∀ s v, Quoted s v → StringLit unit s v := by
    rintro s v ⟨hv, rfl⟩
    exact stringLit_quote hv
  have hN : ∀ s d, s = printNum d → Number s ∧ toDouble s = d := by
    rintro s d rfl
    exact hnum d
  exact value_of_denotes hS hN h

/-- **The parser inverts the printer**: it returns the value, whatever blanks stand in the printed
form, and leaves the cursor just past it. What `json.dump` prints is such a form (`printed_dump`),
so that the harness loads what the schedule compiler has written (`jsonLoad_dump`). -/
theorem value_of_printed {toDouble : List Char → D}
    (hnum : ∀ d, Number (printNum d) ∧ toDouble (printNum d) = d) {v : Jv D} {s w r : List Char}
    (h : Printed printNum s v) (hw : Blank w) (hr : Follows r) {n : ℕ} {t : Text n}
    (ht : t.Holds (w ++ (s ++ r))) : Yields (value toDouble t 0) v (w ++ s).length := by
  have hread := reads_printed hnum h t 0 w r ht hw hr
  have hlen := congrArg length ht
  rw [Text.length_rest, length_append, length_append] at hlen
  have hcur : (w ++ s).length = n - r.length := by
    rw [length_append]
    omega
  rwa [hcur]

/-- A key with a quotation mark and a control character, both of them escaped in the text. -/
def escapedKey : String := "a\"\x01"

theorem value_of_printed_object :
    Yields (value (fun s => Fin.ofNat 10 ((s.headD '0').toNat - 48))
      (Text.of "\x7b\"a\\\"\\u0001\" :[ 1]\x7d\n".toList) 0)
      (.obj [(escapedKey, .arr [.num 1])]) 19 := by
  have hone : Printed (fun d : Fin 10 => [Nat.digitChar d]) ['1'] (.num 1) := Denotes.num rfl
  have harr : Printed (fun d : Fin 10 => [Nat.digitChar d]) "[ 1]".toList (.arr [.num 1]) :=
    @Denotes.arr _ _ (forms _) Quoted _ [⟨[' '], ['1'], [], Jv.num 1⟩] (cons_ne_nil _ _)
      (forall_mem_singleton.mpr ⟨fun c hc => Or.inl (mem_singleton.mp hc), blank_nil⟩)
      (forall_mem_singleton.mpr hone)
  have hkey : AsciiString escapedKey := by
    intro c hc
    have hc' : c = 'a' ∨ c = '"' ∨ c = '\x01' := by simpa [escapedKey] using hc
    rcases hc' with rfl | rfl | rfl <;> decide
  have hobj : Printed (fun d : Fin 10 => [Nat.digitChar d])
      "\x7b\"a\\\"\\u0001\" :[ 1]\x7d".toList (.obj [(escapedKey, .arr [.num 1])]) :=
    @Denotes.obj _ _ (forms _) Quoted _
      [⟨[], quote escapedKey, escapedKey, [' '], ⟨[], "[ 1]".toList, [], Jv.arr [.num 1]⟩⟩]
      (cons_ne_nil _ _)
      (forall_mem_singleton.mpr ⟨blank_nil, ⟨hkey, rfl⟩,
        fun c hc => Or.inl (mem_singleton.mp hc), blank_nil, blank_nil⟩)
      (forall_mem_singleton.mpr harr)
  refine value_of_printed (w := []) (r := ['\n']) (fun d => ?_) hobj blank_nil (fun c hc => ?_)
    (Text.holds_of _)
  · have hd : ∀ d : Fin 10, (Nat.digitChar d).isDigit = true ∧
        Fin.ofNat 10 ((Nat.digitChar d).toNat - 48) = d ∧
          ([Nat.digitChar d] = ['0'] ∨ [Nat.digitChar d].head? ≠ some '0') := by decide
    obtain ⟨hdig, hval, hzero⟩ := hd d
    exact ⟨@Number.mk [] [Nat.digitChar d] [] [] (Or.inl rfl)
      ⟨cons_ne_nil _ _, forall_mem_singleton.mpr hdig⟩ hzero (Or.inl rfl) (Or.inl rfl), hval⟩
  · obtain rfl := Option.some.inj hc
    exact Or.inl rfl

/-- The line break and the indentation before an element. -/
def newline (level : ℕ) : List Char := '\n' :: replicate level ' '

mutual

/-- `json.dump(v, f, indent=1)`: every element on a line of its own, indented by its depth. -/
def dump (printNum : D → List Char) (level : ℕ) : Jv D → List Char
  | .nul => "null".toList
  | .boo true => "true".toList
  | .boo false => "false".toList
  | .num d => printNum d
  | .str s => quote s
  | .arr [] => ['[', ']']
  | .arr (v :: l) => '[' :: (newline (level + 1) ++ (dump printNum (level + 1) v ++
      (dumpElements printNum (level + 1) l ++ (newline level ++ [']']))))
  | .obj [] => ['{', '}']
  | .obj ((k, v) :: l) => '{' :: (newline (level + 1) ++ (quote k ++ (':' :: ' ' ::
      (dump printNum (level + 1) v ++
        (dumpMembers printNum (level + 1) l ++ (newline level ++ ['}']))))))

/-- The elements behind the first one. -/
def dumpElements (printNum : D → List Char) (level : ℕ) : List (Jv D) → List Char
  | [] => []
  | v :: l => ',' :: (newline level ++ (dump printNum level v ++ dumpElements printNum level l))

/-- The members behind the first one. -/
def dumpMembers (printNum : D → List Char) (level : ℕ) : List (String × Jv D) → List Char
  | [] => []
  | (k, v) :: l => ',' :: (newline level ++ (quote k ++ (':' :: ' ' ::
      (dump printNum level v ++ dumpMembers printNum level l))))

end

/-- All strings of a value are ASCII. -/
inductive Ascii : Jv D → Prop where
  | nul : Ascii .nul
  | boo (b : Bool) : Ascii (.boo b)
  | num (d : D) : Ascii (.num d)
  | str {s : String} (h : AsciiString s) : Ascii (.str s)
  | arr {l : List (Jv D)} (h : ∀ v ∈ l, Ascii v) : Ascii (.arr l)
  | obj {l : List (String × Jv D)} (hkey : ∀ e ∈ l, AsciiString e.1) (h : ∀ e ∈ l, Ascii e.2) :
      Ascii (.obj l)

/-- A line break and the indentation of the next line are blanks. -/
theorem blank_newline (level : ℕ) : Blank (newline level) := by
  intro c hc
  obtain rfl | hc := mem_cons.mp hc
  · exact Or.inr (Or.inr (Or.inl rfl))
  · exact Or.inl (eq_of_mem_replicate hc)

/-- The elements as `dump` prints them, with what it puts before the closing bracket. -/
def dumpedElements (printNum : D → List Char) (level : ℕ) (last : List Char) :
    List (Jv D) → List (Spaced (Jv D))
  | [] => []
  | v :: l => ⟨newline level, dump printNum level v, if l = [] then last else [], v⟩ ::
      dumpedElements printNum level last l

/-- The members as `dump` prints them. -/
def dumpedMembers (printNum : D → List Char) (level : ℕ) (last : List Char) :
    List (String × Jv D) → List (Member (Jv D))
  | [] => []
  | (k, v) :: l =>
    ⟨newline level, quote k, k, [],
      ⟨[' '], dump printNum level v, if l = [] then last else [], v⟩⟩ ::
        dumpedMembers printNum level last l

theorem closing_dumpedElements (level : ℕ) (last : List Char) (b : Char) (r : List Char)
    (l : List (Jv D)) :
    (if l = [] then last else []) ++
        closing Spaced.form b r (dumpedElements printNum level last l) =
      dumpElements printNum level l ++ (last ++ b :: r) := by
  induction l with
  | nil => rfl
  | cons v l ih =>
    rw [if_neg (cons_ne_nil _ _), nil_append, dumpedElements, closing, dumpElements, Spaced.form]
    simp only [cons_append, append_assoc]
    rw [ih]

theorem closing_dumpedMembers (level : ℕ) (last : List Char) (b : Char) (r : List Char)
    (l : List (String × Jv D)) :
    (if l = [] then last else []) ++
        closing Member.form b r (dumpedMembers printNum level last l) =
      dumpMembers printNum level l ++ (last ++ b :: r) := by
  induction l with
  | nil => rfl
  | cons e l ih =>
    rw [if_neg (cons_ne_nil _ _), nil_append, dumpedMembers, closing, dumpMembers, Member.form,
      Spaced.form]
    simp only [cons_append, append_assoc, nil_append]
    rw [ih]

theorem inner_dumpedElements (level : ℕ) (last : List Char) (v : Jv D) (l : List (Jv D)) :
    inner Spaced.form (dumpedElements printNum level last (v :: l)) ++ [']'] =
      newline level ++ (dump printNum level v ++
        (dumpElements printNum level l ++ (last ++ [']']))) := by
  rw [dumpedElements, inner_cons_append, ← closing_dumpedElements, Spaced.form]
  simp only [append_assoc]

theorem inner_dumpedMembers (level : ℕ) (last : List Char) (k : String) (v : Jv D)
    (l : List (String × Jv D)) :
    inner Member.form (dumpedMembers printNum level last ((k, v) :: l)) ++ ['}'] =
      newline level ++ (quote k ++ (':' :: ' ' :: (dump printNum level v ++
        (dumpMembers printNum level l ++ (last ++ ['}']))))) := by
  rw [dumpedMembers, inner_cons_append, ← closing_dumpedMembers, Member.form, Spaced.form]
  simp only [append_assoc, cons_append, nil_append]

/-- An element as `json.dump` prints it: a new line in front, and behind it nothing, but for the
last one, which is followed by the line of the closing bracket. -/
theorem mem_dumpedElements {level : ℕ} {last : List Char} {l : List (Jv D)} {i : Spaced (Jv D)}
    (h : i ∈ dumpedElements printNum level last l) :
    i.before = newline level ∧ i.text = dump printNum level i.val ∧
      (i.after = last ∨ i.after = []) ∧
      i.val ∈ l := by
  induction l with
  | nil => cases h
  | cons v l ih =>
    obtain rfl | h := mem_cons.mp h
    · refine ⟨rfl, rfl, ?_, mem_cons_self⟩
      dsimp only
      split
      · exact Or.inl rfl
      · exact Or.inr rfl
    · obtain ⟨h₁, h₂, h₃, h₄⟩ := ih h
      exact ⟨h₁, h₂, h₃, mem_cons_of_mem _ h₄⟩

/-- A member likewise, with a blank behind the colon. -/
theorem mem_dumpedMembers {level : ℕ} {last : List Char} {l : List (String × Jv D)}
    {m : Member (Jv D)} (h : m ∈ dumpedMembers printNum level last l) :
    m.before = newline level ∧ m.keyText = quote m.key ∧ m.after = [] ∧ m.item.before = [' '] ∧
      m.item.text = dump printNum level m.item.val ∧ (m.item.after = last ∨ m.item.after = []) ∧
      (m.key, m.item.val) ∈ l := by
  induction l with
  | nil => cases h
  | cons e l ih =>
    obtain rfl | h := mem_cons.mp h
    · refine ⟨rfl, rfl, rfl, rfl, rfl, ?_, mem_cons_self⟩
      dsimp only
      split
      · exact Or.inl rfl
      · exact Or.inr rfl
    · obtain ⟨h₁, h₂, h₃, h₄, h₅, h₆, h₇⟩ := ih h
      exact ⟨h₁, h₂, h₃, h₄, h₅, h₆, mem_cons_of_mem _ h₇⟩

/-- The elements are those of the list, in order. -/
theorem map_val_dumpedElements (level : ℕ) (last : List Char) (l : List (Jv D)) :
    (dumpedElements printNum level last l).map Spaced.val = l := by
  induction l with
  | nil => rfl
  | cons v l ih => rw [dumpedElements, map_cons, ih]

/-- The members are those of the list, in order. -/
theorem map_val_dumpedMembers (level : ℕ) (last : List Char) (l : List (String × Jv D)) :
    (dumpedMembers printNum level last l).map (fun m => (m.key, m.item.val)) = l := by
  induction l with
  | nil => rfl
  | cons e l ih => rw [dumpedMembers, map_cons, ih]

/-- What `dump` puts behind an element. -/
theorem blank_after {w : List Char} {level : ℕ} (h : w = newline level ∨ w = []) : Blank w := by
  obtain rfl | rfl := h
  · exact blank_newline level
  · exact blank_nil

/-- **What `json.dump` prints is a printed form**: line breaks and indentation are blanks. -/
theorem printed_dump {v : Jv D} (hv : Ascii v) (level : ℕ) :
    Printed printNum (dump printNum level v) v := by
  induction hv generalizing level with
  | nul => exact Denotes.nul
  | boo b =>
    cases b
    · exact Denotes.fls
    · exact Denotes.tru
  | num d => exact Denotes.num rfl
  | str h => exact Denotes.str ⟨h, rfl⟩
  | @arr l h ih =>
    cases l with
    | nil => exact Denotes.arrNil blank_nil
    | cons v l =>
      have hok : ∀ i ∈ dumpedElements printNum (level + 1) (newline level) (v :: l), i.Ok := by
        intro i hi
        obtain ⟨h₁, -, h₃, -⟩ := mem_dumpedElements hi
        exact ⟨h₁ ▸ blank_newline _, blank_after h₃⟩
      have hval : ∀ i ∈ dumpedElements printNum (level + 1) (newline level) (v :: l),
          Printed printNum i.text i.val := by
        intro i hi
        obtain ⟨-, h₂, -, h₄⟩ := mem_dumpedElements hi
        exact h₂ ▸ ih _ h₄ (level + 1)
      have hne : dumpedElements printNum (level + 1) (newline level) (v :: l) ≠ [] :=
        cons_ne_nil _ _
      have hden := Denotes.arr (F := forms D) hne hok hval
      rw [inner_dumpedElements, map_val_dumpedElements] at hden
      rw [dump]
      exact hden
  | @obj l hkey h ih =>
    cases l with
    | nil => exact Denotes.objNil blank_nil
    | cons e l =>
      obtain ⟨k, v⟩ := e
      have hok : ∀ m ∈ dumpedMembers printNum (level + 1) (newline level) ((k, v) :: l),
          m.Ok Quoted := by
        intro m hm
        obtain ⟨h₁, h₂, h₃, h₄, -, h₆, h₇⟩ := mem_dumpedMembers hm
        refine ⟨h₁ ▸ blank_newline _, ⟨hkey _ h₇, h₂⟩, h₃ ▸ blank_nil, ?_, blank_after h₆⟩
        rw [h₄]
        exact fun c hc => Or.inl (mem_singleton.mp hc)
      have hval : ∀ m ∈ dumpedMembers printNum (level + 1) (newline level) ((k, v) :: l),
          Printed printNum m.item.text m.item.val := by
        intro m hm
        obtain ⟨-, -, -, -, h₅, -, h₇⟩ := mem_dumpedMembers hm
        exact h₅ ▸ ih _ h₇ (level + 1)
      have hne : dumpedMembers printNum (level + 1) (newline level) ((k, v) :: l) ≠ [] :=
        cons_ne_nil _ _
      have hden := Denotes.obj (F := forms D) hne hok hval
      rw [inner_dumpedMembers, map_val_dumpedMembers] at hden
      rw [dump]
      exact hden

/-- The harness loads what the schedule compiler has written. -/
theorem jsonLoad_dump {toDouble : List Char → D}
    (hnum : ∀ d, Number (printNum d) ∧ toDouble (printNum d) = d) {v : Jv D} (hv : Ascii v) {n : ℕ}
    {t : Text n} (ht : t.Holds (dump printNum 0 v)) : jsonLoad toDouble t = .ok v := by
  have hrest : t.rest 0 = [] ++ (dump printNum 0 v ++ []) := by
    rw [append_nil]
    exact ht
  obtain ⟨hq, hval⟩ := reads_printed hnum (printed_dump hv 0) t 0 [] [] hrest blank_nil
    fun c hc => by cases hc
  rw [jsonLoad, hval]
  rfl

end JsonDump

end Megakernel
