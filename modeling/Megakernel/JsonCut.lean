import Megakernel.JsonTrip

/-!
# A cut text is rejected

`jsonLoad_truncated`: on a proper prefix of a document the parser throws, wherever the cut
is, and what stands in memory behind the prefix makes no difference.

A value that is cut need not throw itself. A literal is taken to be complete, and a number
ends where the text ends; but then the cursor stands at the end or beyond it, or at a
character that only a number can have, and the loop around the value throws (`Stuck`).

The proof is an induction over the derivation of the uncut text. A cut is inside one of its parts,
and in front of it everything is read as in the uncut text; so the only question at each node is
what the loop does when the part in question is stuck.
-/

namespace Megakernel

open List

namespace JsonParser

open JsonText CLib

variable {D : Type} {toDouble : List Char → D} {n : ℕ} {t : Text n} {p : ℕ} {w s r : List Char}

/-! ## Nothing behind the end is read -/

section Congr

variable {t' : Text n}

/-- What is left of a text depends on the text alone and not on what stands behind it in memory. -/
theorem rest_congr (h : ∀ i < n, t.mem i = t'.mem i) : t.rest = t'.rest := by
  funext p
  exact map_congr_left fun i hi => h _ (by rw [mem_range] at hi; omega)

/-- So what is seen at a cursor is the same, -/
theorem peek_congr (h : ∀ i < n, t.mem i = t'.mem i) : peek t = peek t' := by
  funext p
  simp only [peek, ws, rest_congr h]
  rfl

/-- and what can be expected there, -/
theorem expect_congr (h : ∀ i < n, t.mem i = t'.mem i) : expect t = expect t' := by
  funext c p
  rw [expect, expect, peek_congr h]
  refine bind_congr fun q => ?_
  simp only [h q.1 q.2.2]

/-- and the strings that are read, -/
theorem str_congr (h : ∀ i < n, t.mem i = t'.mem i) : str t = str t' := by
  funext p
  simp only [str, expect_congr h, rest_congr h]

/-- and the numbers; the terminating zero is a part of the text in this respect. -/
theorem number_congr (h : ∀ i < n, t.mem i = t'.mem i) :
    number toDouble t = number toDouble t' := by
  funext p
  simp only [number, Text.cString, rest_congr h]
  rfl

/-- **The parser depends on the characters of the text only.** What stands in memory behind the text
is never looked at, although the cursor may move beyond the end. -/
theorem value_congr (h : ∀ i < n, t.mem i = t'.mem i) (p : ℕ) :
    value toDouble t p = value toDouble t' p ∧ members toDouble t p = members toDouble t' p ∧
      elements toDouble t p = elements toDouble t' p := by
  induction hk : n - p using Nat.strong_induction_on generalizing p with
  | _ k ih =>
    have hval : value toDouble t p = value toDouble t' p := by
      rw [value, value, peek_congr h]
      refine bind_congr fun q => ?_
      obtain ⟨q, hq⟩ := q
      dsimp only
      rw [h q hq.2]
      split
      · refine bind_congr fun r => ?_
        obtain ⟨r, hr⟩ := r
        dsimp only
        rw [h r hr.2, (ih (n - r) (by omega) r rfl).2.1]
      · refine bind_congr fun r => ?_
        obtain ⟨r, hr⟩ := r
        dsimp only
        rw [h r hr.2, (ih (n - r) (by omega) r rfl).2.2]
      · rw [str_congr h]
      · rfl
      · rfl
      · rfl
      · rw [number_congr h]
    refine ⟨hval, ?_, ?_⟩
    · rw [members, members, str_congr h]
      refine bind_congr fun x => ?_
      obtain ⟨key, q, hq⟩ := x
      dsimp only
      rw [expect_congr h]
      refine bind_congr fun k => ?_
      obtain ⟨k, hk⟩ := k
      dsimp only
      rw [(ih (n - k) (by omega) k rfl).1, peek_congr h]
      refine bind_congr fun y => ?_
      obtain ⟨v, e, he⟩ := y
      dsimp only
      refine bind_congr fun d => ?_
      obtain ⟨d, hd⟩ := d
      dsimp only
      rw [h d hd.2, (ih (n - (d + 1)) (by omega) (d + 1) rfl).2.1]
    · rw [elements, elements, hval, peek_congr h, expect_congr h]
      refine bind_congr fun y => ?_
      obtain ⟨v, e, he⟩ := y
      dsimp only
      refine bind_congr fun d => ?_
      obtain ⟨d, hd⟩ := d
      dsimp only
      rw [h d hd.2, (ih (n - (d + 1)) (by omega) (d + 1) rfl).2.2]

end Congr

/-! ## Cuts -/

/-- `r` is what a cut leaves of `s`: a proper prefix. -/
def CutOf (r s : List Char) : Prop := r <+: s ∧ r ≠ s

/-- A cut of two texts is in the first one, or behind it. -/
theorem CutOf.append {a b : List Char} (h : CutOf r (a ++ b)) :
    CutOf r a ∨ ∃ r', r = a ++ r' ∧ CutOf r' b := by
  obtain ⟨hpre, hne⟩ := h
  by_cases ha : a <+: r
  · obtain ⟨r', rfl⟩ := ha
    exact Or.inr ⟨r', rfl, (prefix_append_right_inj a).mp hpre, fun h => hne (h ▸ rfl)⟩
  · obtain h | h := prefix_or_prefix_of_prefix hpre (prefix_append a b)
    · refine Or.inl ⟨h, ?_⟩
      rintro rfl
      exact ha (prefix_refl _)
    · exact absurd h ha

/-- A text is cut in front of its first character or behind it. -/
theorem CutOf.cons {c : Char} (h : CutOf r (c :: s)) : r = [] ∨ ∃ r', r = c :: r' ∧ CutOf r' s := by
  obtain ⟨hpre, hne⟩ := h
  obtain rfl | ⟨r', rfl, hr'⟩ := prefix_cons_iff.mp hpre
  · exact Or.inl rfl
  · exact Or.inr ⟨r', rfl, hr', fun h => hne (h ▸ rfl)⟩

/-- A text is cut in front of its last character at the latest. -/
theorem CutOf.concat {c : Char} (h : CutOf r (s ++ [c])) : r <+: s :=
  (prefix_concat_iff.mp h.1).resolve_left h.2

/-- Cut blanks are blanks. -/
theorem blank_initial (hw : Blank w) (h : r <+: w) : Blank r := fun c hc => hw c (h.subset hc)

/-- A cut among blanks, or behind the token that follows them. -/
theorem CutOf.blank {c : Char} (h : CutOf r (w ++ c :: s)) (hw : Blank w) :
    Blank r ∨ ∃ r', r = w ++ c :: r' ∧ CutOf r' s := by
  obtain h | ⟨r₁, rfl, hr₁⟩ := h.append
  · exact Or.inl (blank_initial hw h.1)
  · obtain rfl | ⟨r₂, rfl, hr₂⟩ := hr₁.cons
    · exact Or.inl (by rwa [append_nil])
    · exact Or.inr ⟨r₂, rfl, hr₂⟩

/-! ## Strings -/

/-- No backslash and no quote: the loop runs to the end. -/
theorem strLoop_of_plain (h : ∀ c ∈ s, c ≠ '"' ∧ c ≠ '\\') : strLoop s = none := by
  induction s with
  | nil => rfl
  | cons c s ih =>
    obtain ⟨hq, hb⟩ := h c mem_cons_self
    rw [strLoop_plain hq hb, ih fun x hx => h x (mem_cons_of_mem _ hx)]
    rfl

/-- A hexadecimal digit neither closes a string nor begins an escape. -/
theorem HexDigit.ne {c : Char} (h : HexDigit c) : c ≠ '"' ∧ c ≠ '\\' := by
  have hall : ∀ c ∈ "0123456789abcdefABCDEF".toList, c ≠ '"' ∧ c ≠ '\\' := by simp
  exact hall c h

/-- An escape that lacks digits is read without them. -/
theorem strLoop_unit_short (hlen : s.length < 4) (h : ∀ c ∈ s, c ≠ '"' ∧ c ≠ '\\') :
    strLoop ('\\' :: 'u' :: s) = none := by
  rw [strLoop, strLoop_of_plain h]
  · rfl
  · rintro a b c d s' rfl
    simp at hlen
    omega

/-- The loop does not find the end of a string that is cut. -/
theorem strLoop_of_cut {u : List Char → Char} {v : List Char} (h : Chars u s v) (hr : r <+: s) :
    strLoop r = none := by
  induction h generalizing r with
  | nil =>
    rw [prefix_nil.mp hr]
    rfl
  | plain _ _ hq hb _ ih =>
    obtain rfl | ⟨r', rfl, hr'⟩ := prefix_cons_iff.mp hr
    · rfl
    · rw [strLoop_plain hq hb, ih hr']
      rfl
  | letter he _ ih =>
    obtain rfl | ⟨r', rfl, hr'⟩ := prefix_cons_iff.mp hr
    · rfl
    obtain rfl | ⟨r₂, rfl, hr₂⟩ := prefix_cons_iff.mp hr'
    · rfl
    · rw [strLoop_letter (letter_of_escapes he).1, ih hr₂]
      rfl
  | @unit a b c d s v hx _ ih =>
    obtain rfl | ⟨r₁, rfl, hr₁⟩ := prefix_cons_iff.mp hr
    · rfl
    obtain rfl | ⟨r', rfl, hr'⟩ := prefix_cons_iff.mp hr₁
    · rfl
    -- the cut is among the digits or behind them
    obtain hcut | ⟨r'', rfl, hr''⟩ : (r'.length < 4 ∧ r' <+: [a, b, c, d]) ∨
        ∃ r'', r' = a :: b :: c :: d :: r'' ∧ r'' <+: s := by
      have hpre : r' <+: [a, b, c, d] ++ s := hr'
      obtain h | h := prefix_or_prefix_of_prefix hpre (prefix_append [a, b, c, d] s)
      · obtain hlt | hge := Nat.lt_or_ge r'.length 4
        · exact Or.inl ⟨hlt, h⟩
        · rw [h.eq_of_length_le hge]
          exact Or.inr ⟨[], rfl, nil_prefix⟩
      · obtain ⟨r'', rfl⟩ := h
        exact Or.inr ⟨r'', rfl, (prefix_append_right_inj _).mp hpre⟩
    · exact strLoop_unit_short hcut.1 fun x hxr => HexDigit.ne (hx x (hcut.2.subset hxr))
    · rw [strLoop, ih hr'']
      rfl

/-- A string that is cut throws: wherever the cut is, no quote is left that closes it, and an escape
that is cut finds the end of the text. -/
theorem str_of_cut {u : List Char → Char} {v : String} (hs : StringLit u s v) (hr : CutOf r s)
    (h : t.rest p = w ++ r) (hw : Blank w) : Throws (str t p) := by
  obtain ⟨body, cs, hchars, rfl, -⟩ := hs
  obtain rfl | ⟨r', rfl, hr'⟩ := hr.cons
  · rw [append_nil] at h
    exact (expect_throws (peek_of_blank h hw)).bind _
  · obtain ⟨hq, hexp⟩ := expect_of_rest h hw rfl
    have hrest := (Text.of_rest_cons (Text.rest_add_length h)).2.2
    rw [str, hexp, ok_bind]
    dsimp only
    rw [hrest, strLoop_of_cut hchars hr'.concat]
    exact ⟨_, rfl⟩

/-! ## Values -/

theorem rest_add (t : Text n) (p k : ℕ) : t.rest (p + k) = (t.rest p).drop k := by
  obtain hle | hlt := Nat.le_total k (n - p)
  · have hlen : ((t.rest p).take k).length = k := by
      rw [length_take, Text.length_rest, Nat.min_eq_left hle]
    have h := Text.rest_add_length (take_append_drop k (t.rest p)).symm
    rwa [hlen] at h
  · rw [Text.rest_of_ge (by omega), drop_eq_nil_of_le (by rw [Text.length_rest]; exact hlt)]

/-- A value throws, or leaves the cursor where no value can end. In the second case whatever the
parser does next throws, as it looks for a comma, a bracket or the end. -/
def Stuck (t : Text n) (x : Except String (Jv D × Past p)) : Prop :=
  Throws x ∨ ∃ v q, Yields x v q ∧ ∀ c ∈ (t.rest q).head?, Numeric c

/-- The parser gets stuck on every cut of `s` that ends the text. It is the induction hypothesis for
the values inside an array or an object. -/
def Sticks (toDouble : List Char → D) (t : Text n) (s : List Char) : Prop :=
  ∀ p w r, t.rest p = w ++ r → Blank w → CutOf r s → Stuck t (value toDouble t p)

/-- If only blanks are left there is no value. -/
theorem value_of_blank (h : t.rest p = w) (hw : Blank w) : Throws (value toDouble t p) :=
  value_throws (peek_of_blank h hw)

/-- Where the cursor is stuck, neither a comma nor a bracket follows. -/
theorem peek_of_numeric {q : ℕ} (h : ∀ c ∈ (t.rest q).head?, Numeric c) :
    Throws (peek t q) ∨ ∃ hq, peek t q = .ok ⟨q, hq⟩ ∧ Numeric (t.mem q) := by
  cases hrest : t.rest q with
  | nil => exact Or.inl (peek_of_blank hrest blank_nil)
  | cons c x =>
    have hc : Numeric c := h c (by rw [hrest]; rfl)
    obtain ⟨hq, hpeek⟩ := peek_of_rest (w := []) hrest blank_nil hc.ne.1
    rw [← (Text.of_rest_cons hrest).2.1] at hc
    exact Or.inr ⟨hq, hpeek, hc⟩

/-- Characters of a number are none of those that the parser looks for. -/
theorem Numeric.ne_mem {c d : Char} (h : Numeric c)
    (hd : d ∈ [',', ':', '[', ']', '{', '}', '"', 't', 'f', 'n']) : c ≠ d := by
  rintro rfl
  exact h.ne.2.2 hd

/-- Behind the beginning of a number that is cut further on there is no other character to be found.
-/
theorem expect_of_numeric {q : ℕ} {b : Char} (h : ∀ c ∈ (t.rest q).head?, Numeric c)
    (hb : b ∈ [',', ':', '[', ']', '{', '}', '"', 't', 'f', 'n']) : Throws (expect t b q) := by
  obtain hpeek | ⟨hq, hpeek, hc⟩ := peek_of_numeric h
  · exact expect_throws hpeek
  · exact expect_throws_of_peek hpeek (hc.ne_mem hb)

/-- If an element is stuck, so is the array: it throws at the element or right behind it. -/
theorem elements_of_stuck (h : Stuck t (value toDouble t p)) : Throws (elements toDouble t p) := by
  obtain h | ⟨v, q, hv, hnum⟩ := h
  · exact elements_throws h
  · obtain hpeek | ⟨hq, hpeek, hc⟩ := peek_of_numeric hnum
    · exact elements_throws_peek hv hpeek
    · exact (elements_last (f := 0) hv hpeek (hc.ne_mem (by decide))).2
        (expect_of_numeric hnum (by decide))

/-- If the value of a member is stuck, so is the object. -/
theorem members_of_stuck {key : String} {q k : ℕ} {hk : q < k ∧ k ≤ n} (hs : Yields (str t p) key q)
    (hexp : expect t ':' q = .ok ⟨k, hk⟩) (h : Stuck t (value toDouble t k)) :
    Throws (members toDouble t p) := by
  obtain h | ⟨v, e, hv, hnum⟩ := h
  · exact members_throws_value hs hexp h
  · obtain hpeek | ⟨hd, hpeek, hc⟩ := peek_of_numeric hnum
    · exact members_throws_peek hs hexp hv hpeek
    · exact (members_last (f := 0) hs hexp hv hpeek (hc.ne_mem (by decide))).2
        (expect_of_numeric hnum (by decide))

/-- At the end of a text, with or without blanks, a number ends. -/
theorem follows_of_blank (hw : Blank w) : Follows w := by
  intro c hc
  cases w with
  | nil => cases hc
  | cons d w =>
    obtain rfl := Option.some.inj hc
    exact Or.inl (isWs_of_blank hw _ mem_cons_self)

/-- The loop over the elements, of which the first one has been come to. -/
theorem elements_of_cut {i : Spaced (Jv D)} {is : List (Spaced (Jv D))}
    (hok : ∀ j ∈ i :: is, j.Ok) (hread : ∀ j ∈ i :: is, Reads toDouble t j.text j.val)
    (hcut : ∀ j ∈ i :: is, Sticks toDouble t j.text) (h : t.rest p = w ++ r) (hw : Blank w)
    (hr : CutOf r (i.text ++ (i.after ++ closing Spaced.form ']' [] is))) :
    Throws (elements toDouble t p) := by
  induction is generalizing i p w r with
  | nil =>
    have hafter : Blank i.after := (hok i mem_cons_self).2
    obtain hr | ⟨r₁, rfl, hr₁⟩ := hr.append
    · exact elements_of_stuck (hcut i mem_cons_self p w r h hw hr)
    · have hb : Blank r₁ := blank_initial hafter hr₁.concat
      have hv := hread i mem_cons_self p w _ h hw (follows_of_blank hb)
      exact elements_throws_peek hv
        (peek_of_blank (rest_suffix (h.trans (append_assoc _ _ _).symm)) hb)
  | cons j is ih =>
    have hafter : Blank i.after := (hok i mem_cons_self).2
    obtain hr | ⟨r₁, rfl, hr₁⟩ := hr.append
    · exact elements_of_stuck (hcut i mem_cons_self p w r h hw hr)
    have hrest := rest_suffix (h.trans (append_assoc _ _ _).symm)
    obtain hb | ⟨r₂, rfl, hr₂⟩ := CutOf.blank hr₁ hafter
    · have hv := hread i mem_cons_self p w _ h hw (follows_of_blank hb)
      exact elements_throws_peek hv (peek_of_blank hrest hb)
    · have hv := hread i mem_cons_self p w _ h hw (follows_blank hafter (Or.inl rfl))
      obtain ⟨hd, hpeek⟩ := peek_of_rest hrest hafter rfl
      obtain ⟨-, hmem, hnext⟩ := Text.of_rest_cons (Text.rest_add_length hrest)
      refine (elements_cons (f := 0) (l := []) hv hpeek hmem).2 ?_
      rw [Spaced.form, append_assoc, append_assoc] at hr₂
      have hbefore : Blank j.before := (hok j (mem_cons_of_mem _ mem_cons_self)).1
      obtain hr₃ | ⟨r₃, rfl, hr₃⟩ := hr₂.append
      · exact elements_throws (value_of_blank hnext (blank_initial hbefore hr₃.1))
      · exact ih (fun j hj => hok j (mem_cons_of_mem _ hj))
          (fun j hj => hread j (mem_cons_of_mem _ hj)) (fun j hj => hcut j (mem_cons_of_mem _ hj))
          hnext hbefore hr₃

section Members

variable {S : List Char → String → Prop}

/-- A cut of a member is before the end of its value, or behind it. -/
theorem member_of_cut (hS : ∀ s v, S s v → StringLit unit s v) {m : Member (Jv D)} (hok : m.Ok S)
    (hcut : Sticks toDouble t m.item.text) {x : List Char} (h : t.rest p = w ++ r) (hw : Blank w)
    (hr : CutOf r (m.keyText ++ (m.after ++ ':' :: (m.item.form ++ x)))) :
    Throws (members toDouble t p) ∨
      ∃ r', r = m.keyText ++ (m.after ++ ':' :: (m.item.before ++ (m.item.text ++ r'))) ∧
        CutOf r' (m.item.after ++ x) := by
  obtain ⟨-, hkey, hafter, hitem⟩ := hok
  obtain hr | ⟨r₁, rfl, hr₁⟩ := hr.append
  · exact Or.inl (members_throws (str_of_cut (hS _ _ hkey) hr h hw))
  have hs := str_of_rest (hS _ _ hkey) h hw
  have hcolon := Text.rest_add_length (Text.rest_add_length h)
  obtain hb | ⟨r₂, rfl, hr₂⟩ := CutOf.blank hr₁ hafter
  · exact Or.inl (members_throws_colon hs (expect_throws (peek_of_blank hcolon hb)))
  obtain ⟨hk, hexp⟩ := expect_of_rest hcolon hafter rfl
  have hform := (Text.of_rest_cons (Text.rest_add_length hcolon)).2.2
  rw [Spaced.form, append_assoc, append_assoc] at hr₂
  obtain hr₂ | ⟨r₃, rfl, hr₃⟩ := hr₂.append
  · have hb := blank_initial hitem.1 hr₂.1
    exact Or.inl (members_throws_value hs hexp (value_of_blank hform hb))
  obtain hr₃ | ⟨r₄, rfl, hr₄⟩ := hr₃.append
  · exact Or.inl (members_of_stuck hs hexp (hcut _ _ _ hform hitem.1 hr₃))
  · exact Or.inr ⟨r₄, rfl, hr₄⟩

/-- The loop over the members, of which the first one has been come to. -/
theorem members_of_cut (hS : ∀ s v, S s v → StringLit unit s v) {m : Member (Jv D)}
    {ms : List (Member (Jv D))} (hok : ∀ m' ∈ m :: ms, m'.Ok S)
    (hread : ∀ m' ∈ m :: ms, Reads toDouble t m'.item.text m'.item.val)
    (hcut : ∀ m' ∈ m :: ms, Sticks toDouble t m'.item.text) (h : t.rest p = w ++ r) (hw : Blank w)
    (hr : CutOf r (m.keyText ++ (m.after ++ ':' :: (m.item.form ++
      closing Member.form '}' [] ms)))) :
    Throws (members toDouble t p) := by
  induction ms generalizing m p w r with
  | nil =>
    have hm := hok m mem_cons_self
    obtain hthrows | ⟨r₁, rfl, hr₁⟩ := member_of_cut hS hm (hcut m mem_cons_self) h hw hr
    · exact hthrows
    have hb : Blank r₁ := blank_initial hm.2.2.2.2 hr₁.concat
    obtain ⟨q, k, hk, hs, hexp, hv, hrest⟩ := member_reads hS hm (hread m mem_cons_self) h hw
      (follows_of_blank hb)
    exact members_throws_peek hs hexp hv (peek_of_blank hrest hb)
  | cons m' ms ih =>
    have hm := hok m mem_cons_self
    have hafter : Blank m.item.after := hm.2.2.2.2
    obtain hthrows | ⟨r₁, rfl, hr₁⟩ := member_of_cut hS hm (hcut m mem_cons_self) h hw hr
    · exact hthrows
    obtain hb | ⟨r₂, rfl, hr₂⟩ := CutOf.blank hr₁ hafter
    · obtain ⟨q, k, hk, hs, hexp, hv, hrest⟩ := member_reads hS hm (hread m mem_cons_self) h hw
        (follows_of_blank hb)
      exact members_throws_peek hs hexp hv (peek_of_blank hrest hb)
    · obtain ⟨q, k, hk, hs, hexp, hv, hrest⟩ := member_reads hS hm (hread m mem_cons_self) h hw
        (follows_blank hafter (Or.inl rfl))
      obtain ⟨hd, hpeek⟩ := peek_of_rest hrest hafter rfl
      obtain ⟨-, hmem, hnext⟩ := Text.of_rest_cons (Text.rest_add_length hrest)
      refine (members_cons (f := 0) (l := []) hs hexp hv hpeek hmem).2 ?_
      simp only [Member.form, append_assoc, cons_append] at hr₂
      have hbefore : Blank m'.before := (hok m' (mem_cons_of_mem _ mem_cons_self)).1
      obtain hr₃ | ⟨r₃, rfl, hr₃⟩ := hr₂.append
      · have hb := blank_initial hbefore hr₃.1
        exact members_throws ((expect_throws (peek_of_blank hnext hb)).bind _)
      · exact ih (fun j hj => hok j (mem_cons_of_mem _ hj))
          (fun j hj => hread j (mem_cons_of_mem _ hj)) (fun j hj => hcut j (mem_cons_of_mem _ hj))
          hnext hbefore hr₃

end Members

/-- A literal that is cut is taken to be complete, and the cursor stands beyond the end. -/
theorem stuck_of_beyond {x : Except String (Jv D × Past p)} {v : Jv D} {q : ℕ} (hx : Yields x v q)
    (hq : n ≤ q) : Stuck t x :=
  Or.inr ⟨v, q, hx, fun c hc => by rw [Text.rest_of_ge hq] at hc; cases hc⟩

/-- A number that is cut ends where the text ends, or before a character of the number. -/
theorem number_of_cut (hs : Number s) : Sticks toDouble t s := by
  intro p w r h hw hr
  have hall : ∀ c ∈ r, Numeric c := fun c hc => numeric_of_number hs c (hr.1.subset hc)
  cases r with
  | nil => exact Or.inl (value_of_blank (h.trans (append_nil w)) hw)
  | cons c r =>
    have hc := hall c mem_cons_self
    obtain ⟨hq, hpeek⟩ := peek_of_rest h hw hc.ne.1
    have hrest := Text.rest_add_length h
    rw [← (Text.of_rest_cons hrest).2.1] at hc
    by_cases hzero : (strtod toDouble (t.cString (p + w.length))).2 = 0
    · exact Or.inl ((value_number (e := 0) hpeek hc).2 ⟨_, dif_pos hzero⟩)
    · have hnum : Yields (number toDouble t (p + w.length)) _ _ :=
        ⟨Nat.lt_add_of_pos_right (Nat.pos_of_ne_zero hzero), dif_neg hzero⟩
      refine Or.inr ⟨_, _, (value_number hpeek hc).1 _ hnum, fun d hd => ?_⟩
      rw [rest_add, hrest] at hd
      exact hall d (mem_of_mem_drop (mem_of_mem_head? hd))

/-- A list that is cut throws. -/
theorem arr_of_cut {S : List Char → String → Prop} {N : List Char → D → Prop}
    (hS : ∀ s v, S s v → StringLit unit s v) (hN : ∀ s d, N s d → Number s ∧ toDouble s = d)
    {is : List (Spaced (Jv D))} (hne : is ≠ []) (hok : ∀ i ∈ is, i.Ok)
    (hval : ∀ i ∈ is, Denotes (forms D) S N i.text i.val)
    (hcut : ∀ i ∈ is, Sticks toDouble t i.text) (h : t.rest p = w ++ r) (hw : Blank w)
    (hr : CutOf r ('[' :: (inner Spaced.form is ++ [']']))) : Throws (value toDouble t p) := by
  obtain ⟨i, is, rfl⟩ := exists_cons_of_ne_nil hne
  rw [inner_cons_append, Spaced.form, append_assoc, append_assoc] at hr
  obtain rfl | ⟨r₁, rfl, hr₁⟩ := hr.cons
  · exact value_of_blank (h.trans (append_nil w)) hw
  obtain ⟨hq, hpeek⟩ := peek_of_rest h hw rfl
  obtain ⟨-, hc, hrest⟩ := Text.of_rest_cons (Text.rest_add_length h)
  obtain ⟨c, x, htext, hws, hbr⟩ := head_of_denotes hS (fun s d h => (hN s d h).1)
    (hval i mem_cons_self)
  have hbefore := (hok i mem_cons_self).1
  -- the cut is before the first character of the first element, or behind it
  have hr₂ := hr₁
  rw [htext, cons_append] at hr₂
  obtain hb | ⟨r₃, rfl, -⟩ := CutOf.blank hr₂ hbefore
  · exact value_arr_eof hpeek hc (peek_of_blank hrest hb)
  obtain ⟨hq', hpeek'⟩ := peek_of_rest hrest hbefore hws
  have hfirst := Text.rest_add_length hrest
  refine (value_arr (e := 0) (l := []) hpeek hc hpeek'
    (ne_of_eq_of_ne (Text.of_rest_cons hfirst).2.1 hbr)).2 ?_
  refine elements_of_cut (w := []) hok (fun j hj => value_of_denotes hS hN (hval j hj)) hcut hfirst
    blank_nil ?_
  obtain hr₄ | ⟨r₄, heq, hr₄⟩ := hr₁.append
  · exact absurd (hr₄.1.length_le) (by simp)
  · rwa [append_cancel_left heq]

/-- An object that is cut throws. -/
theorem obj_of_cut {S : List Char → String → Prop} {N : List Char → D → Prop}
    (hS : ∀ s v, S s v → StringLit unit s v) (hN : ∀ s d, N s d → Number s ∧ toDouble s = d)
    {ms : List (Member (Jv D))} (hne : ms ≠ []) (hok : ∀ m ∈ ms, m.Ok S)
    (hval : ∀ m ∈ ms, Denotes (forms D) S N m.item.text m.item.val)
    (hcut : ∀ m ∈ ms, Sticks toDouble t m.item.text) (h : t.rest p = w ++ r) (hw : Blank w)
    (hr : CutOf r ('{' :: (inner Member.form ms ++ ['}']))) : Throws (value toDouble t p) := by
  obtain ⟨m, ms, rfl⟩ := exists_cons_of_ne_nil hne
  rw [inner_cons_append] at hr
  simp only [Member.form, append_assoc, cons_append] at hr
  obtain rfl | ⟨r₁, rfl, hr₁⟩ := hr.cons
  · exact value_of_blank (h.trans (append_nil w)) hw
  obtain ⟨hq, hpeek⟩ := peek_of_rest h hw rfl
  obtain ⟨-, hc, hrest⟩ := Text.of_rest_cons (Text.rest_add_length h)
  obtain ⟨hbefore, hkey, -⟩ := hok m mem_cons_self
  obtain ⟨body, cs, -, htext, -⟩ := hS _ _ hkey
  have hr₂ := hr₁
  rw [htext, cons_append] at hr₂
  obtain hb | ⟨r₃, rfl, -⟩ := CutOf.blank hr₂ hbefore
  · exact value_obj_eof hpeek hc (peek_of_blank hrest hb)
  obtain ⟨hq', hpeek'⟩ := peek_of_rest hrest hbefore rfl
  have hfirst := Text.rest_add_length hrest
  refine (value_obj (e := 0) (l := []) hpeek hc hpeek'
    (ne_of_eq_of_ne (Text.of_rest_cons hfirst).2.1 (by decide))).2 ?_
  refine members_of_cut (w := []) hS hok
    (fun j hj => value_of_denotes hS hN (hval j hj)) hcut hfirst
    blank_nil ?_
  obtain hr₄ | ⟨r₄, heq, hr₄⟩ := hr₁.append
  · exact absurd (hr₄.1.length_le) (by simp)
  · rwa [append_cancel_left heq]

/-- Empty brackets that are cut. -/
theorem brackets_of_cut {a b : Char} {w' : List Char} (ha : isWs a = false) (hw' : Blank w')
    (h : t.rest p = w ++ r) (hw : Blank w) (hr : CutOf r (a :: (w' ++ [b]))) :
    Throws (peek t p) ∨
      ∃ q hq, peek t p = .ok ⟨q, hq⟩ ∧ t.mem q = a ∧ Throws (peek t (q + 1)) := by
  obtain rfl | ⟨r₁, rfl, hr₁⟩ := hr.cons
  · exact Or.inl (peek_of_blank (h.trans (append_nil w)) hw)
  · obtain ⟨hq, hpeek⟩ := peek_of_rest h hw ha
    obtain ⟨-, hc, hrest⟩ := Text.of_rest_cons (Text.rest_add_length h)
    exact Or.inr ⟨_, hq, hpeek, hc, peek_of_blank hrest (blank_initial hw' hr₁.concat)⟩

/-- A literal that is cut. -/
theorem literal_of_cut {c : Char} (hc : isWs c = false) (h : t.rest p = w ++ r) (hw : Blank w)
    (hr : CutOf r (c :: s)) :
    Throws (value toDouble t p) ∨
      ∃ q hq, peek t p = .ok ⟨q, hq⟩ ∧ t.mem q = c ∧ n ≤ q + s.length := by
  obtain rfl | ⟨r₁, rfl, hr₁⟩ := hr.cons
  · exact Or.inl (value_of_blank (h.trans (append_nil w)) hw)
  · obtain ⟨hq, hpeek⟩ := peek_of_rest h hw hc
    have hrest := Text.rest_add_length h
    refine Or.inr ⟨_, hq, hpeek, (Text.of_rest_cons hrest).2.1, ?_⟩
    have hlen := congrArg length hrest
    have hlt : r₁.length < s.length := lt_of_not_ge fun hge => hr₁.2 (hr₁.1.eq_of_length_le hge)
    rw [Text.length_rest, length_cons] at hlen
    omega

/-- **Every value that is cut leaves the parser stuck.** -/
theorem sticks_of_denotes {S : List Char → String → Prop} {N : List Char → D → Prop} {v : Jv D}
    (hS : ∀ s v, S s v → StringLit unit s v) (hN : ∀ s d, N s d → Number s ∧ toDouble s = d)
    (h : Denotes (forms D) S N s v) : Sticks toDouble t s := by
  induction h with
  | nul =>
    intro p w r h hw hr
    obtain h | ⟨q, hq, hpeek, hc, hn⟩ := literal_of_cut (c := 'n') rfl h hw hr
    · exact Or.inl h
    · exact stuck_of_beyond (value_nul hpeek hc) (hn.trans (Nat.le_succ _))
  | tru =>
    intro p w r h hw hr
    obtain h | ⟨q, hq, hpeek, hc, hn⟩ := literal_of_cut (c := 't') rfl h hw hr
    · exact Or.inl h
    · exact stuck_of_beyond (value_tru hpeek hc) (hn.trans (Nat.le_succ _))
  | fls =>
    intro p w r h hw hr
    obtain h | ⟨q, hq, hpeek, hc, hn⟩ := literal_of_cut (c := 'f') rfl h hw hr
    · exact Or.inl h
    · exact stuck_of_beyond (value_fls hpeek hc) (hn.trans (Nat.le_succ _))
  | num h => exact number_of_cut (hN _ _ h).1
  | str h =>
    intro p w r hrest hw hr
    have hlit := hS _ _ h
    obtain ⟨body, cs, -, rfl, -⟩ := id hlit
    obtain rfl | ⟨r₁, rfl, -⟩ := hr.cons
    · exact Or.inl (value_of_blank (hrest.trans (append_nil w)) hw)
    · obtain ⟨hq, hpeek⟩ := peek_of_rest hrest hw rfl
      have hbehind := Text.rest_add_length hrest
      exact Or.inl (value_str_throws hpeek (Text.of_rest_cons hbehind).2.1
        (str_of_cut (w := []) hlit hr hbehind blank_nil))
  | arrNil hb =>
    intro p w r h hw hr
    obtain h | ⟨q, hq, hpeek, hc, hend⟩ := brackets_of_cut rfl hb h hw hr
    · exact Or.inl (value_throws h)
    · exact Or.inl (value_arr_eof hpeek hc hend)
  | arr hne hok hval ih =>
    exact fun p w r h hw hr => Or.inl (arr_of_cut hS hN hne hok hval ih h hw hr)
  | objNil hb =>
    intro p w r h hw hr
    obtain h | ⟨q, hq, hpeek, hc, hend⟩ := brackets_of_cut rfl hb h hw hr
    · exact Or.inl (value_throws h)
    · exact Or.inl (value_obj_eof hpeek hc hend)
  | obj hne hok hval ih =>
    exact fun p w r h hw hr => Or.inl (obj_of_cut hS hN hne hok hval ih h hw hr)

/-! ## Documents -/

/-- A JSON text with ASCII strings, and the value that the harness makes of it. -/
def Document (toDouble : List Char → D) : List Char → Jv D → Prop :=
  Denotes (forms D) (StringLit unit) fun s d => Number s ∧ toDouble s = d

/-- An array or an object. -/
def IsContainer (v : Jv D) : Prop := (∃ l, v = .arr l) ∨ ∃ l, v = .obj l

/-- A container that is cut throws. -/
theorem container_of_cut {v : Jv D} (hdoc : Document toDouble s v) (hv : IsContainer v)
    (h : t.rest p = w ++ r) (hw : Blank w) (hr : CutOf r s) : Throws (value toDouble t p) := by
  have hS : ∀ s v, StringLit unit s v → StringLit unit s v := fun _ _ h => h
  have hN : ∀ s d, Number s ∧ toDouble s = d → Number s ∧ toDouble s = d := fun _ _ h => h
  cases hdoc with
  | nul => obtain ⟨l, hl⟩ | ⟨l, hl⟩ := hv <;> cases hl
  | tru => obtain ⟨l, hl⟩ | ⟨l, hl⟩ := hv <;> cases hl
  | fls => obtain ⟨l, hl⟩ | ⟨l, hl⟩ := hv <;> cases hl
  | num => obtain ⟨l, hl⟩ | ⟨l, hl⟩ := hv <;> cases hl
  | str => obtain ⟨l, hl⟩ | ⟨l, hl⟩ := hv <;> cases hl
  | arrNil hb =>
    obtain h | ⟨q, hq, hpeek, hc, hend⟩ := brackets_of_cut rfl hb h hw hr
    · exact value_throws h
    · exact value_arr_eof hpeek hc hend
  | arr hne hok hval =>
    exact arr_of_cut hS hN hne hok hval (fun i hi => sticks_of_denotes hS hN (hval i hi)) h hw hr
  | objNil hb =>
    obtain h | ⟨q, hq, hpeek, hc, hend⟩ := brackets_of_cut rfl hb h hw hr
    · exact value_throws h
    · exact value_obj_eof hpeek hc hend
  | obj hne hok hval =>
    exact obj_of_cut hS hN hne hok hval (fun m hm => sticks_of_denotes hS hN (hval m hm)) h hw hr

/-- Texts of which the same is left from the start on are the same. -/
theorem mem_congr {t' : Text n} (h : t.rest 0 = t'.rest 0) : ∀ i < n, t.mem i = t'.mem i := by
  intro i hi
  have hi' := congrArg (·[i]?) h
  simpa [Text.rest, hi] using hi'

/-- **A truncated file is rejected**, with an error that what stands behind it does not change. -/
theorem jsonLoad_truncated {v : Jv D} (hdoc : Document toDouble s v) (hv : IsContainer v)
    (hw : Blank w) (hpre : r <+: w ++ s) (hne : r ≠ w ++ s) :
    ∃ e, ∀ {n : ℕ} (t : Text n), t.Holds r → jsonLoad toDouble t = .error e := by
  have hthrows : Throws (value toDouble (Text.of r) 0) := by
    obtain hr | ⟨r', rfl, hr'⟩ := CutOf.append ⟨hpre, hne⟩
    · exact value_of_blank (Text.holds_of r) (blank_initial hw hr.1)
    · exact container_of_cut hdoc hv (Text.holds_of _) hw hr'
  obtain ⟨e, he⟩ := hthrows
  refine ⟨e, fun {n} t ht => ?_⟩
  obtain rfl : r.length = n := by
    rw [← congrArg length ht, Text.length_rest, Nat.sub_zero]
  have hmem := mem_congr (ht.trans (Text.holds_of r).symm)
  rw [jsonLoad, (value_congr hmem 0).1, he]
  rfl

theorem jsonLoad_truncated_literal :
    ∃ e, ∀ {n : ℕ} (t : Text n), t.Holds "[nul".toList → jsonLoad (fun _ => (0 : ℕ)) t =
      .error e := by
  have hdoc : Document (fun _ => (0 : ℕ)) "[null]".toList (.arr [.nul]) :=
    @Denotes.arr _ _ (forms _) (StringLit unit) _ [⟨[], "null".toList, [], Jv.nul⟩]
      (cons_ne_nil _ _)
      (forall_mem_singleton.mpr ⟨blank_nil, blank_nil⟩) (forall_mem_singleton.mpr Denotes.nul)
  exact jsonLoad_truncated (w := []) hdoc (Or.inl ⟨_, rfl⟩) blank_nil (by decide) (by decide)

end JsonParser

end Megakernel
