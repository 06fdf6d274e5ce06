import Mathlib.Data.List.Basic
import Mathlib.Data.List.TakeWhile
import SessionPool.Number

/-!
# What a text spells

The functions that look inside a text go through it from one end and stop somewhere.  Here each of
them is compared with what it means: a text is taken apart in the one way in which the parts are as
they should be.  Nothing is said of the way there, so that whoever wants to know what a line of a
file says need not know how it is searched.

* `Text.Trims`: a text without the blanks around it.
* `Text.Unquotes`: a text without a pair of quotes around it.
* `Number.Reads`: a number that stands at the front of a text.
* `Text.lines_flatMap`: texts without line feeds, each with one behind it, are so many lines.
* `Number.reads_decimal`: a number that is written in decimal is read again.
-/

namespace SessionPool
namespace Text

variable {t core inner value : Text}

/-! ## Blanks -/

/-- A text begins and ends with something else than a blank, if it is not empty. -/
structure Bare (t : Text) : Prop where
  head : ∀ b ∈ t.head?, isBlank b = false
  last : ∀ b ∈ t.getLast?, isBlank b = false

/-- The text `core` is what is left of `t` without the blanks at its two ends. -/
structure Trims (t core : Text) : Prop where
  parts : ∃ before after : Text, t = before ++ core ++ after ∧ (∀ b ∈ before, isBlank b = true) ∧
    ∀ b ∈ after, isBlank b = true
  bare : core.Bare

/-- The first byte that is left when some have been dropped from the front is none of these. -/
theorem eq_false_of_mem_head?_dropWhile (p : UInt8 → Bool) {b : UInt8}
    (h : b ∈ (t.dropWhile p).head?) : p b = false := by
  have hnot := List.head?_dropWhile_not p t
  rw [Option.mem_def.mp h] at hnot
  exact hnot

/-- A text whose first byte is to be kept loses nothing at the front. -/
theorem dropWhile_eq_self {p : UInt8 → Bool} (h : ∀ b ∈ t.head?, p b = false) :
    t.dropWhile p = t := by
  cases t with
  | nil => rfl
  | cons b t => exact List.dropWhile_cons_of_neg (by simp [h b rfl])

/-- A text that begins with bytes to be dropped and goes on with one to be kept. -/
theorem dropWhile_append_eq {p : UInt8 → Bool} {before rest : Text}
    (hbefore : ∀ b ∈ before, p b = true) (hrest : ∀ b ∈ rest.head?, p b = false) :
    (before ++ rest).dropWhile p = rest := by
  rw [List.dropWhile_append_of_pos hbefore, dropWhile_eq_self hrest]

/-- A text that begins with bytes to be taken and goes on with another. -/
theorem takeWhile_append_eq {p : UInt8 → Bool} {before rest : Text}
    (hbefore : ∀ b ∈ before, p b = true) (hrest : ∀ b ∈ rest.head?, p b = false) :
    (before ++ rest).takeWhile p = before := by
  rw [List.takeWhile_append_of_pos hbefore]
  cases rest with
  | nil => simp
  | cons b rest => rw [List.takeWhile_cons_of_neg (by simp [hrest b rfl]), List.append_nil]

/-- The first byte of a text is still the first one when others are dropped from its end, unless
nothing is left. -/
theorem mem_head?_of_append {before after : Text} {b : UInt8} (hne : b ∈ before.head?) :
    b ∈ (before ++ after).head? := by
  cases before with
  | nil => cases hne
  | cons d before => exact hne

/-- Trimming takes away all blanks at the two ends. -/
theorem trims_trim (t : Text) : Trims t t.trim := by
  let front := t.dropWhile isBlank
  have hfront : t = t.takeWhile isBlank ++ front := List.takeWhile_append_dropWhile.symm
  have hback : front = t.trim ++ (front.reverse.takeWhile isBlank).reverse := by
    have h := List.takeWhile_append_dropWhile (p := isBlank) (l := front.reverse)
    rw [← List.reverse_inj, List.reverse_append, List.reverse_reverse, trim, List.reverse_reverse]
    exact h.symm
  refine ⟨⟨t.takeWhile isBlank, (front.reverse.takeWhile isBlank).reverse, ?_, ?_, ?_⟩, ?_, ?_⟩
  · rw [List.append_assoc, ← hback]
    exact hfront
  · exact fun b hb => List.mem_takeWhile_imp hb
  · exact fun b hb => List.mem_takeWhile_imp (List.mem_reverse.mp hb)
  · intro b hb
    refine eq_false_of_mem_head?_dropWhile isBlank (t := t) ?_
    rw [show t.dropWhile isBlank = front from rfl, hback]
    exact mem_head?_of_append hb
  · intro b hb
    rw [trim, List.getLast?_reverse] at hb
    exact eq_false_of_mem_head?_dropWhile isBlank hb

/-- There is only one way to trim a text. -/
theorem Trims.trim_eq (h : Trims t core) : t.trim = core := by
  obtain ⟨⟨before, after, rfl, hbefore, hafter⟩, hhead, hlast⟩ := h
  cases core with
  | nil =>
    have hblank : ∀ b ∈ before ++ [] ++ after, isBlank b = true := by
      simp only [List.append_nil, List.mem_append]
      exact fun b hb => hb.elim (hbefore b) (hafter b)
    have hnone : (before ++ [] ++ after).dropWhile isBlank = [] :=
      List.dropWhile_eq_nil_iff.mpr hblank
    rw [trim, hnone]
    rfl
  | cons b core =>
    have hfront : (before ++ b :: core ++ after).dropWhile isBlank = b :: core ++ after := by
      rw [List.append_assoc]
      exact dropWhile_append_eq hbefore (by simpa using hhead)
    have hback : (b :: core ++ after).reverse.dropWhile isBlank = (b :: core).reverse := by
      rw [List.reverse_append]
      refine dropWhile_append_eq (fun d hd => hafter d (List.mem_reverse.mp hd)) fun d hd => ?_
      rw [List.head?_reverse] at hd
      exact hlast d hd
    rw [trim, hfront, hback, List.reverse_reverse]

/-- There are no other bytes in a text that has been trimmed than before. -/
theorem Trims.mem {b : UInt8} (h : Trims t core) (hb : b ∈ core) : b ∈ t := by
  obtain ⟨before, after, rfl, -, -⟩ := h.parts
  exact List.mem_append_left after (List.mem_append_right before hb)

theorem trim_eq_iff : t.trim = core ↔ Trims t core :=
  ⟨fun h => h ▸ trims_trim t, Trims.trim_eq⟩

/-- A text that is bare has nothing to be trimmed. -/
theorem Bare.trims (h : core.Bare) : Trims core core :=
  ⟨⟨[], [], by simp, by simp, by simp⟩, h⟩

/-! ## Quotes -/

/-- A double or a single quotation mark. -/
def IsQuote (q : UInt8) : Prop := q = 34 ∨ q = 39

/-- The text `value` is `t` without one pair of equal quotes around it, if there is such a pair. -/
def Unquotes (t value : Text) : Prop :=
  (∃ q, IsQuote q ∧ t = q :: value ++ [q]) ∨
    value = t ∧ ∀ q inner, IsQuote q → t ≠ q :: inner ++ [q]

/-- A text is enclosed by a byte if it has this byte at its two ends. -/
theorem enclosedBy_iff {q : UInt8} : enclosedBy q t = true ↔ ∃ inner, t = q :: inner ++ [q] := by
  constructor
  · intro h
    simp only [enclosedBy, Bool.and_eq_true, decide_eq_true_eq, beq_iff_eq] at h
    obtain ⟨⟨hlength, hhead⟩, hlast⟩ := h
    obtain ⟨rest, rfl⟩ : ∃ rest, t = q :: rest := List.head?_eq_some_iff.mp hhead
    have hne : rest ≠ [] := by
      rintro rfl
      simp at hlength
    rw [List.getLast?_cons, List.getLast?_eq_some_getLast hne, Option.getD_some,
      Option.some.injEq] at hlast
    have hrest : rest.dropLast ++ [q] = rest := hlast ▸ List.dropLast_concat_getLast hne
    exact ⟨rest.dropLast, by rw [List.cons_append, hrest]⟩
  · rintro ⟨inner, rfl⟩
    have hlast : (q :: inner ++ [q]).getLast? = some q := List.getLast?_concat
    rw [enclosedBy, hlast]
    simp

/-- What is inside a pair of quotes is left when they are taken off. -/
theorem unquote_quoted {q : UInt8} (hq : IsQuote q) (inner : Text) :
    unquote (q :: inner ++ [q]) = inner := by
  have hmarks : enclosedBy 34 (q :: inner ++ [q]) || enclosedBy 39 (q :: inner ++ [q]) := by
    rw [Bool.or_eq_true, enclosedBy_iff, enclosedBy_iff]
    rcases hq with rfl | rfl
    · exact .inl ⟨inner, rfl⟩
    · exact .inr ⟨inner, rfl⟩
  rw [unquote, if_pos hmarks]
  simp

/-- A text without quotes around it is left as it is. -/
theorem unquote_of_forall_ne (h : ∀ q inner, IsQuote q → t ≠ q :: inner ++ [q]) :
    unquote t = t := by
  refine if_neg ?_
  rw [Bool.or_eq_true, enclosedBy_iff, enclosedBy_iff]
  rintro (⟨inner, hinner⟩ | ⟨inner, hinner⟩)
  · exact h 34 inner (.inl rfl) hinner
  · exact h 39 inner (.inr rfl) hinner

theorem unquote_eq_iff : unquote t = value ↔ Unquotes t value := by
  by_cases ht : ∃ q inner, IsQuote q ∧ t = q :: inner ++ [q]
  · obtain ⟨q, inner, hq, rfl⟩ := ht
    rw [unquote_quoted hq]
    refine ⟨fun h => .inl ⟨q, hq, by rw [h]⟩, ?_⟩
    rintro (⟨q', -, h⟩ | ⟨-, h⟩)
    · obtain ⟨-, h⟩ := List.cons.inj h
      exact List.append_inj_left' h rfl
    · exact absurd rfl (h q inner hq)
  · have hne : ∀ q inner, IsQuote q → t ≠ q :: inner ++ [q] :=
      fun q inner hq h => ht ⟨q, inner, hq, h⟩
    rw [unquote_of_forall_ne hne]
    refine ⟨fun h => .inr ⟨h.symm, hne⟩, ?_⟩
    rintro (⟨q, hq, h⟩ | ⟨h, -⟩)
    · exact absurd h (hne q value hq)
    · exact h.symm

/-- There are no other bytes inside of the quotes than with them. -/
theorem Unquotes.mem {b : UInt8} (h : Unquotes t value) (hb : b ∈ value) : b ∈ t := by
  rcases h with ⟨q, -, rfl⟩ | ⟨rfl, -⟩
  · exact List.mem_append_left [q] (List.mem_cons_of_mem q hb)
  · exact hb

/-! ## Lines -/

theorem lines_cons (b : UInt8) (t : Text) : lines (b :: t) = beforeLines b (lines t) := rfl

theorem lines_append_lineFeed (rest : Text) {l : Text} (h : lineFeed ∉ l) :
    lines (l ++ lineFeed :: rest) = l :: lines rest := by
  induction l with
  | nil => simp [lines, beforeLines]
  | cons b l ih =>
    rw [List.mem_cons, not_or] at h
    rw [List.cons_append, lines_cons, ih h.2, beforeLines, if_neg (Ne.symm h.1)]

/-- There is no line feed within a line. -/
theorem lineFeed_notMem_of_mem_lines {l : Text} (h : l ∈ lines t) : lineFeed ∉ l := by
  induction t generalizing l with
  | nil => cases h
  | cons b t ih =>
    rw [lines_cons] at h
    by_cases hb : b = lineFeed
    · rw [beforeLines.eq_def, if_pos hb] at h
      rcases List.mem_cons.mp h with rfl | h
      · exact List.not_mem_nil
      · exact ih h
    · rw [beforeLines.eq_def, if_neg hb] at h
      generalize lines t = ls at h ih
      cases ls with
      | nil =>
        obtain rfl := List.mem_singleton.mp h
        exact fun hmem => hb (List.mem_singleton.mp hmem).symm
      | cons l' ls =>
        rcases List.mem_cons.mp h with rfl | h
        · rw [List.mem_cons, not_or]
          exact ⟨Ne.symm hb, ih List.mem_cons_self⟩
        · exact ih (List.mem_cons_of_mem l' h)

/-- Texts without line feeds, each with one behind it, are so many lines. -/
theorem lines_flatMap {ls : List Text} (h : ∀ l ∈ ls, lineFeed ∉ l) :
    lines (ls.flatMap fun l => l ++ [lineFeed]) = ls := by
  induction ls with
  | nil => rfl
  | cons l ls ih =>
    rw [List.forall_mem_cons] at h
    rw [List.flatMap_cons, List.append_assoc, List.singleton_append,
      lines_append_lineFeed _ h.1, ih h.2]

end Text

/-! ## Numbers -/

namespace Number

variable {t : Text} {n : Int}

/-- The number `n` stands at the front of `t`: behind white space and perhaps a sign there is at
least one digit, the digits end with the text or with something else, and the number that they spell
fits a signed word of 64 bits. -/
def Reads (t : Text) (n : Int) : Prop :=
  ∃ spaces sign digits rest : Text, t = spaces ++ (sign ++ (digits ++ rest)) ∧
    (∀ b ∈ spaces, Text.isSpace b = true) ∧
    (sign = [] ∨ sign = Text.ascii "+" ∨ sign = Text.ascii "-") ∧
    digits ≠ [] ∧ (∀ b ∈ digits, Text.isDigit b = true) ∧
    (∀ b ∈ rest.head?, Text.isDigit b = false) ∧
    n = (if sign = Text.ascii "-" then -(ofDigits digits : Int) else ofDigits digits) ∧
    least ≤ n ∧ n ≤ greatest

/-- A digit is neither white space nor a sign. -/
theorem of_isDigit {b : UInt8} (h : Text.isDigit b = true) :
    Text.isSpace b = false ∧ b ≠ 45 ∧ b ≠ 43 := by
  simp only [Text.isDigit, Text.isSpace, Bool.and_eq_true, Bool.or_eq_false_iff,
    Bool.and_eq_false_iff, decide_eq_true_eq, decide_eq_false_iff_not, beq_eq_false_iff_ne, ne_eq,
    UInt8.le_iff_toNat_le, ← UInt8.toNat_inj, UInt8.toNat_ofNat] at h ⊢
  omega

theorem ascii_plus : Text.ascii "+" = [43] := by decide

theorem ascii_minus : Text.ascii "-" = [45] := by decide

/-- What stands behind the white space at the front of a text, with its sign apart. -/
theorem sign_append {mark rest : Text} (hmark : mark = [] ∨ mark = Text.ascii "+" ∨
      mark = Text.ascii "-") (hrest : ∀ b ∈ rest.head?, Text.isDigit b = true) :
    sign (mark ++ rest) = (decide (mark = Text.ascii "-"), rest) := by
  rw [ascii_plus, ascii_minus] at hmark
  rw [ascii_minus]
  rcases hmark with rfl | rfl | rfl
  · cases rest with
    | nil => rfl
    | cons b rest =>
      obtain ⟨-, h45, h43⟩ := of_isDigit (hrest b rfl)
      simp [sign, h45, h43]
  · simp [sign]
  · simp [sign]

/-- A text with its sign taken off is the sign and what follows it. -/
theorem exists_sign (t : Text) : ∃ mark : Text,
    (mark = [] ∨ mark = Text.ascii "+" ∨ mark = Text.ascii "-") ∧
      t = mark ++ (sign t).2 ∧ (sign t).1 = decide (mark = Text.ascii "-") := by
  rw [ascii_plus, ascii_minus]
  cases t with
  | nil => exact ⟨[], by simp, rfl, rfl⟩
  | cons b t =>
    by_cases h45 : b = 45
    · exact ⟨[45], by simp, by simp [sign, h45], by simp [sign, h45]⟩
    · by_cases h43 : b = 43
      · exact ⟨[43], by simp, by simp [sign, h43], by simp [sign, h43]⟩
      · exact ⟨[], by simp, by simp [sign, h45, h43], by simp [sign, h45, h43]⟩

/-- What is read from a text stands at its front. -/
theorem reads_of_read? (h : read? t = some n) : Reads t n := by
  rw [read?, Option.filter_eq_some_iff, decide_eq_true_eq] at h
  obtain ⟨hleading, hrange⟩ := h
  simp only [leading?] at hleading
  obtain ⟨mark, hmark, hrest, hsign⟩ := exists_sign (t.dropWhile Text.isSpace)
  generalize hsigned : sign (t.dropWhile Text.isSpace) = signed at hleading hrest hsign
  obtain ⟨negative, rest⟩ := signed
  simp only at hleading hrest hsign
  split at hleading
  · cases hleading
  · next hdigits =>
    refine ⟨t.takeWhile Text.isSpace, mark, rest.takeWhile Text.isDigit,
      rest.dropWhile Text.isDigit, ?_, fun b hb => List.mem_takeWhile_imp hb, hmark,
      fun hnil => hdigits (by rw [hnil]; rfl), fun b hb => List.mem_takeWhile_imp hb,
      fun b hb => Text.eq_false_of_mem_head?_dropWhile _ hb, ?_, hrange⟩
    · rw [List.takeWhile_append_dropWhile, ← hrest, List.takeWhile_append_dropWhile]
    · rw [hsign] at hleading
      by_cases hminus : mark = Text.ascii "-"
      · simpa [hminus] using hleading.symm
      · simpa [hminus] using hleading.symm

/-- White space ends where the sign of a number stands, or its first digit. -/
theorem isSpace_of_mem_head? {mark digits : Text} {b : UInt8} (hmark : mark = [] ∨
      mark = Text.ascii "+" ∨ mark = Text.ascii "-")
    (hdigits : ∀ d ∈ digits.head?, Text.isDigit d = true) (hb : b ∈ (mark ++ digits).head?) :
    Text.isSpace b = false := by
  rcases hmark with rfl | rfl | rfl
  · exact (of_isDigit (hdigits b hb)).1
  · obtain rfl := Option.some.inj hb
    decide
  · obtain rfl := Option.some.inj hb
    decide

/-- What stands at the front of a text is read from it. -/
theorem Reads.read?_eq (h : Reads t n) : read? t = some n := by
  obtain ⟨spaces, mark, digits, rest, rfl, hspaces, hmark, hne, hdigits, hrest, hn, hrange⟩ := h
  rw [read?, Option.filter_eq_some_iff, decide_eq_true_eq]
  refine ⟨?_, hrange⟩
  obtain ⟨d, ds, rfl⟩ := List.exists_cons_of_ne_nil hne
  have hhead : ∀ b ∈ (d :: ds ++ rest).head?, Text.isDigit b = true :=
    fun b hb => Option.some.inj hb ▸ hdigits d List.mem_cons_self
  have hdrop : (spaces ++ (mark ++ (d :: ds ++ rest))).dropWhile Text.isSpace =
      mark ++ (d :: ds ++ rest) :=
    Text.dropWhile_append_eq hspaces fun b hb => isSpace_of_mem_head? hmark hhead hb
  have hsign : sign (mark ++ (d :: ds ++ rest)) =
      (decide (mark = Text.ascii "-"), d :: ds ++ rest) := sign_append hmark hhead
  have htake : (d :: ds ++ rest).takeWhile Text.isDigit = d :: ds :=
    Text.takeWhile_append_eq hdigits hrest
  simp only [leading?, hdrop, hsign, htake, hn]
  by_cases hminus : mark = Text.ascii "-" <;> simp [hminus]

theorem read?_eq_some_iff : read? t = some n ↔ Reads t n := ⟨reads_of_read?, Reads.read?_eq⟩

/-- There is at most one number at the front of a text. -/
theorem Reads.unique {n' : Int} (h : Reads t n) (h' : Reads t n') : n = n' := by
  rw [← read?_eq_some_iff] at h h'
  exact Option.some.inj (h.symm.trans h')

theorem read?_eq_none_iff : read? t = none ↔ ∀ n, ¬ Reads t n := by
  simp [Option.eq_none_iff_forall_ne_some, read?_eq_some_iff]

/-! ### Numbers in decimal -/

theorem mem_toDigits {m : ℕ} {c : Char} (h : c ∈ Nat.toDigits 10 m) :
    48 ≤ c.toNat ∧ c.toNat ≤ 57 := by
  have hdigit := Nat.isDigit_of_mem_toDigits (by decide) (Nat.le_refl 10) h
  simp only [Char.isDigit, Bool.and_eq_true, decide_eq_true_eq, UInt32.le_iff_toNat_le] at hdigit
  exact hdigit

theorem isBlank_of_isDigit {b : UInt8} (h : Text.isDigit b = true) : Text.isBlank b = false := by
  have hspace := (of_isDigit h).1
  simp only [Text.isSpace, Text.isBlank, Bool.or_eq_false_iff, Bool.and_eq_false_iff,
    decide_eq_false_iff_not, beq_eq_false_iff_ne, ne_eq, UInt8.le_iff_toNat_le,
    ← UInt8.toNat_inj, UInt8.toNat_ofNat] at hspace ⊢
  omega

/-- A decimal digit is a single byte. -/
theorem toNat_ofNat_of_mem_toDigits {m : ℕ} {c : Char} (h : c ∈ Nat.toDigits 10 m) :
    (UInt8.ofNat c.toNat).toNat = c.toNat := by
  have hrange := mem_toDigits h
  exact UInt8.toNat_ofNat_of_lt' (show c.toNat < 256 by omega)

/-- The bytes of a number in decimal are digits. -/
theorem isDigit_of_mem_decimal {m : ℕ} {b : UInt8} (h : b ∈ Text.decimal m) :
    Text.isDigit b = true := by
  obtain ⟨c, hc, rfl⟩ := List.mem_map.mp h
  simp only [Text.isDigit, Bool.and_eq_true, decide_eq_true_eq, UInt8.le_iff_toNat_le,
    toNat_ofNat_of_mem_toDigits hc]
  exact mem_toDigits hc

theorem decimal_ne_nil (m : ℕ) : Text.decimal m ≠ [] := by
  simp [Text.decimal, Nat.toDigits_ne_nil]

/-- The digits of a number spell it. -/
theorem ofDigits_decimal (m : ℕ) : ofDigits (Text.decimal m) = m := by
  refine Eq.trans ?_ Nat.ofDigitChars_ten_toDigits
  rw [ofDigits, Text.decimal, List.foldl_map, Nat.ofDigitChars]
  refine List.foldl_ext _ _ 0 fun k c hc => ?_
  rw [toNat_ofNat_of_mem_toDigits hc]
  rfl

/-- A number that is written in decimal is read again, if it fits a signed word of 64 bits. -/
theorem reads_decimal {m : ℕ} (h : (m : Int) ≤ greatest) : Reads (Text.decimal m) m := by
  refine ⟨[], [], Text.decimal m, [], by simp, by simp, .inl rfl, decimal_ne_nil m,
    fun b hb => isDigit_of_mem_decimal hb, by simp, ?_, ?_, h⟩
  · rw [ofDigits_decimal, if_neg (by decide)]
  · have : least = -9223372036854775808 := rfl
    omega

end Number
end SessionPool
