/-!
# Texts

Host names, commands, replies, file contents and log lines are sequences of bytes.  None of them
has to be valid UTF-8 and none is ever decoded: every rule of this library that looks inside a
text (blanks, digits, letter case) looks at single bytes and knows ASCII only.  A text is therefore
the plain list of its bytes, which also makes every rule below an ordinary list function.

* `Text.ascii`, `Text.decimal`, `Text.ofInt`: writing constants and numbers;
* `Text.uptoNul`: the part of a text that survives where a zero byte ends it;
* `Text.trim`, `Text.lines`, `Text.lower`, `Text.Contains`: reading.
-/

namespace SessionPool

/-- A text is the list of its bytes. -/
abbrev Text := List UInt8

namespace Text

/-! ## Writing -/

/-- The bytes of a string of ASCII characters, one byte a character. -/
def ascii (s : String) : Text := s.toList.map fun c => UInt8.ofNat c.toNat

/-- A natural number in decimal, without leading zeros. -/
def decimal (n : Nat) : Text := (Nat.toDigits 10 n).map fun c => UInt8.ofNat c.toNat

/-- An integer in decimal; a minus sign stands before a negative one. -/
def ofInt : Int → Text
  | .ofNat n => decimal n
  | .negSucc n => ascii "-" ++ decimal (n + 1)

/-! ## Reading -/

/-- The part of a text before its first zero byte.  An error text that passes through a
zero-terminated channel is cut there. -/
def uptoNul (t : Text) : Text := t.takeWhile (· ≠ 0)

/-- The line feed, which ends a line. -/
def lineFeed : UInt8 := 10

/-- The blanks that trimming removes: space, tab, carriage return and line feed. -/
def isBlank (b : UInt8) : Bool := b == 32 || b == 9 || b == 13 || b == 10

/-- White space before a number: the blanks, vertical tab and form feed. -/
def isSpace (b : UInt8) : Bool := b == 32 || (9 ≤ b && b ≤ 13)

/-- A decimal digit. -/
def isDigit (b : UInt8) : Bool := 48 ≤ b && b ≤ 57

/-- A byte with an ASCII capital turned into its small letter; every other byte is kept. -/
def lowerByte (b : UInt8) : UInt8 := if 65 ≤ b && b ≤ 90 then b + 32 else b

/-- A text with its ASCII capitals turned into small letters. -/
def lower (t : Text) : Text := t.map lowerByte

/-- A text without the blanks at its two ends. -/
def trim (t : Text) : Text := ((t.dropWhile isBlank).reverse.dropWhile isBlank).reverse

/-- A byte before some lines: a line feed is a line of its own, any other byte joins the first
line. -/
def beforeLines (b : UInt8) (ls : List Text) : List Text :=
  if b = lineFeed then [] :: ls
  else match ls with
    | [] => [[b]]
    | l :: ls => (b :: l) :: ls

/-- The lines of a text.  A line feed ends a line; what follows the last one is a line of its own
only if it is not empty, so that a closing line feed adds nothing. -/
def lines (t : Text) : List Text := t.foldr beforeLines []

/-- `phrase` stands somewhere in `t`. -/
def Contains (t phrase : Text) : Prop := ∃ before after, t = before ++ phrase ++ after

/-- A text and a byte are the two ends of another text: it has at least two bytes and both its
first and its last are `b`. -/
def enclosedBy (b : UInt8) (t : Text) : Bool :=
  2 ≤ t.length && t.head? == some b && t.getLast? == some b

/-- A text without one pair of equal quotes, double or single, around it. -/
def unquote (t : Text) : Text :=
  if enclosedBy 34 t || enclosedBy 39 t then (t.drop 1).dropLast else t

/-! ## Small laws -/

@[simp] theorem ascii_append (s t : String) : ascii (s ++ t) = ascii s ++ ascii t := by
  simp [ascii, String.toList_append]

@[simp] theorem uptoNul_nil : uptoNul [] = [] := rfl

/-- Nothing is cut from a text that has no zero byte. -/
theorem uptoNul_of_notMem {t : Text} (h : (0 : UInt8) ∉ t) : uptoNul t = t := by
  unfold uptoNul
  induction t with
  | nil => rfl
  | cons b t ih =>
    rw [List.mem_cons, not_or] at h
    rw [List.takeWhile_cons_of_pos (by simpa using fun hb => h.1 hb.symm), ih h.2]

/-- What is left after the cut has no zero byte. -/
theorem zero_notMem_uptoNul (t : Text) : (0 : UInt8) ∉ uptoNul t := by
  unfold uptoNul
  induction t with
  | nil => simp
  | cons b t ih =>
    rw [List.takeWhile_cons]
    split
    · rename_i hb
      rw [List.mem_cons, not_or]
      exact ⟨fun h => by simp [← h] at hb, ih⟩
    · simp

/-- Cutting twice cuts nothing more. -/
@[simp] theorem uptoNul_uptoNul (t : Text) : uptoNul (uptoNul t) = uptoNul t :=
  uptoNul_of_notMem (zero_notMem_uptoNul t)

end Text
end SessionPool
