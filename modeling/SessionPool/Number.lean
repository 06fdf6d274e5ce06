import SessionPool.Text

/-!
# Numbers at the start of a text

A number is read from the front of a text: white space, an optional sign, decimal digits.  What
follows the digits is ignored.  There is no number if there is no digit, or if the value does not
fit a signed word of 64 bits.
-/

namespace SessionPool
namespace Number

/-- How many values a 64-bit word has: two to the power of 64. -/
def wordValues : Nat := 18446744073709551616

/-- The least value of a signed 64-bit word. -/
def least : Int := -9223372036854775808

/-- The greatest value of a signed 64-bit word. -/
def greatest : Int := 9223372036854775807

/-- The value of a sequence of decimal digits, most significant first. -/
def ofDigits (ds : Text) : Nat := ds.foldl (fun n d => 10 * n + (d.toNat - 48)) 0

/-- The sign before a number, and what follows it. -/
def sign : Text → Bool × Text
  | [] => (false, [])
  | b :: t => if b = 45 then (true, t) else if b = 43 then (false, t) else (false, b :: t)

/-- The number at the front of a text, whatever its size. -/
def leading? (t : Text) : Option Int :=
  let (negative, rest) := sign (t.dropWhile Text.isSpace)
  let digits := rest.takeWhile Text.isDigit
  if digits.isEmpty then none
  else if negative then some (-(ofDigits digits : Int))
  else some (ofDigits digits)

/-- The number at the front of a text, if it fits a signed word of 64 bits. -/
def read? (t : Text) : Option Int :=
  (leading? t).filter fun n => decide (least ≤ n ∧ n ≤ greatest)

/-- A number that was read fits a signed 64-bit word. -/
theorem read?_range {t : Text} {n : Int} (h : read? t = some n) : least ≤ n ∧ n ≤ greatest := by
  rw [read?, Option.filter_eq_some_iff] at h
  exact of_decide_eq_true h.2

end Number
end SessionPool
