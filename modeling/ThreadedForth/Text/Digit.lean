/-!
# Digits

Two classes of characters are called digits.  The *decimal* digits come in runs
of ten, one run for each script, and each has a value from zero to nine: they may
spell a number.  The *typographic* digits (superscripts, subscripts, circled and
parenthesised digits, the digits of a few historic scripts) look like digits and
have no place in a number.  A word that has a digit of either class is a candidate
for a number; only decimal digits make it one.
-/

namespace ThreadedForth
namespace Text

/-- The zero of every run of ten decimal digits. -/
def decimalZeros : List Nat :=
  [
    0x30, 0x660, 0x6F0, 0x7C0, 0x966, 0x9E6, 0xA66, 0xAE6, 0xB66, 0xBE6, 0xC66, 0xCE6,
    0xD66, 0xDE6, 0xE50, 0xED0, 0xF20, 0x1040, 0x1090, 0x17E0, 0x1810, 0x1946, 0x19D0,
    0x1A80, 0x1A90, 0x1B50, 0x1BB0, 0x1C40, 0x1C50, 0xA620, 0xA8D0, 0xA900, 0xA9D0, 0xA9F0,
    0xAA50, 0xABF0, 0xFF10, 0x104A0, 0x10D30, 0x11066, 0x110F0, 0x11136, 0x111D0, 0x112F0,
    0x11450, 0x114D0, 0x11650, 0x116C0, 0x11730, 0x118E0, 0x11950, 0x11C50, 0x11D50,
    0x11DA0, 0x16A60, 0x16AC0, 0x16B50, 0x1D7CE, 0x1D7D8, 0x1D7E2, 0x1D7EC, 0x1D7F6,
    0x1E140, 0x1E2F0, 0x1E950, 0x1FBF0
  ]

/-- The first and the last character of every run of typographic digits. -/
def typographicDigits : List (Nat × Nat) :=
  [
    (0xB2, 0xB3), (0xB9, 0xB9), (0x1369, 0x1371), (0x19DA, 0x19DA), (0x2070, 0x2070),
    (0x2074, 0x2079), (0x2080, 0x2089), (0x2460, 0x2468), (0x2474, 0x247C),
    (0x2488, 0x2490), (0x24EA, 0x24EA), (0x24F5, 0x24FD), (0x24FF, 0x24FF),
    (0x2776, 0x277E), (0x2780, 0x2788), (0x278A, 0x2792), (0x10A40, 0x10A43),
    (0x10E60, 0x10E68), (0x11052, 0x1105A), (0x1F100, 0x1F10A)
  ]

/-- Whether a code point lies between two others, both ends included. -/
def inRange (first last n : Nat) : Bool := !decide (n < first) && decide (n ≤ last)

/-- The value of a decimal digit of any script. -/
def decimalDigit? (c : Char) : Option Nat :=
  (decimalZeros.find? fun start => inRange start (start + 9) c.toNat).map
    fun start => c.toNat - start

/-- Whether a character is a digit of either class. -/
def isDigit (c : Char) : Bool :=
  (decimalDigit? c).isSome
    || typographicDigits.any fun run => inRange run.1 run.2 c.toNat

/-- The value of a digit in a base up to sixteen: a decimal digit of any script,
or one of the six Latin letters in either case. -/
def baseDigit? (base : Nat) (c : Char) : Option Nat :=
  let value :=
    match decimalDigit? c with
    | some d => some d
    | none =>
      if inRange 0x61 0x66 c.toNat then some (c.toNat - 0x61 + 10)
      else if inRange 0x41 0x46 c.toNat then some (c.toNat - 0x41 + 10)
      else none
  value.filter (· < base)

/-- The value of a decimal digit is below ten. -/
theorem decimalDigit?_lt {c : Char} {d : Nat} (h : decimalDigit? c = some d) : d < 10 := by
  unfold decimalDigit? at h
  obtain ⟨start, hstart, rfl⟩ := Option.map_eq_some_iff.1 h
  have := List.find?_some hstart
  simp only [inRange, Bool.and_eq_true, decide_eq_true_eq] at this
  omega

/-- The decimal digits of ASCII have their usual values. -/
theorem decimalDigit?_ascii (d : Fin 10) : decimalDigit? (Char.ofNat (0x30 + d)) = some d.val := by
  revert d
  decide

/-- The value of a digit in a base is below the base. -/
theorem baseDigit?_lt {base : Nat} {c : Char} {d : Nat} (h : baseDigit? base c = some d) :
    d < base := by
  unfold baseDigit? at h
  simpa using (Option.filter_eq_some_iff.1 h).2

end Text
end ThreadedForth
