/-!
# Blank characters

Everything that separates words separates them by *blanks*.  The class is the
Unicode one: the ASCII blanks, the four information separators, the next-line
control, and the space separators, line separator and paragraph separator of the
higher planes.  The zero-width space and the byte order mark are not blank.

A second, smaller class is needed once.  A numeral may be padded, and the padding
a numeral tolerates leaves the information separators out: they separate words,
yet inside a numeral they spoil it.
-/

namespace ThreadedForth
namespace Text

/-- The codes of the blanks that may pad a numeral on either side. -/
def paddingCodes : List Nat :=
  [0x09, 0x0A, 0x0B, 0x0C, 0x0D, 0x20, 0x85, 0xA0, 0x1680, 0x2000, 0x2001, 0x2002, 0x2003,
    0x2004, 0x2005, 0x2006, 0x2007, 0x2008, 0x2009, 0x200A, 0x2028, 0x2029, 0x202F, 0x205F,
    0x3000]

/-- The codes of the information separators. -/
def separatorCodes : List Nat := [0x1C, 0x1D, 0x1E, 0x1F]

/-- Whether a character may pad a numeral. -/
def isPadding (c : Char) : Bool := paddingCodes.contains c.toNat

/-- Whether a character separates words. -/
def isBlank (c : Char) : Bool := isPadding c || separatorCodes.contains c.toNat

/-- Whether a text has nothing but blanks in it.  The empty text counts. -/
def allBlank (text : List Char) : Bool := text.all isBlank

/-- A text without the characters of the class `p` at its two ends. -/
def trimBy (p : Char → Bool) (text : List Char) : List Char :=
  ((text.dropWhile p).reverse.dropWhile p).reverse

/-- What pads a numeral is a blank. -/
theorem isBlank_of_isPadding {c : Char} (h : isPadding c = true) : isBlank c = true := by
  rw [isBlank, h, Bool.true_or]

/-- The white space of ASCII is blank. -/
theorem isBlank_of_isWhitespace {c : Char} (h : c.isWhitespace = true) : isBlank c = true := by
  simp only [Char.isWhitespace, Bool.or_eq_true, decide_eq_true_eq] at h
  rcases h with ((rfl | rfl) | rfl) | rfl <;> decide

end Text
end ThreadedForth
