import ThreadedForth.Text.Printable

/-!
# Quoted text

How a text is shown when it stands inside something else: between quotes, on one
line, and with nothing invisible in it.

The quotes are single ones, unless the text holds a single quote and no double
one.  The backslash and the quote in use are escaped by a backslash; newline,
carriage return and tab have their letters; any other character that is not
printable is spelled out in hexadecimal, in two, four or eight digits, whichever
is the first to hold it.
-/

namespace ThreadedForth
namespace Text

/-- The lower-case hexadecimal digits of a number, padded with zeros to at least
`width` digits. -/
def hexDigits (width n : Nat) : List Char :=
  let digits := Nat.toDigits 16 n
  List.replicate (width - digits.length) '0' ++ digits

/-- A character that is not printable, spelled out in the shortest of the three
forms that holds it. -/
def escapeCode (n : Nat) : List Char :=
  if n < 0x100 then '\\' :: 'x' :: hexDigits 2 n
  else if n < 0x10000 then '\\' :: 'u' :: hexDigits 4 n
  else '\\' :: 'U' :: hexDigits 8 n

/-- One character of a text quoted by `quote`. -/
def quoteChar (quote c : Char) : List Char :=
  if c = quote ∨ c = '\\' then ['\\', c]
  else if c = '\n' then ['\\', 'n']
  else if c = '\r' then ['\\', 'r']
  else if c = '\t' then ['\\', 't']
  else if isPrintable c then [c]
  else escapeCode c.toNat

/-- The quote a text is shown with: a double one exactly when the text holds a
single quote and no double one. -/
def quoteFor (text : List Char) : Char :=
  if text.contains '\x27' && !text.contains '"' then '"' else '\x27'

/-- A text between quotes. -/
def quoted (text : String) : String :=
  let quote := quoteFor text.toList
  String.ofList (quote :: text.toList.flatMap (quoteChar quote) ++ [quote])

end Text
end ThreadedForth
