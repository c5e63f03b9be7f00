import ThreadedForth.Source.Lexeme
import ThreadedForth.Source.Token

/-!
# From source text to tokens

A quoted lexeme is a text.  A bare lexeme is a number if it is a numeral, and the
name of a word otherwise, with one exception: the colon begins a definition.  The
lexeme after it, quoted or bare, is the name to be defined, and becomes the text of
the name followed by the word `define`.  A text may not end between the two.
-/

namespace ThreadedForth
namespace Token

/-- The token of a bare lexeme that neither begins a definition nor names one. -/
def ofBare (content : List Char) : Token :=
  match Number.Numeral.read content with
  | .ok number => datum (Value.ofScalar number)
  | .error _ => word (String.ofList content)

/-- The token of a text. -/
def ofText (content : List Char) : Token := batch [.text (String.ofList content)]

/-- The tokens of lexemes.  `naming` says whether the first of them is the name of a
definition. -/
def ofLexemes : (naming : Bool) → List Lexeme → Except Fault (List Token)
  | true, [] => .error .nameMissing
  | false, [] => .ok []
  | true, lexeme :: rest => do
    let tokens ← ofLexemes false rest
    return ofText lexeme.content :: word "define" :: tokens
  | false, .quoted content :: rest => do
    let tokens ← ofLexemes false rest
    return ofText content :: tokens
  | false, .bare content :: rest =>
    if content = [':'] then ofLexemes true rest
    else do
      let tokens ← ofLexemes false rest
      return ofBare content :: tokens

/-- The tokens of a source text. -/
def tokenize (source : String) : Except Fault (List Token) :=
  ofLexemes false (Lexeme.scan source.toList)

end Token
end ThreadedForth
