import MiniPascal.Source.Alphabet
import MiniPascal.Source.Excerpt
import MiniPascal.Source.Reader
import MiniPascal.Token.Basic

/-! # The lexer

A lexer takes one token after the other from a text. Blanks and comments in braces separate
tokens; a comment runs to its first closing brace, or to the end without one. A character that
starts no token is reported once and left behind, so the next step goes on after it. The end of
the text is a token of its own, and once it has been reached it is the answer of every further
step. -/
set_option autoImplicit false
namespace MiniPascal

/-- A character that starts no token, and where it stands. -/
structure LexError where
  position : Position
  character : Char
deriving DecidableEq

def LexError.message (source : String) (error : LexError) : String :=
  error.position.shown ++ " Unknown character '" ++ error.character.toString ++ "'\n"
    ++ excerpt source error.position

namespace Reader

/-- The token of the given kind whose text lies between two places. -/
def token (kind : TokenKind) (start stop : Reader) : Token :=
  ⟨kind, start.textUpTo stop, start.position⟩

/-- Takes the rest of a number whose first digit has been taken. A dot belongs to the number only
if a digit follows the dot, so the dot that ends a program never does. -/
def number (reader : Reader) : TokenKind × Reader :=
  let whole := reader.skipWhile Alphabet.isDigit
  match whole.peek with
  | (none, reader) => (.integerConst, reader)
  | (some c, reader) =>
    if c = '.' then
      match reader.peekSecond with
      | (none, reader) => (.integerConst, reader)
      | (some d, reader) =>
        if Alphabet.isDigit d then (.realConst, reader.next.2.skipWhile Alphabet.isDigit)
        else (.integerConst, reader)
    else (.integerConst, reader)

/-- The token that begins at `start` with the character `c`; `reader` stands behind that
character. -/
def lexeme (start : Reader) (c : Char) (reader : Reader) : Except LexError Token × Reader :=
  match TokenKind.ofSymbol? c with
  | some kind => (.ok (token kind start reader), reader)
  | none =>
    if c = ':' then
      match reader.accept '=' with
      | (true, reader) => (.ok (token .assign start reader), reader)
      | (false, reader) => (.ok (token .colon start reader), reader)
    else if Alphabet.isDigit c then
      match reader.number with
      | (kind, reader) => (.ok (token kind start reader), reader)
    else if Alphabet.isLetter c then
      let reader := reader.skipWhile Alphabet.isWordChar
      let word := token .identifier start reader
      (.ok { word with kind := TokenKind.ofWord word.text }, reader)
    else (.error ⟨start.position, c⟩, reader)

/-- `scan` for a reader with at most as many characters left as the list is long. -/
def scanWithin : List Char → Reader → Except LexError Token × Reader
  | [], reader => (.ok (token .endOfFile reader reader), reader)
  | _ :: bound, reader =>
    let start := reader.skipWhile Alphabet.isBlank
    match start.next with
    | (none, reader) => (.ok (token .endOfFile start reader), reader)
    | (some c, reader) =>
      if c = '\x7b' then scanWithin bound (reader.skipPast '\x7d')
      else lexeme start c reader

/-- Skips blanks and comments and takes what follows: a token, an unknown character, or the end
of the text. -/
def scan (reader : Reader) : Except LexError Token × Reader :=
  scanWithin reader.remaining reader

end Reader

/-- A text, the place reached in it, and the last token taken, if any. -/
structure Lexer where
  source : String
  reader : Reader
  current : Option Token
deriving DecidableEq

namespace Lexer

def ofString (source : String) : Lexer :=
  ⟨source, Reader.ofString source, none⟩

/-- Takes the next token without regard to what was taken before. A failure leaves the last
token in place. -/
def scan (lexer : Lexer) : Except LexError Token × Lexer :=
  match lexer.reader.scan with
  | (.ok token, reader) => (.ok token, { lexer with reader := reader, current := some token })
  | (.error error, reader) => (.error error, { lexer with reader := reader })

/-- Takes the next token. The end of the text is never left again. -/
def advance (lexer : Lexer) : Except LexError Token × Lexer :=
  match lexer.current with
  | some token => if token.kind = .endOfFile then (.ok token, lexer) else lexer.scan
  | none => lexer.scan

/-- `outcomesFrom` for a lexer with at most as many characters left as the list is long. -/
def outcomesWithin : List Char → Lexer → List (Except LexError Token)
  | [], lexer => [lexer.advance.1]
  | _ :: bound, lexer =>
    match lexer.advance with
    | (.ok token, lexer) =>
      if token.kind = .endOfFile then [.ok token] else .ok token :: outcomesWithin bound lexer
    | (.error error, lexer) => .error error :: outcomesWithin bound lexer

/-- What repeated steps yield, up to and including the first end of file. -/
def outcomesFrom (lexer : Lexer) : List (Except LexError Token) :=
  outcomesWithin lexer.reader.remaining lexer

def outcomes (source : String) : List (Except LexError Token) :=
  outcomesFrom (ofString source)

end Lexer
end MiniPascal
