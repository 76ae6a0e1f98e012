import MiniPascal.Source.Position

/-! # Tokens

A token is a kind, the text it was read from and the position of its first character. Eight words
are reserved, in capitals only; every other word is an identifier. -/
set_option autoImplicit false
namespace MiniPascal

inductive TokenKind where
  | parenthesisLeft | parenthesisRight
  | dot | comma | semicolon | colon | assign
  | plus | minus | multiply | integerDivide | realDivide
  | identifier | integerConst | realConst
  | program | var | procedure | begin | finish | integer | real
  | endOfFile
deriving DecidableEq

namespace TokenKind

def name : TokenKind → String
  | .parenthesisLeft => "LPAREN"
  | .parenthesisRight => "RPAREN"
  | .dot => "DOT"
  | .comma => "COMMA"
  | .semicolon => "SEMI"
  | .colon => "COLON"
  | .assign => "ASSIGN"
  | .plus => "PLUS"
  | .minus => "MINUS"
  | .multiply => "MUL"
  | .integerDivide => "DIV"
  | .realDivide => "REALDIV"
  | .identifier => "ID"
  | .integerConst => "INT_CONST"
  | .realConst => "REAL_CONST"
  | .program => "PROGRAM"
  | .var => "VAR"
  | .procedure => "PROCEDURE"
  | .begin => "BEGIN"
  | .finish => "END"
  | .integer => "INTEGER"
  | .real => "REAL"
  | .endOfFile => "EOF"

def logName : TokenKind → String
  | .parenthesisLeft => "ParenthesisLeft"
  | .parenthesisRight => "ParenthesisRight"
  | .dot => "Dot"
  | .comma => "Comma"
  | .semicolon => "Semicolon"
  | .colon => "Colon"
  | .assign => "Assign"
  | .plus => "Plus"
  | .minus => "Minus"
  | .multiply => "Multiply"
  | .integerDivide => "IntegerDivide"
  | .realDivide => "RealDivide"
  | .identifier => "Identifier"
  | .integerConst => "IntegerConst"
  | .realConst => "RealConst"
  | .program => "Program"
  | .var => "Var"
  | .procedure => "Procedure"
  | .begin => "Begin"
  | .finish => "End"
  | .integer => "Integer"
  | .real => "Real"
  | .endOfFile => "Eof"

/-- The kind of a character that is a token wherever it stands. -/
def ofSymbol? : Char → Option TokenKind
  | '(' => some .parenthesisLeft
  | ')' => some .parenthesisRight
  | '.' => some .dot
  | ',' => some .comma
  | ';' => some .semicolon
  | '+' => some .plus
  | '-' => some .minus
  | '*' => some .multiply
  | '/' => some .realDivide
  | _ => none

def reservedWords : List (String × TokenKind) :=
  [("PROGRAM", .program), ("VAR", .var), ("DIV", .integerDivide), ("INTEGER", .integer),
    ("REAL", .real), ("BEGIN", .begin), ("END", .finish), ("PROCEDURE", .procedure)]

/-- The kind of a word: reserved in exactly the listed spelling, an identifier otherwise. -/
def ofWord (word : String) : TokenKind :=
  (reservedWords.lookup word).getD .identifier

end TokenKind

/-- A kind, the text the token was read from, and where that text begins. -/
structure Token where
  kind : TokenKind
  text : String
  start : Position
deriving DecidableEq

namespace Token

/-- The token in front of every text, before anything has been read. -/
def initial : Token :=
  ⟨.endOfFile, "", Position.start⟩

/-- A token as it is named in messages: its text in grave accents. -/
def shown (token : Token) : String :=
  if token.kind = .endOfFile then "end of file" else "\x60" ++ token.text ++ "\x60"

end Token
end MiniPascal
