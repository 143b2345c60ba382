/-!
# Tokens of the source language

A token has a kind, a lexeme and the position of its first character. Positions count lines and
columns from 1, columns in characters; a line feed moves to column 1 of the next line.
-/

namespace ByteMachine.Source

/-- A position in a source text. -/
structure Pos where
  line : Nat := 1
  column : Nat := 1
  deriving DecidableEq, Repr, Inhabited

namespace Pos

/-- The position after a character. -/
def next (p : Pos) (c : Char) : Pos :=
  if c = '\n' then ⟨p.line + 1, 1⟩ else ⟨p.line, p.column + 1⟩

/-- The position after a run of characters. -/
def advance (p : Pos) (cs : List Char) : Pos := cs.foldl next p

/-- The `line:column` text of a position. -/
def text (p : Pos) : String := toString p.line ++ ":" ++ toString p.column

end Pos

/-- The kinds of tokens. -/
inductive TokenKind where
  | leftParen | rightParen | leftBrace | rightBrace | comma | dot | minus | plus | semicolon
  | slash | star | tilde | bang | bangEqual | equal | equalEqual | greater | greaterEqual
  | less | lessEqual | amp | ampAmp | pipe | pipePipe
  | identifier | string | number
  | kwVar | kwIf | kwElse | kwTrue | kwFalse | kwFor | kwWhile | kwFun | kwReturn | kwOut | kwIn
  | eof
  deriving DecidableEq, Repr, Inhabited

/-- The keyword a word spells, if any. -/
def TokenKind.keyword? : String → Option TokenKind
  | "var" => some .kwVar
  | "if" => some .kwIf
  | "else" => some .kwElse
  | "true" => some .kwTrue
  | "false" => some .kwFalse
  | "for" => some .kwFor
  | "while" => some .kwWhile
  | "fun" => some .kwFun
  | "return" => some .kwReturn
  | "out" => some .kwOut
  | "in" => some .kwIn
  | _ => none

/-- A token: its kind, its lexeme and where it starts. The lexeme of a string is its unescaped
contents and that of a number is decimal text. -/
structure Token where
  kind : TokenKind
  lexeme : String
  pos : Pos
  deriving DecidableEq, Repr, Inhabited

/-- What goes wrong at the start of a token. -/
inductive LexFault where
  | unterminatedString
  | unexpectedCharacter (c : Char)
  /-- A radix letter after `0` with no digit of the radix after it. -/
  | missingDigits (letter : Char)
  /-- A radix literal whose value needs more than 64 bits. -/
  | numberOverflow (text : String)
  deriving DecidableEq, Repr

/-- A lexical error: a fault at the start of a token. -/
structure LexError where
  pos : Pos
  fault : LexFault
  deriving DecidableEq, Repr

/-- The text of a lexical error. -/
def LexError.message (e : LexError) : String :=
  e.pos.text ++ ": " ++
    match e.fault with
    | .unterminatedString => "unterminated string"
    | .unexpectedCharacter c => "unexpected character '" ++ c.toString ++ "'"
    | .missingDigits p => "expected digits after '0" ++ p.toString ++ "'"
    | .numberOverflow t => "numeric literal '" ++ t ++ "' is too large"

end ByteMachine.Source
