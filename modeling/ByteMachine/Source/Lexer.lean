import ByteMachine.Source.Token
import ByteMachine.Text.Numeral
/-!
# The lexer

The lexer reads tokens from the front of the text. Spaces, tabs, carriage returns and line feeds
separate tokens, and `//` starts a comment that runs to the end of its line. Two-character
operators are read before one-character ones. A number is decimal digits with an optional
fraction, the point belonging to it only when a digit follows; or `0x`, `0o` or `0b` in either
case followed by digits of that radix, whose lexeme is the value in decimal. A string runs
between double quotes, and a backslash makes the next character part of it.
-/

namespace ByteMachine.Source

/-- An ASCII decimal digit. -/
def isDigit (c : Char) : Bool := '0' ≤ c && c ≤ '9'

/-- A character that can start a name: an ASCII letter or underscore. -/
def isNameStart (c : Char) : Bool := c.isAlpha || c == '_'

/-- A character that can continue a name: an ASCII letter, digit or underscore. -/
def isNameChar (c : Char) : Bool := c.isAlphanum || c == '_'

/-- A character that only separates tokens. -/
def isSpace (c : Char) : Bool := c == ' ' || c == '\r' || c == '\t' || c == '\n'

/-- The token of a one-character operator or punctuation mark. -/
def singleKind? : Char → Option TokenKind
  | '(' => some .leftParen
  | ')' => some .rightParen
  | '{' => some .leftBrace
  | '}' => some .rightBrace
  | ',' => some .comma
  | '.' => some .dot
  | '-' => some .minus
  | '+' => some .plus
  | ';' => some .semicolon
  | '*' => some .star
  | '~' => some .tilde
  | '!' => some .bang
  | '=' => some .equal
  | '<' => some .less
  | '>' => some .greater
  | '&' => some .amp
  | '|' => some .pipe
  | '/' => some .slash
  | _ => none

/-- The token of a two-character operator. -/
def pairKind? : Char → Char → Option TokenKind
  | '!', '=' => some .bangEqual
  | '=', '=' => some .equalEqual
  | '<', '=' => some .lessEqual
  | '>', '=' => some .greaterEqual
  | '&', '&' => some .ampAmp
  | '|', '|' => some .pipePipe
  | _, _ => none

/-- The radix a letter after `0` selects. -/
def radixOf? : Char → Option Nat
  | 'x' => some 16
  | 'o' => some 8
  | 'b' => some 2
  | _ => none

/-- The contents of a string after its opening quote, unescaped, and how many characters it
takes up to and including the closing quote; `none` when the text ends first. -/
def stringBody : List Char → Option (List Char × Nat)
  | [] => none
  | '"' :: _ => some ([], 1)
  | '\\' :: c :: rest => (stringBody rest).map fun (v, k) => (c :: v, k + 2)
  | c :: rest => if c = '\\' then none else (stringBody rest).map fun (v, k) => (c :: v, k + 1)

/-- A decimal literal after its first digit `c`: its text and how many more characters it takes. -/
def decimalAfter (c : Char) (rest : List Char) : String × Nat :=
  let ds := rest.takeWhile isDigit
  match rest.drop ds.length with
  | '.' :: d :: more =>
    if isDigit d then
      let fs := (d :: more).takeWhile isDigit
      (String.ofList (c :: ds ++ '.' :: fs), ds.length + 1 + fs.length)
    else (String.ofList (c :: ds), ds.length)
  | _ => (String.ofList (c :: ds), ds.length)

/-- A number after its first digit `c`: its lexeme and how many more characters it takes. -/
def numberAfter (c : Char) (rest : List Char) : Except LexFault (String × Nat) :=
  match c, rest with
  | '0', p :: more =>
    match radixOf? p.toLower with
    | some radix =>
      let ds := more.takeWhile fun d => (Text.digitValue radix d).isSome
      match Text.digitsValue radix ds with
      | none => .error (.missingDigits p.toLower)
      | some v =>
        if v < 18446744073709551616 then .ok (toString v, 1 + ds.length)
        else .error (.numberOverflow (String.ofList ('0' :: p.toLower :: ds)))
    | none => .ok (decimalAfter c rest)
  | _, _ => .ok (decimalAfter c rest)

/-- What the text `c :: rest` starts with: a token's kind and lexeme, or nothing for blanks and
comments, and how many characters of `rest` it takes after `c`. -/
def readToken (c : Char) (rest : List Char) : Except LexFault (Option (TokenKind × String) × Nat) :=
  if isSpace c then .ok (none, 0)
  else match c, rest with
    | '/', '/' :: more => .ok (none, 1 + (more.takeWhile (· ≠ '\n')).length)
    | '"', _ =>
      match stringBody rest with
      | some (v, k) => .ok (some (.string, String.ofList v), k)
      | none => .error .unterminatedString
    | _, d :: _ =>
      match pairKind? c d with
      | some kind => .ok (some (kind, String.ofList [c, d]), 1)
      | none => single
    | _, [] => single
where
  /-- A token that starts with `c` and is no two-character operator. -/
  single : Except LexFault (Option (TokenKind × String) × Nat) :=
    match singleKind? c with
    | some kind => .ok (some (kind, c.toString), 0)
    | none =>
      if isDigit c then
        (fun (text, k) => (some (.number, text), k)) <$> numberAfter c rest
      else if isNameStart c then
        let w := rest.takeWhile isNameChar
        let word := String.ofList (c :: w)
        .ok (some ((TokenKind.keyword? word).getD .identifier, word), w.length)
      else .error (.unexpectedCharacter c)

/-- Reads the tokens of a text that starts at `p`, after the tokens `done`; the last token is
the end of input, at the position after the last character. -/
def scanFrom (p : Pos) (done : Array Token) : List Char → Except LexError (List Token)
  | [] => .ok (done.push ⟨.eof, "", p⟩).toList
  | c :: rest =>
    match readToken c rest with
    | .error fault => .error ⟨p, fault⟩
    | .ok (tok, k) =>
      let done := match tok with
        | some (kind, lexeme) => done.push ⟨kind, lexeme, p⟩
        | none => done
      scanFrom (p.advance (c :: rest.take k)) done (rest.drop k)
termination_by cs => cs.length
decreasing_by simp only [List.length_drop, List.length_cons]; omega

/-- The tokens of a source text, ending with the end-of-input token. -/
def tokenize (source : String) : Except LexError (List Token) :=
  scanFrom {} #[] source.toList

end ByteMachine.Source
