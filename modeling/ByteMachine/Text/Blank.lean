/-!
# Blank characters, trimming and words

Assembly lines and expectation files treat as blank exactly the characters with the Unicode
White_Space property. Trimming removes them at both ends and words are the maximal runs of
other characters.
-/

namespace ByteMachine.Text

/-- A character is blank when it has the Unicode White_Space property (25 code points). -/
def isBlank (c : Char) : Bool :=
  let n := c.toNat
  (0x09 ≤ n && n ≤ 0x0D) || n == 0x20 || n == 0x85 || n == 0xA0 || n == 0x1680 ||
    (0x2000 ≤ n && n ≤ 0x200A) || n == 0x2028 || n == 0x2029 || n == 0x202F ||
    n == 0x205F || n == 0x3000

/-- Every character that core calls whitespace is blank. -/
theorem isBlank_of_isWhitespace {c : Char} (h : c.isWhitespace = true) : isBlank c = true := by
  simp only [Char.isWhitespace, Bool.or_eq_true, decide_eq_true_eq] at h
  rcases h with ((rfl | rfl) | rfl) | rfl <;> decide

/-- Drops blank characters from the front. -/
def trimLeft (cs : List Char) : List Char := cs.dropWhile isBlank

/-- Drops blank characters from both ends. -/
def trim (cs : List Char) : List Char := (trimLeft (trimLeft cs).reverse).reverse

/-- Trims a string. -/
def trimString (s : String) : String := String.ofList (trim s.toList)

/-- Splits at every blank character; the pieces between two neighbouring blanks are empty. -/
def pieces : List Char → List (List Char)
  | [] => [[]]
  | c :: rest =>
    match pieces rest with
    | [] => [[]]
    | w :: ws => if isBlank c then [] :: w :: ws else (c :: w) :: ws

/-- Splits at runs of blank characters, dropping empty words. -/
def words (cs : List Char) : List (List Char) :=
  (pieces cs).filter (fun w => !w.isEmpty)

end ByteMachine.Text
