/-!
# Lines of a text

A text is cut after every line feed. A line that ended in a line feed loses it and then at most
one carriage return just before it; the last line, which has no line feed, is kept as it stands.
A text that ends in a line feed has no empty last line, and the empty text has no lines.
-/

namespace ByteMachine.Text

/-- Drops one carriage return from the end of a line held in reverse. -/
def dropReturn : List Char → List Char
  | '\r' :: rest => rest
  | cs => cs

/-- Cuts text into lines; `current` holds the characters of the open line in reverse. -/
def linesFrom (current : List Char) : List Char → List (List Char)
  | [] => if current.isEmpty then [] else [current.reverse]
  | '\n' :: rest => (dropReturn current).reverse :: linesFrom [] rest
  | c :: rest => linesFrom (c :: current) rest

/-- The lines of a text. -/
def lines (cs : List Char) : List (List Char) := linesFrom [] cs

/-- The lines of a string, as strings. -/
def stringLines (s : String) : List String := (lines s.toList).map String.ofList

example : lines "a\r\nb\r\n\nc\r".toList = ["a".toList, "b".toList, [], "c\r".toList] := by decide
example : lines "\n".toList = [[]] ∧ lines [] = [] := by decide

end ByteMachine.Text
