/-!
# Ends of lines and occurrences in a text
-/

namespace BraceScript.Text

/-- The text with every end of line written as a line feed: a carriage return counts as an end of
line, alone or before a line feed. -/
def withLineFeeds : List Char → List Char
  | [] => []
  | '\x0d' :: '\n' :: rest => '\n' :: withLineFeeds rest
  | c :: rest => (if c = '\x0d' then '\n' else c) :: withLineFeeds rest

/-- The characters of `part` stand together somewhere in a text. -/
def occurs (part : List Char) : List Char → Bool
  | [] => part.isEmpty
  | c :: rest => part.isPrefixOf (c :: rest) || occurs part rest

end BraceScript.Text
