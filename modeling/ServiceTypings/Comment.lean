import ServiceTypings.Text.Blank
import ServiceTypings.Text.Lines

/-! Comments are filled line by line: the words of a line are set with one space between them, and a new
entry begins where the next word would not fit. A word is never split, a blank line is an empty entry, and
a comment without words has no entries. Widths count the bytes of UTF-8. -/

namespace ServiceTypings.Comment

/-- Goes on with `entry` as long as the next word fits. -/
def fill (width : Nat) (entry : String) : List String → List String
  | [] => [entry]
  | word :: rest =>
    if entry.utf8ByteSize + 1 + word.utf8ByteSize > width then entry :: fill width word rest
    else fill width (entry ++ " " ++ word) rest

def fillLine (width : Nat) (line : String) : List String :=
  match Text.words line with
  | [] => [""]
  | word :: rest => fill width word rest

def wrap (width : Nat) (text : String) : List String :=
  if Text.words text = [] then [] else (Text.lines text).flatMap (fillLine width)

end ServiceTypings.Comment
