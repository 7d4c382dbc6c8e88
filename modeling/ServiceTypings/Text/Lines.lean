/-! A line ends at a line feed, or at a carriage return and a line feed together; the last line needs no
end of its own. So a text that ends in a line feed has as many lines as line feeds, and a carriage return
elsewhere is part of its line. -/

namespace ServiceTypings.Text

/-- The line without the carriage return that belongs to its end. -/
def dropReturn (line : List Char) : List Char :=
  if line.getLast? = some '\r' then line.dropLast else line

/-- The last of the pieces between line feeds is a line only if it holds something. -/
def closeLines : List (List Char) → List (List Char)
  | [] => []
  | [final] => if final.isEmpty then [] else [final]
  | piece :: pieces => dropReturn piece :: closeLines pieces

def lines (text : String) : List String :=
  (closeLines (text.toList.splitOn '\n')).map String.ofList

end ServiceTypings.Text
