namespace LayeredConfig
namespace Text

/-!
The lines of a text.  A line ends at a line feed, which may have one carriage
return before it; a carriage return alone ends no line.  The text after the
last line feed is a line only when it is not empty.
-/

def lines : List Char → List (List Char)
  | [] => []
  | '\n' :: rest => [] :: lines rest
  | '\r' :: '\n' :: rest => [] :: lines rest
  | c :: rest =>
      match lines rest with
      | [] => [[c]]
      | line :: more => (c :: line) :: more

end Text
end LayeredConfig
