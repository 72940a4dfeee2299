namespace LayeredConfig
namespace Text

/-!
Blank characters and the trimming of texts.

A character is blank when it has the Unicode property White_Space.  Texts are
trimmed as lists of characters; the functions on strings wrap those.
-/

/-- The characters with the property White_Space. -/
def isBlank (c : Char) : Bool :=
  let code := c.toNat
  (0x09 ≤ code && code ≤ 0x0D) || code == 0x20 || code == 0x85 || code == 0xA0 ||
    code == 0x1680 || (0x2000 ≤ code && code ≤ 0x200A) || code == 0x2028 || code == 0x2029 ||
    code == 0x202F || code == 0x205F || code == 0x3000

/-- The text without its leading blanks. -/
def trimLeft (cs : List Char) : List Char :=
  cs.dropWhile isBlank

/-- The text without its trailing blanks. -/
def trimRight (cs : List Char) : List Char :=
  (cs.reverse.dropWhile isBlank).reverse

/-- The text without the blanks at either end. -/
def trimBoth (cs : List Char) : List Char :=
  trimRight (trimLeft cs)

theorem length_trimLeft (cs : List Char) : (trimLeft cs).length ≤ cs.length :=
  (List.dropWhile_suffix isBlank).length_le

/-- The string without the blanks at either end. -/
def trim (s : String) : String :=
  String.ofList (trimBoth s.toList)

/-- The string with the letters `A` to `Z` made small and all else unchanged. -/
def asciiLower (s : String) : String :=
  String.ofList (s.toList.map Char.toLower)

end Text
end LayeredConfig
