namespace LayeredConfig
namespace Resource

/-! Locations of resources and the extensions of their names. -/

/-- The text after the last separator, or all of it when there is none. -/
def lastPiece (isSeparator : Char → Bool) (cs : List Char) : List Char :=
  (cs.reverse.takeWhile (fun c => !isSeparator c)).reverse

/-- The extension of the last name in a location, when it is not empty. -/
def extension? (location : String) : Option String :=
  let segment := lastPiece (fun c => c = '/' || c = '\\') location.toList
  let name := lastPiece (fun c => c = ':') segment
  let ending := lastPiece (fun c => c = '.') name
  bif name.contains '.' && !ending.isEmpty then some (String.ofList ending) else none

/-- The text after `start`, when the location begins with it. -/
def strip? (start location : String) : Option String :=
  if start.toList.isPrefixOf location.toList then
    some (String.ofList (location.toList.drop start.length))
  else none

/-- Whether the text holds `wanted` somewhere. -/
def mentions (wanted : List Char) : List Char → Bool
  | [] => wanted.isEmpty
  | c :: rest => wanted.isPrefixOf (c :: rest) || mentions wanted rest

/-- What locations among the class path roots begin with. -/
def classpathScheme : String := "classpath:"

/-- What locations below the working directory begin with. -/
def fileScheme : String := "file:"

/-- Whether a location says by itself where it is looked up. -/
def hasScheme (location : String) : Bool :=
  (strip? classpathScheme location).isSome || (strip? fileScheme location).isSome ||
    mentions "://".toList location.toList

end Resource
end LayeredConfig
