import LayeredConfig.Text.CommaList

namespace LayeredConfig
namespace Resource
namespace Path

/-! Paths of files, written with slashes between the names. -/

def isAbsolute (path : String) : Bool :=
  path.toList.head? = some '/'

/-- The path below `base`; an absolute path stands by itself. -/
def join (base path : String) : String :=
  if isAbsolute path || base.isEmpty then path
  else if base.toList.getLast? = some '/' then base ++ path
  else base ++ "/" ++ path

/-- The names along a path; empty ones stand for the directory they are met in. -/
def names (path : String) : List String :=
  (Text.splitAt '/' path.toList).map String.ofList

end Path
end Resource
end LayeredConfig
