import LayeredConfig.Names
import LayeredConfig.Text.CommaList
import LayeredConfig.Text.Lines

namespace LayeredConfig
namespace Module

/-! The capabilities present in a running process. -/

structure Capabilities where
  names : List String

namespace Capabilities

def empty : Capabilities where
  names := []

def ofNames (names : List String) : Capabilities where
  names := Names.addAll [] names

/-- The names in a capability list: comma-separated on each line, up to a `#`. -/
def parse (text : String) : Capabilities :=
  ofNames ((Text.lines text.toList).flatMap fun line =>
    (Text.items (line.takeWhile (· ≠ '#'))).map String.ofList)

def contains (capabilities : Capabilities) (name : String) : Bool :=
  name ∈ capabilities.names

def insert (capabilities : Capabilities) (name : String) : Capabilities where
  names := Names.add capabilities.names name

def union (left right : Capabilities) : Capabilities where
  names := Names.addAll left.names right.names

end Capabilities
end Module
end LayeredConfig
