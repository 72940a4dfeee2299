namespace LayeredConfig
namespace Yaml

/-!
The tags of nodes.

A tag consists of bytes, because its escapes may spell bytes that are no text.
Tags that begin with an exclamation mark are local: they name no type of YAML.
-/

structure Tag where
  bytes : List UInt8
  deriving DecidableEq, Repr

namespace Tag

def ofText (text : String) : Tag where
  bytes := text.toList.flatMap String.utf8EncodeChar

/-- The tag that bytes spell, which ends before the first zero. -/
def ofBytes (bytes : List UInt8) : Tag where
  bytes := bytes.takeWhile (· ≠ 0)

def append (tag suffix : Tag) : Tag where
  bytes := tag.bytes ++ suffix.bytes

/-- The tag of a type of the core schema. -/
def core (type : String) : Tag :=
  ofText ("tag:yaml.org,2002:" ++ type)

def isEmpty (tag : Tag) : Bool :=
  tag.bytes.isEmpty

def isLocal (tag : Tag) : Bool :=
  tag.bytes.head? = some 0x21

/-- What follows the exclamation mark of a name, unless the mark is all of it. -/
def withoutMark (name : String) : String :=
  match name.toList with
  | '!' :: c :: rest => String.ofList (c :: rest)
  | _ => name

/-- The name of a local tag that is a text. -/
def name? (tag : Tag) : Option String :=
  if tag.isLocal then (String.fromUTF8? tag.bytes.toByteArray).map withoutMark else none

end Tag
end Yaml
end LayeredConfig
