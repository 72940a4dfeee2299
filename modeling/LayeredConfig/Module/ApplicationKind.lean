import LayeredConfig.Text.Blank

namespace LayeredConfig
namespace Module

/-! The kinds of applications. -/

inductive ApplicationKind where
  /-- An application that serves no web requests. -/
  | none
  /-- A web application that blocks. -/
  | servlet
  /-- A web application that does not block. -/
  | reactive
  deriving DecidableEq, Repr

namespace ApplicationKind

def name : ApplicationKind → String
  | none => "none"
  | servlet => "servlet"
  | reactive => "reactive"

/-- Read a kind in letters of any case; otherwise the text that says what is expected. -/
def parse (text : String) : Except String ApplicationKind :=
  match Text.asciiLower (Text.trim text) with
  | "none" => .ok none
  | "servlet" => .ok servlet
  | "reactive" => .ok reactive
  | other =>
      .error ("unknown application kind '" ++ other ++ "' (expected none, servlet or reactive)")

/-- The kind with exactly this name. -/
def ofName? (text : String) : Option ApplicationKind :=
  [none, servlet, reactive].find? (fun kind => kind.name = text)

end ApplicationKind
end Module
end LayeredConfig
