import LayeredConfig.Module.Metadata
import LayeredConfig.Yaml.Record

namespace LayeredConfig
namespace Module

/-! Reading manifests: a list of modules with the facts of each. -/

namespace Entry

def ofNode (document : Yaml.Document) (node : Yaml.Node) : Yaml.Record.Reader Entry := do
  let found ← Yaml.Record.fields
    ["id", "requires", "before", "after", "order", "application_kind"] document node
  let texts := Yaml.Record.list Yaml.Record.text document
  return {
    id := ← Yaml.Record.required found "id" (Yaml.Record.text document)
    requires := ← Yaml.Record.optional found "requires" [] texts
    before := ← Yaml.Record.optional found "before" [] texts
    after := ← Yaml.Record.optional found "after" [] texts
    order := ← Yaml.Record.optional found "order" none
      (Yaml.Record.option Yaml.Record.int32 document)
    applicationKind := ← Yaml.Record.optional found "application_kind" none
      (Yaml.Record.option Yaml.Record.text document) }

end Entry

namespace Manifest

/-- The entries under the key `modules`. -/
def readEntries (text : String) : Except Yaml.Fault (List Entry) := do
  let document ← Yaml.Document.parseOne text
  Yaml.Record.run do
    let found ← Yaml.Record.fields ["modules"] document document.root
    Yaml.Record.optional found "modules" [] (Yaml.Record.list Entry.ofNode document)

/-- Read the manifest found at a location. -/
def parse (location text : String) : Except Error Manifest :=
  match readEntries text with
  | .ok entries => .ok (ofEntries entries)
  | .error _ => .error (.configLoad location)

end Manifest
end Module
end LayeredConfig
