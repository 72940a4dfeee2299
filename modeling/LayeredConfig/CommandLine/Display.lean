import LayeredConfig.Startup
import LayeredConfig.Text.Json

namespace LayeredConfig
namespace CommandLine
namespace Display

/-! What the commands print, as lines of text or as JSON. -/

/-- Lines as one text, each with its end. -/
def lines (texts : List String) : String :=
  String.join (texts.map fun text => text ++ "\n")

/-- A JSON value and the end of its last line. -/
def json (value : Text.Json) : String :=
  lines [value.pretty]

/-- The active profiles in one line. -/
def activeProfiles (environment : Environment) : String :=
  "Active profiles: [" ++ ", ".intercalate environment.active ++ "]"

/-- The sources of an environment with their properties. -/
def environment (environment : Environment) : String :=
  lines (activeProfiles environment :: "Property sources:" ::
    environment.sources.layers.flatMap fun source =>
      ("  " ++ source.name) :: source.properties.entries.map fun (key, value) =>
        "    " ++ key ++ "=" ++ value)

def environmentJson (environment : Environment) : Text.Json :=
  .record [("active_profiles", .strings environment.active),
    ("default_profiles", .strings environment.defaults),
    ("property_sources", .array (environment.sources.layers.map fun source =>
      .record [("name", .string source.name),
        ("properties", .record (source.properties.entries.map fun (key, value) =>
          (key, .string value)))]))]

/-- A property with the source that decides it. -/
def property (key : String) (value origin : Option String) : String :=
  match value, origin with
  | some value, some origin => lines [key ++ "=" ++ value ++ "  (" ++ origin ++ ")"]
  | _, _ => lines [key ++ " is not set"]

def propertyJson (key : String) (value origin : Option String) : Text.Json :=
  .record [("key", .string key), ("value", .optional value), ("source", .optional origin)]

/-- What a condition said. -/
def finding (found : Module.Finding) : String :=
  "    - " ++ found.condition ++ ": " ++ found.verdict.message

/-- Lines under a title, or the word `None`. -/
def titled (title : String) (body : List String) : List String :=
  "" :: title :: if body.isEmpty then ["  None"] else body

/-- The findings against modules, those for modules against which there are none, and the
modules on which there are none. -/
def report (report : Module.Report) : List String :=
  let positive := report.findings.entries.filter fun entry => report.isFullMatch entry.1
  titled "Negative matches:"
      (report.rejections.flatMap fun (module, found) => ["  " ++ module, finding found]) ++
    titled "Positive matches:"
      (positive.flatMap fun (module, findings) => ("  " ++ module) :: findings.map finding) ++
    (if report.unconditional.isEmpty then []
      else "" :: "Unconditional modules:" :: report.unconditional.map fun module => "  " ++ module)

def findingJson (found : Module.Finding) : Text.Json :=
  .record [("condition", .string found.condition),
    ("outcome", .record [("matched", .boolean found.verdict.holds),
      ("message", .string found.verdict.message)])]

def reportJson (report : Module.Report) : Text.Json :=
  .record [("candidates", .strings report.candidates), ("exclusions", .strings report.exclusions),
    ("outcomes", .record (report.findings.entries.map fun (module, findings) =>
      (module, .array (findings.map findingJson))))]

/-- The modules, numbered in their order, and the exclusions. -/
def modules (result : Startup.Result) (withReport : Bool) : String :=
  let chosen :=
    if result.selection.modules.isEmpty then ["No modules selected."]
    else "Modules:" :: result.selection.modules.mapIdx fun index module =>
      "  " ++ toString (index + 1) ++ ". " ++ module
  let excluded :=
    if result.selection.exclusions.isEmpty then []
    else "Exclusions:" :: result.selection.exclusions.map fun module => "  - " ++ module
  lines (activeProfiles result.environment :: chosen ++ excluded ++
    if withReport then report result.report else [])

def modulesJson (result : Startup.Result) (withReport : Bool) : Text.Json :=
  .record ([("active_profiles", .strings result.environment.active),
    ("modules", .strings result.selection.modules),
    ("exclusions", .strings result.selection.exclusions)] ++
    if withReport then [("report", reportJson result.report)] else [])

end Display
end CommandLine
end LayeredConfig
