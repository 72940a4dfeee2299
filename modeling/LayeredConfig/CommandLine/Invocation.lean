import LayeredConfig.CommandLine.Arguments
import LayeredConfig.Startup.Settings

namespace LayeredConfig
namespace CommandLine

/-!
What the arguments of this program ask for.

Parameters of a command come before those that any command takes.  The latter
may stand before the command too; what is given after it counts more, unless
that comes from a variable only.
-/

/-- The parameters that any command takes. -/
def globals : List Parameter :=
  [{ Parameter.single "project" .path (some "AUTOWIRE_PROJECT") with short := some 'p' },
    { Parameter.single "settings" .path (some "AUTOWIRE_SETTINGS") with short := some 's' },
    Parameter.flag "debug"]

/-- The parameters that ask about the program. -/
def questions : List Parameter :=
  [{ Parameter.flag "help" with short := some 'h', action := .help },
    { Parameter.flag "version" with short := some 'V', action := .version }]

/-- The parameters that change settings. -/
def adjustments : List Parameter :=
  [Parameter.several "classpath" .path (some "AUTOWIRE_CLASSPATH"),
    Parameter.single "locations" .text (some "AUTOWIRE_CONFIG_LOCATION"),
    Parameter.single "names" .text (some "AUTOWIRE_CONFIG_NAME"),
    Parameter.several "profiles" .text (some "AUTOWIRE_PROFILES_ACTIVE"),
    Parameter.several "include-profiles" .text (some "AUTOWIRE_PROFILES_INCLUDE"),
    { Parameter.several "property" .property none with short := some 'D', divided := false },
    Parameter.several "exclude" .text (some "AUTOWIRE_EXCLUDE"),
    Parameter.several "capability" .text (some "AUTOWIRE_CAPABILITIES"),
    Parameter.single "capability-file" .path (some "AUTOWIRE_CAPABILITY_FILE"),
    Parameter.several "catalog" .path none,
    Parameter.several "metadata" .path none,
    Parameter.single "manifest" .path (some "AUTOWIRE_MANIFEST"),
    Parameter.single "application-kind" .kind (some "AUTOWIRE_APPLICATION_KIND")]

/-- The operand of the command that shows the environment. -/
def keyOperand : Parameter :=
  Parameter.single "key" .text none

/-- The grammar before any command. -/
def outer : Grammar where
  parameters := globals ++ questions
  operand := none
  commands := ["env", "resolve", "help"]

/-- The grammar of the command that shows the environment. -/
def environmentGrammar : Grammar where
  parameters := adjustments ++ [Parameter.flag "json"] ++ globals ++ questions
  operand := some keyOperand
  commands := []

/-- The grammar of the command that chooses modules. -/
def modulesGrammar : Grammar where
  parameters := adjustments ++ [Parameter.flag "report", Parameter.flag "json"] ++ globals ++ questions
  operand := none
  commands := []

namespace Givens

/-- The texts given. -/
def texts (givens : Givens) (name : String) : List String :=
  ((givens.get? name).map Given.values).getD [] |>.filterMap fun
    | .text text => some text
    | _ => none

def text? (givens : Givens) (name : String) : Option String :=
  (givens.texts name).head?

/-- The properties given. -/
def properties (givens : Givens) (name : String) : List (String × String) :=
  ((givens.get? name).map Given.values).getD [] |>.filterMap fun
    | .property key value => some (key, value)
    | _ => none

/-- The kind of application given. -/
def kind? (givens : Givens) (name : String) : Option Module.ApplicationKind :=
  (((givens.get? name).map Given.values).getD [] |>.filterMap fun
    | .kind kind => some kind
    | _ => none).head?

/-- Write the texts given, if there are any. -/
def replaceTexts (givens : Givens) (name : String) (settled : List String) : List String :=
  if (givens.texts name).isEmpty then settled else givens.texts name

/-- Change settings to what is given. -/
def adjust (givens : Givens) (settings : Startup.Settings) : Startup.Settings :=
  { settings with
    classpathRoots := givens.replaceTexts "classpath" settings.classpathRoots
    searchLocations := (givens.text? "locations").or settings.searchLocations
    searchNames := (givens.text? "names").or settings.searchNames
    activeProfiles := givens.replaceTexts "profiles" settings.activeProfiles
    includedProfiles := givens.replaceTexts "include-profiles" settings.includedProfiles
    properties := settings.properties.insertAll (givens.properties "property")
    exclusions := givens.replaceTexts "exclude" settings.exclusions
    capabilities := givens.replaceTexts "capability" settings.capabilities
    capabilityFile := (givens.text? "capability-file").or settings.capabilityFile
    catalogFiles := givens.replaceTexts "catalog" settings.catalogFiles
    metadataFiles := givens.replaceTexts "metadata" settings.metadataFiles
    manifest := (givens.text? "manifest").or settings.manifest
    applicationKind := (givens.kind? "application-kind").getD settings.applicationKind }

/-- What is given under one name before and after the command. -/
def merge (before after : Givens) (name : String) : Option Given :=
  match before.get? name, after.get? name with
  | some first, some second =>
      if first.origin = .arguments ∧ second.origin = .standIn then some first else some second
  | some first, none => some first
  | none, second => second

end Givens

/-- The commands. -/
inductive Command where
  /-- Show the environment, or one property of it. -/
  | environment (key : Option String)
  /-- Choose the modules, and perhaps show what the conditions said. -/
  | modules (report : Bool)
  deriving DecidableEq, Repr

structure Invocation where
  command : Command
  /-- Whether the output is JSON. -/
  json : Bool
  /-- The project directory. -/
  project : Option String
  /-- The path of a settings file. -/
  settingsFile : Option String
  debug : Bool
  givens : Givens

namespace Invocation

/-- Help on what the words name. -/
def helpOn : List String → Refusal
  | [] => .help
  | [word] => if outer.commands.contains word then .help else .unknownCommand
  | _ => .unknownCommand

/-- The invocation of a command by what is given before and after it. -/
def ofGivens (command : Command) (before after : Givens) : Invocation :=
  let text (name : String) : Option String :=
    (Givens.merge before after name).bind fun given => given.values.head?.bind fun
      | .text text => some text
      | _ => none
  { command
    json := after.contains "json"
    project := text "project"
    settingsFile := text "settings"
    debug := before.contains "debug" || after.contains "debug"
    givens := after }

/-- Read the arguments of the program. -/
def parse (surroundings : String → Option String) (words : List String) :
    Except Refusal Invocation := do
  let (reader, chosen) ← Reader.start.readAll outer words
  match chosen with
  | none =>
      let givens ← reader.finish outer surroundings
      throw (if givens.isEmpty then .nothingGiven else .commandMissing)
  | some (name, rest) =>
      if name = "help" then throw (helpOn rest)
      let grammar := if name = "env" then environmentGrammar else modulesGrammar
      let (inner, _) ← Reader.start.readAll grammar rest
      let after ← inner.finish grammar surroundings
      let before ← reader.finish outer surroundings
      let command : Command :=
        if name = "env" then .environment (after.text? "key")
        else .modules (after.contains "report")
      return ofGivens command before after

/-- The project directory, unless none is given. -/
def root (invocation : Invocation) (current : String) : String :=
  invocation.project.getD current

/-- The settings: those of the settings file, whose project directory is one below that of the
invocation, changed to what is given. -/
def settings (invocation : Invocation) (system : Resource.FileSystem) (current : String) :
    Except Error Startup.Settings := do
  let directory := invocation.root current
  let base ←
    match invocation.settingsFile with
    | none => pure (Startup.Settings.ofProject directory)
    | some path => do
        let read ← Startup.Settings.load system path
        pure { read with
          projectDirectory := Resource.Path.join directory read.projectDirectory }
  return invocation.givens.adjust base

end Invocation
end CommandLine
end LayeredConfig
