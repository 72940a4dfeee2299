import LayeredConfig.CommandLine.Display
import LayeredConfig.CommandLine.Invocation

namespace LayeredConfig
namespace CommandLine

/-! Carrying out a command. -/

/-- What a command prints, and whether it found what was asked for. -/
structure Outcome where
  succeeded : Bool
  output : String

namespace Outcome

def exitCode (outcome : Outcome) : Nat :=
  if outcome.succeeded then 0 else 1

end Outcome

/-- Show one property, which may be missing. -/
def showProperty (environment : Environment) (key : String) (json : Bool) :
    Except Error Outcome := do
  let value ← environment.getResolved key
  let origin := environment.sources.origin? key
  return {
    succeeded := value.isSome
    output :=
      if json then Display.json (Display.propertyJson key value origin)
      else Display.property key value origin }

/-- Show all sources. -/
def showEnvironment (environment : Environment) (json : Bool) : Outcome where
  succeeded := true
  output :=
    if json then Display.json (Display.environmentJson environment)
    else Display.environment environment

/-- Show the modules that were chosen. -/
def showModules (result : Startup.Result) (report json : Bool) : Outcome where
  succeeded := true
  output :=
    if json then Display.json (Display.modulesJson result report)
    else Display.modules result report

/-- Carry out an invocation in a file system. -/
def run (system : Resource.FileSystem) (current : String) (invocation : Invocation) :
    Except Error Outcome := do
  let startup := Startup.ofFiles (← invocation.settings system current) system
  match invocation.command with
  | .environment none => return showEnvironment (← startup.environment) invocation.json
  | .environment (some key) => showProperty (← startup.environment) key invocation.json
  | .modules report => return showModules (← startup.run) report invocation.json

end CommandLine
end LayeredConfig
