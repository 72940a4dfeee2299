import LayeredConfig.CommandLine

/-!
The program: read the variables and files that an invocation may need, carry it
out and print what came of it.
-/

namespace LayeredConfig
namespace CommandLine

/-- The variables that stand in for parameters. -/
def readVariables : IO (KeyedList String String) := do
  let names := (globals ++ adjustments).filterMap Parameter.standIn
  names.foldlM (fun known name => do
    match ← IO.getEnv name with
    | none => return known
    | some value => return known.insert name value) KeyedList.empty

/-- The file at a path, or the directory with what it holds, down to some depth. -/
def readTree (path : String) : (depth : Nat) → IO (Option Resource.FileTree)
  | 0 => return none
  | depth + 1 => do
      try
        return some (.file (← IO.FS.readBinFile path))
      catch _ =>
        try
          let entries ← (← IO.FS.realPath path).readDir
          let found ← entries.toList.filterMapM fun entry => do
            return (← readTree entry.path.toString depth).map fun tree => (entry.fileName, tree)
          return some (.directory found)
        catch _ => return none

/-- Add what a path leads to. -/
def addTree (system : Resource.FileSystem) (path : String) : IO Resource.FileSystem := do
  if (system.find? path).isSome then return system
  match ← readTree path 32 with
  | none => return system
  | some tree =>
      let real := Resource.Path.names (← IO.FS.realPath path).toString
      return { system with root := system.root.graft tree (real.filter (· ≠ "")) }

/-- The files below the current directory. -/
def readCurrent : IO Resource.FileSystem := do
  let here := Resource.Path.names (← IO.currentDir).toString
  addTree { root := .directory [], workingDirectory := here.filter (· ≠ "") } "."

/-- Say why the arguments are refused. -/
def explain : Refusal → String
  | .repeated => "a parameter is given more than once"
  | .valueUnneeded => "a value is given to a flag"
  | .valueMissing => "a value is missing"
  | .valueRejected => "a value is not valid"
  | .unknownArgument => "an argument is not known"
  | .unknownCommand => "the command is not known"
  | .commandMissing | .nothingGiven => "a command is expected: env, resolve or help"
  | .help => "Usage: autowire [OPTIONS] <env|resolve|help> [ARGUMENTS]"
  | .version => "autowire 0.1.0"

/-- The paths that settings name. -/
def pathsOf (settings : Startup.Settings) : List String :=
  settings.projectDirectory :: settings.roots ++
    (settings.capabilityFile.toList ++ settings.catalogFiles ++ settings.metadataFiles ++
      settings.manifest.toList).map settings.resolvePath

/-- Carry out an invocation in the current directory. -/
def runHere (invocation : Invocation) : IO (Except Error Outcome) := do
  let current := (← IO.currentDir).toString
  let named := invocation.settingsFile.toList
  let system ← named.foldlM addTree (← readCurrent)
  match invocation.settings system current with
  | .error error => return .error error
  | .ok settings =>
      let whole ← (pathsOf settings).foldlM addTree system
      return run whole current invocation

end CommandLine
end LayeredConfig

open LayeredConfig.CommandLine in
/-- Run the program; the result is its exit code. -/
def main (words : List String) : IO UInt32 := do
  let surroundings ← readVariables
  match Invocation.parse surroundings.get? words with
  | .error refusal =>
      if refusal.exitCode = 0 then IO.println (explain refusal)
      else IO.eprintln (explain refusal)
      return refusal.exitCode.toUInt32
  | .ok invocation =>
      match ← runHere invocation with
      | .error error =>
          IO.eprintln ("Error: " ++ error.message)
          return 1
      | .ok outcome =>
          IO.print outcome.output
          return outcome.exitCode.toUInt32
