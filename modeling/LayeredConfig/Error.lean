import LayeredConfig.Profile.Expression
import LayeredConfig.Text.Integer

namespace LayeredConfig

/-!
Why reading a configuration or choosing modules can fail, and the text that
says so.
-/

inductive Error where
  /-- The file could not be read as text. -/
  | unreadable (path : String)
  /-- The resource was found but holds no readable configuration. -/
  | configLoad (location : String)
  /-- No loader claims the extension of an explicit file location. -/
  | unknownExtension (location : String)
  /-- A key has neither value nor fallback, or refers back to itself. -/
  | unresolvablePlaceholder (key value : String)
  | invalidProfileExpression (expression : String) (fault : Profile.Expression.Fault)
  /-- Known modules were excluded that are no candidates. -/
  | invalidExclusions (modules : List String)
  /-- `first` must follow `second`, which in turn follows `first`. -/
  | cycleDetected (first second : String)
  | invalidMetadata (module fact value : String) (fault : Text.IntegerFault)
  deriving DecidableEq, Repr

namespace Error

def message : Error → String
  | unreadable path => "IO error: " ++ path
  | configLoad location => "Failed to load property source from location '" ++ location ++ "'"
  | unknownExtension location =>
      "File extension of config file location '" ++ location ++
        "' is not known to any property source loader. " ++
        "If the location is meant to reference a directory, it must end in '/'"
  | unresolvablePlaceholder key value =>
      "Could not resolve placeholder '" ++ key ++ "' in value \"" ++ value ++ "\""
  | invalidProfileExpression expression fault =>
      "Malformed profile expression '" ++ expression ++ "': " ++ fault.message
  | invalidExclusions modules =>
      "The following modules could not be excluded because they are not " ++
        "auto-configuration candidates:\n" ++
        "\n".intercalate (modules.map (fun module => "\t- " ++ module))
  | cycleDetected first second =>
      "AutoConfigure cycle detected between " ++ first ++ " and " ++ second
  | invalidMetadata module fact value fault =>
      "Invalid metadata for '" ++ module ++ "." ++ fact ++ "': '" ++ value ++
        "' is not an integer: " ++ fault.message

end Error
end LayeredConfig
