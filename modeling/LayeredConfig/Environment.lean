import LayeredConfig.Names
import LayeredConfig.Placeholder.Resolution
import LayeredConfig.Profile.Expression
import LayeredConfig.Property.Sources

namespace LayeredConfig

/-!
The environment: property sources in order of precedence, the active profiles
and the profiles that count while none is active.
-/

structure Environment where
  sources : Property.Sources
  active : List String
  defaults : List String
  active_nodup : active.Nodup
  defaults_nodup : defaults.Nodup

namespace Environment

/-- No sources, and the profile `default` while none is active. -/
def initial : Environment where
  sources := Property.Sources.empty
  active := []
  defaults := ["default"]
  active_nodup := by simp
  defaults_nodup := by simp

def get? (environment : Environment) (key : String) : Option String :=
  environment.sources.get? key

def contains (environment : Environment) (key : String) : Bool :=
  (environment.get? key).isSome

def list? (environment : Environment) (key : String) : Option (List String) :=
  environment.sources.list? key

/-- The property as a truth value, written `true` or `false` in letters of any case. -/
def getBool (environment : Environment) (key : String) (otherwise : Bool) : Bool :=
  match (environment.get? key).map (fun value => Text.asciiLower (Text.trim value)) with
  | some "true" => true
  | some "false" => false
  | _ => otherwise

/-- The properties as values for placeholders. -/
def lookup (environment : Environment) : Placeholder.Lookup where
  get? := environment.get?
  keys := environment.sources.keys
  covers := fun _ _ found => Property.Sources.mem_keys_of_get? found

/-- Resolve the placeholders of a text; each must have a value or a fallback. -/
def resolve (environment : Environment) (text : String) : Except Error String :=
  Placeholder.resolve environment.lookup .strict text

/-- Resolve the placeholders of a text; those without value and fallback stay as they are. -/
def resolveLenient (environment : Environment) (text : String) : Except Error String :=
  Placeholder.resolve environment.lookup .lenient text

/-- The resolved value of a property, if it is present. -/
def getResolved (environment : Environment) (key : String) : Except Error (Option String) :=
  match environment.get? key with
  | none => .ok none
  | some value => (environment.resolve value).map some

/-- The items of a list, each resolved by itself; a missing list has none. -/
def resolveItems (environment : Environment) (items : Option (List String)) :
    Except Error (List String) :=
  (items.getD []).mapM environment.resolveLenient

/-- The items of the list under a key. -/
def resolveList (environment : Environment) (key : String) : Except Error (List String) :=
  environment.resolveItems (environment.list? key)

def addFirst (environment : Environment) (source : Property.Source) : Environment :=
  { environment with sources := environment.sources.addFirst source }

def addLast (environment : Environment) (source : Property.Source) : Environment :=
  { environment with sources := environment.sources.addLast source }

/-- Make a profile active; it is not repeated. -/
def activate (environment : Environment) (profile : String) : Environment :=
  { environment with
    active := Names.add environment.active profile
    active_nodup := Names.nodup_add environment.active_nodup profile }

def setActive (environment : Environment) (profiles : List String) : Environment :=
  { environment with
    active := Names.addAll [] profiles
    active_nodup := Names.nodup_addAll (by simp) profiles }

def setDefaults (environment : Environment) (profiles : List String) : Environment :=
  { environment with
    defaults := Names.addAll [] profiles
    defaults_nodup := Names.nodup_addAll (by simp) profiles }

/-- Whether the profile is active; the defaults count only while none is. -/
def isActive (environment : Environment) (profile : String) : Bool :=
  if environment.active.isEmpty then profile ∈ environment.defaults
  else profile ∈ environment.active

/-- Whether any of the expressions holds for the active profiles. -/
def accepts (environment : Environment) (expressions : List Profile.Expression) : Bool :=
  expressions.any (fun expression => expression.holds environment.isActive)

end Environment

namespace Profile

/-- Read each text as a profile expression. -/
def parseAll (texts : List String) : Except Error (List Expression) :=
  texts.mapM fun text =>
    (Expression.parse text).mapError (Error.invalidProfileExpression text)

end Profile
end LayeredConfig
