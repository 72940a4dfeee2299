import LayeredConfig.Environment
import LayeredConfig.Property.Keys
import LayeredConfig.Property.Loader

namespace LayeredConfig
namespace Assembly

/-!
Where configuration files are looked up.

Search locations and base names are lists in one text, the most specific entry
last; they are searched from the most specific one on.  A location that ends in
a slash is a directory, in which every base name is tried with every extension
that a loader claims.  Any other location is one file.
-/

/-- The lists in use unless properties take their place. -/
structure Search where
  locations : Option String
  names : Option String

/-- Look for documents in one resource. -/
structure Probe where
  loader : Property.Loader
  location : String
  /-- The profile that the documents are to be scoped to; nothing for documents without scope. -/
  scope : Option String

namespace Search

/-- The lists are the default ones. -/
def standard : Search where
  locations := none
  names := none

def defaultLocations : String := "classpath:/,classpath:/config/,file:./,file:./config/"

def defaultNames : String := "application"

/-- The entries of a list with resolved placeholders, the last one first and each once. -/
def entries (environment : Environment) (text : String) : Except Error (List String) :=
  (environment.resolve text).map fun resolved =>
    Names.addAll [] (Text.commaList resolved).reverse

/-- A path given by a property is one below the working directory unless it says otherwise. -/
def ofPath (path : String) : String :=
  if '$' ∈ path.toList ∨ Resource.hasScheme path then path else Resource.fileScheme ++ path

/-- The locations that a property lists; none when it is missing. -/
def ofProperty (environment : Environment) (key : String) : Except Error (List String) :=
  match environment.get? key with
  | none => .ok []
  | some text => (entries environment text).map fun paths => Names.addAll [] (paths.map ofPath)

/-- The locations to search, in that order: the additional ones and then the others. -/
def allLocations (search : Search) (environment : Environment) : Except Error (List String) := do
  let additional ← ofProperty environment Property.Keys.additionalLocations
  let others ←
    if environment.contains Property.Keys.searchLocations then
      ofProperty environment Property.Keys.searchLocations
    else entries environment (search.locations.getD defaultLocations)
  return Names.addAll additional others

/-- The base names to try in a directory, in that order. -/
def allNames (search : Search) (environment : Environment) : Except Error (List String) :=
  entries environment
    ((environment.get? Property.Keys.searchNames).getD (search.names.getD defaultNames))

/-- Keep the first of the claims to an extension, whatever the case of its letters. -/
def firstClaims (seen : List String) : List (String × Property.Loader) →
    List (String × Property.Loader)
  | [] => []
  | (extension, loader) :: rest =>
      if Text.asciiLower extension ∈ seen then firstClaims seen rest
      else (extension, loader) :: firstClaims (Text.asciiLower extension :: seen) rest

/-- The extensions to try in a directory, each with the loader that claims it. -/
def claims (loaders : List Property.Loader) : List (String × Property.Loader) :=
  firstClaims [] (loaders.flatMap fun loader =>
    loader.extensions.map fun extension => (extension, loader))

/-- The probes for one base name and extension.  A profile has a file of its own, of which it
takes the documents without scope and those scoped to it; documents scoped to it also stand in
the files of earlier profiles and in the base file. -/
def profileProbes (base extension : String) (loader : Property.Loader) (profile : Option String)
    (earlier : List String) : List Probe :=
  let file (name : String) : String := base ++ "-" ++ name ++ "." ++ extension
  let own : List Probe :=
    match profile with
    | none => []
    | some name =>
        ⟨loader, file name, none⟩ :: ⟨loader, file name, profile⟩ ::
          earlier.map fun other => ⟨loader, file other, profile⟩
  own ++ [⟨loader, base ++ "." ++ extension, profile⟩]

/-- The probes in a directory. -/
def directoryProbes (search : Search) (loaders : List Property.Loader) (environment : Environment)
    (profile : Option String) (earlier : List String) (location : String) :
    List (Except Error Probe) :=
  match search.allNames environment with
  | .error error => [.error error]
  | .ok names =>
      names.flatMap fun name =>
        (claims loaders).flatMap fun (extension, loader) =>
          (profileProbes (location ++ name) extension loader profile earlier).map .ok

/-- The probe of a file, whose extension must be claimed. -/
def fileProbe (loaders : List Property.Loader) (profile : Option String) (location : String) :
    Except Error Probe :=
  match (Resource.extension? location).bind (Property.Loader.find? loaders) with
  | some loader => .ok ⟨loader, location, profile⟩
  | none => .error (.unknownExtension location)

/-- The probes of a pass in order, with errors in the places in which they are met. -/
def probes (search : Search) (loaders : List Property.Loader) (environment : Environment)
    (profile : Option String) (earlier : List String) : List (Except Error Probe) :=
  match search.allLocations environment with
  | .error error => [.error error]
  | .ok locations =>
      locations.flatMap fun location =>
        match location.toList.getLast? with
        | some '/' => search.directoryProbes loaders environment profile earlier location
        | _ => [fileProbe loaders profile location]

end Search
end Assembly
end LayeredConfig
