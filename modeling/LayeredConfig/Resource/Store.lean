import LayeredConfig.KeyedList
import LayeredConfig.Resource.FileTree
import LayeredConfig.Resource.Location

namespace LayeredConfig

/-!
Resources and the stores that hold them: texts in memory under their exact
locations, or files below a working directory and below class path roots.  A
missing resource is no error.
-/

structure Resource where
  location : String
  /-- Where the resource was found. -/
  description : String
  content : String

namespace Resource

/-- The extension of the location. -/
def ending? (resource : Resource) : Option String :=
  extension? resource.location

inductive Store where
  | memory (contents : KeyedList String String)
  | files (system : FileSystem) (workingDirectory : String) (roots : List String)

namespace Store

/-- The paths at which a location may be found, in the order in which they are tried. -/
def paths (workingDirectory : String) (roots : List String) (location : String) : List String :=
  match strip? classpathScheme location with
  | some rest =>
      let relative := String.ofList (rest.toList.dropWhile (· == '/'))
      roots.map (fun root => Path.join root relative)
  | none => [Path.join workingDirectory ((strip? fileScheme location).getD location)]

/-- The resource at the first of the paths that is one of a file. -/
def firstFile (system : FileSystem) (location : String) :
    List String → Except Error (Option Resource)
  | [] => .ok none
  | path :: rest =>
      match system.bytes? path with
      | none => firstFile system location rest
      | some bytes =>
          match String.fromUTF8? bytes with
          | none => .error (.unreadable path)
          | some content => .ok (some { location, description := path, content })

/-- The resource at a location, if there is one. -/
def find (store : Store) (location : String) : Except Error (Option Resource) :=
  match store with
  | memory contents =>
      .ok ((contents.get? location).map fun content =>
        { location, description := "memory:" ++ location, content })
  | files system workingDirectory roots =>
      firstFile system location (paths workingDirectory roots location)

/-- The resources at those of the locations that have one. -/
def findAll (store : Store) (locations : List String) : Except Error (List Resource) :=
  (locations.mapM store.find).map (List.filterMap id)

/-- Every text that the store holds. -/
def texts : Store → List String
  | memory contents => contents.entries.map Prod.snd
  | files system _ _ => system.root.contents.filterMap String.fromUTF8?

theorem exists_bytes_of_firstFile {system : FileSystem} {location : String} {resource : Resource}
    {candidates : List String}
    (found : firstFile system location candidates = .ok (some resource)) :
    ∃ path bytes, system.bytes? path = some bytes ∧
      String.fromUTF8? bytes = some resource.content := by
  induction candidates with
  | nil => simp [firstFile] at found
  | cons path rest ih =>
      unfold firstFile at found
      cases held : system.bytes? path with
      | none => exact ih (by simpa only [held] using found)
      | some bytes =>
          cases decoded : String.fromUTF8? bytes with
          | none => simp [held, decoded] at found
          | some content =>
              simp only [held, decoded, Except.ok.injEq, Option.some.injEq] at found
              subst found
              exact ⟨path, bytes, held, decoded⟩

theorem mem_texts_of_find {store : Store} {location : String} {resource : Resource}
    (found : store.find location = .ok (some resource)) : resource.content ∈ store.texts := by
  cases store with
  | memory contents =>
      simp only [find, Except.ok.injEq, Option.map_eq_some_iff] at found
      obtain ⟨content, held, rfl⟩ := found
      exact List.mem_map.2 ⟨(location, content), (KeyedList.get?_eq_some_iff _ _ _).1 held, rfl⟩
  | files system workingDirectory roots =>
      obtain ⟨path, bytes, held, decoded⟩ := exists_bytes_of_firstFile found
      exact List.mem_filterMap.2 ⟨bytes, FileSystem.mem_contents_of_bytes? held, decoded⟩

end Store
end Resource
end LayeredConfig
