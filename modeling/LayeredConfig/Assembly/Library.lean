import LayeredConfig.Assembly.Search
import LayeredConfig.Document
import LayeredConfig.Resource.Store
import LayeredConfig.Traversal

namespace LayeredConfig
namespace Assembly

/-!
Libraries: the documents that probes find.

A library holds finitely many texts, so that finitely many profiles are named
in its documents, however many probes there are.
-/

structure Library where
  documents : Probe → Except Error (List Document)
  finite : ∃ names : List String, ∀ probe found, documents probe = .ok found →
    ∀ document ∈ found, document.active ⊆ names ∧ document.included ⊆ names

namespace Library

/-- Names among which are those of all profiles that documents activate or include. -/
noncomputable def names (library : Library) : List String :=
  library.finite.choose

theorem names_cover {library : Library} {probe : Probe} {found : List Document}
    (read : library.documents probe = .ok found) {document : Document} (member : document ∈ found) :
    document.active ⊆ library.names ∧ document.included ⊆ library.names :=
  library.finite.choose_spec probe found read document member

/-- What stands before the location in the name of a source. -/
def sourceOpening : String := "applicationConfig: ["

/-- The name of the source that is read from a location. -/
def sourceName (location : String) : String :=
  sourceOpening ++ location ++ "]"

/-- The documents in the resource of a probe, with placeholders resolved in `environment`.  A
missing resource has none, nor has one without extension. -/
def read (store : Resource.Store) (environment : Environment) (probe : Probe) :
    Except Error (List Document) :=
  match store.find probe.location with
  | .error _ => .error (.configLoad probe.location)
  | .ok none => .ok []
  | .ok (some resource) =>
      match resource.ending? with
      | none => .ok []
      | some _ =>
          (probe.loader.load (sourceName probe.location) resource).bind fun sources =>
            sources.mapM (Document.ofSource environment)

/-- The profiles that a table names. -/
def namesOf (environment : Environment) (table : Property.Table) : List String :=
  match Document.ofSource environment ⟨"", table⟩ with
  | .ok document => document.active ++ document.included
  | .error _ => []

/-- The profiles that are named in the texts of a store, whatever their format. -/
def namesIn (store : Resource.Store) (environment : Environment) : List String :=
  [Property.Format.lines, Property.Format.yaml].flatMap fun format =>
    store.texts.flatMap fun text =>
      match format.parse text with
      | .ok tables => tables.flatMap (namesOf environment)
      | .error _ => []

theorem subset_namesOf {environment : Environment} {source : Property.Source} {document : Document}
    (read : Document.ofSource environment source = .ok document) :
    document.active ++ document.included ⊆ namesOf environment source.properties := by
  have same : Document.ofSource environment ⟨"", source.properties⟩ =
      .ok { document with source := ⟨"", source.properties⟩ } :=
    Document.ofSource_congr (by rfl) read
  simp only [namesOf, same]
  exact List.Subset.refl _

theorem subset_namesIn {store : Resource.Store} {environment : Environment} {probe : Probe}
    {found : List Document} (opened : read store environment probe = .ok found)
    {document : Document} (member : document ∈ found) :
    document.active ++ document.included ⊆ namesIn store environment := by
  unfold read at opened
  cases located : store.find probe.location with
  | error error => simp [located] at opened
  | ok resource? =>
      cases resource? with
      | none =>
          simp only [located, Except.ok.injEq] at opened
          subst opened
          cases member
      | some resource =>
          simp only [located] at opened
          split at opened
          · cases opened
            cases member
          · cases loaded : probe.loader.load (sourceName probe.location) resource with
            | error error => simp [loaded, Except.bind] at opened
            | ok sources =>
                simp only [loaded, Except.bind] at opened
                obtain ⟨source, inside, made⟩ := Traversal.exists_of_mem_mapM opened member
                obtain ⟨tables, parsed, present⟩ :=
                  Property.Loader.exists_of_mem_load loaded inside
                refine List.Subset.trans (subset_namesOf made) fun name named => ?_
                have inFormats : probe.loader.format ∈
                    [Property.Format.lines, Property.Format.yaml] := by
                  cases probe.loader.format <;> simp
                refine List.mem_flatMap.2 ⟨_, inFormats, List.mem_flatMap.2
                  ⟨_, Resource.Store.mem_texts_of_find located, ?_⟩⟩
                simp only [parsed]
                exact List.mem_flatMap.2 ⟨_, present, named⟩

/-- The library of the texts in a store. -/
def ofStore (store : Resource.Store) (environment : Environment) : Library where
  documents := read store environment
  finite := ⟨namesIn store environment, fun _ _ opened _ member =>
    List.append_subset.1 (subset_namesIn opened member)⟩

end Library
end Assembly
end LayeredConfig
