import LayeredConfig.Proofs.Assembly.SourceNames
import LayeredConfig.Proofs.Traversal
import Mathlib.Data.List.Nodup

namespace LayeredConfig

open Property

/-!
# What a library reads

A document that is read stands at one place of one resource, and everything it
says follows from its source.  A loader thus never reads two sources of one name
from one location, and the name of one of several documents leads back to all of
them.
-/

namespace Document

/-- Everything in a document is read off its source. -/
theorem ofSource_eq_ok_iff {environment : Environment} {source : Source} {document : Document} :
    ofSource environment source = .ok document ↔
      document.source = source ∧
        environment.resolveItems (source.list? Keys.onProfile) = .ok document.scope ∧
        Profile.parseAll document.scope = .ok document.expressions ∧
        environment.resolveItems (source.list? Keys.activeProfiles) = .ok document.active ∧
        environment.resolveItems (source.list? Keys.includedProfiles) = .ok document.included := by
  unfold ofSource
  constructor
  · intro read
    cases limited : environment.resolveItems (source.list? Keys.onProfile) with
    | error error => simp [limited, bind, Except.bind] at read
    | ok scope =>
        cases parsed : Profile.parseAll scope with
        | error error => simp [limited, parsed, bind, Except.bind] at read
        | ok expressions =>
            cases activated : environment.resolveItems (source.list? Keys.activeProfiles) with
            | error error => simp [limited, parsed, activated, bind, Except.bind] at read
            | ok active =>
                cases added : environment.resolveItems (source.list? Keys.includedProfiles) with
                | error error => simp [limited, parsed, activated, added, bind, Except.bind] at read
                | ok included =>
                    simp only [limited, parsed, activated, added, bind, Except.bind, pure,
                      Except.pure, Except.ok.injEq] at read
                    subst read
                    exact ⟨rfl, rfl, parsed, rfl, rfl⟩
  · rintro ⟨rfl, limited, parsed, activated, added⟩
    simp only [limited, parsed, activated, added, bind, Except.bind, pure, Except.pure]

end Document

namespace Assembly
namespace Library

/-- What a probe finds hangs on the resource at its location only. -/
theorem read_congr {store other : Resource.Store} {probe : Probe}
    (same : other.find probe.location = store.find probe.location) (environment : Environment) :
    read other environment probe = read store environment probe := by
  unfold read
  rw [same]

/-- Of the loader a read needs the format only, and nothing of the scope of the probe. -/
theorem read_congr_format {first second : Probe} (location : first.location = second.location)
    (format : first.loader.format = second.loader.format) {store : Resource.Store}
    {environment : Environment} :
    read store environment first = read store environment second := by
  unfold read Loader.load
  rw [location, format]

/-- The sources of what is read are the tables of the resource at the location, in their order. -/
theorem exists_resource_of_read {store : Resource.Store} {environment : Environment}
    {probe : Probe} {documents : List Document}
    (opened : read store environment probe = .ok documents) (found : documents ≠ []) :
    ∃ resource tables, store.find probe.location = .ok (some resource) ∧
      probe.loader.format.parse resource.content = .ok tables ∧
      (tables.mapIdx fun index table => Source.mk (probe.loader.format.sourceName
          (sourceName probe.location) tables.length index) table).mapM
        (Document.ofSource environment) = .ok documents := by
  unfold read at opened
  cases located : store.find probe.location with
  | error error => simp [located] at opened
  | ok present =>
      cases present with
      | none =>
          simp only [located, Except.ok.injEq] at opened
          exact absurd opened.symm found
      | some resource =>
          simp only [located] at opened
          split at opened
          · exact absurd (Except.ok.inj opened).symm found
          · unfold Loader.load at opened
            cases parsed : probe.loader.format.parse resource.content with
            | error fault => simp [parsed, Except.bind] at opened
            | ok tables =>
                simp only [parsed, Except.bind] at opened
                exact ⟨resource, tables, rfl, parsed, opened⟩

/-- A document stands at an index among the tables of the resource at its location. -/
theorem exists_of_mem_read {store : Resource.Store} {environment : Environment} {probe : Probe}
    {documents : List Document} (opened : read store environment probe = .ok documents)
    {document : Document} (member : document ∈ documents) :
    ∃ resource tables index, ∃ inside : index < tables.length,
      store.find probe.location = .ok (some resource) ∧
        probe.loader.format.parse resource.content = .ok tables ∧
        document.source = ⟨probe.loader.format.sourceName (sourceName probe.location)
          tables.length index, tables[index]⟩ ∧
        Document.ofSource environment document.source = .ok document := by
  rcases exists_resource_of_read opened (List.ne_nil_of_mem member) with
    ⟨resource, tables, found, parsed, made⟩
  rcases Traversal.exists_of_mem_mapM made member with ⟨source, listed, read⟩
  rcases List.mem_mapIdx.mp listed with ⟨index, inside, rfl⟩
  have same := (Document.ofSource_eq_ok_iff.mp read).1
  exact ⟨resource, tables, index, inside, found, parsed, same, same ▸ read⟩

theorem ofSource_of_mem_read {store : Resource.Store} {environment : Environment} {probe : Probe}
    {documents : List Document} (opened : read store environment probe = .ok documents)
    {document : Document} (member : document ∈ documents) :
    Document.ofSource environment document.source = .ok document := by
  rcases exists_of_mem_read opened member with ⟨_, _, _, _, _, _, _, made⟩
  exact made

/-- The lines of a text make at most one table. -/
theorem length_parse_lines {text : String} {tables : List Table}
    (parsed : Format.lines.parse text = .ok tables) : tables.length ≤ 1 := by
  simp only [Format.parse, Except.ok.injEq] at parsed
  rw [← parsed]
  exact List.length_filter_le _ _

/-- Among the tables of one text the name of a source tells the index. -/
theorem index_eq_of_formatName {format : Format} {text : String} {tables : List Table}
    (parsed : format.parse text = .ok tables) {location : String} {first second : Nat}
    (firstInside : first < tables.length) (secondInside : second < tables.length)
    (same : format.sourceName (sourceName location) tables.length first =
      format.sourceName (sourceName location) tables.length second) : first = second := by
  rw [formatName_eq, formatName_eq] at same
  by_cases many : format = .yaml ∧ tables.length ≠ 1
  · rw [if_pos many, if_pos many] at same
    exact (numberedName_inj same).2
  · have single : tables.length ≤ 1 := by
      cases format with
      | lines => exact length_parse_lines parsed
      | yaml =>
          by_contra long
          exact many ⟨rfl, by omega⟩
    omega

/-- The sources of what is read are called by their places. -/
theorem exists_names_of_read {store : Resource.Store} {environment : Environment}
    {probe : Probe} {documents : List Document}
    (opened : read store environment probe = .ok documents) (found : documents ≠ []) :
    ∃ text tables, probe.loader.format.parse text = .ok tables ∧
      (documents.map fun document => document.source.name) = (List.range tables.length).map
        (probe.loader.format.sourceName (sourceName probe.location) tables.length) := by
  rcases exists_resource_of_read opened found with ⟨resource, tables, _, parsed, made⟩
  refine ⟨resource.content, tables, parsed, ?_⟩
  have read := Traversal.mapM_eq_ok_iff.mp made
  have sources : List.Forall₂ (fun source document => source = document.source) _ documents :=
    read.imp fun _ _ made => (Document.ofSource_eq_ok_iff.mp made).1.symm
  rw [← List.forall₂_map_right_iff, List.forall₂_eq_eq_eq] at sources
  rw [← Function.comp_def, ← List.map_map, ← sources]
  apply List.ext_getElem
  · simp
  · intro index inside also
    simp

/-- No two documents of a resource have sources of one name. -/
theorem nodup_names_of_read {store : Resource.Store} {environment : Environment}
    {probe : Probe} {documents : List Document}
    (opened : read store environment probe = .ok documents) :
    (documents.map fun document => document.source.name).Nodup := by
  by_cases found : documents = []
  · rw [found]
    exact List.nodup_nil
  · rcases exists_names_of_read opened found with ⟨text, tables, parsed, names⟩
    rw [names]
    refine List.Nodup.map_on (fun first firstIn second secondIn same => ?_) List.nodup_range
    rw [List.mem_range] at firstIn secondIn
    exact index_eq_of_formatName parsed firstIn secondIn same

/-- One of several documents tells by the name of its source where they all stand. -/
theorem documents_eq_of_name_eq {store : Resource.Store} {environment : Environment}
    {first second : Probe} {left right : List Document} {document other : Document}
    (firstRead : read store environment first = .ok left) (several : 1 < left.length)
    (firstInside : document ∈ left) (secondRead : read store environment second = .ok right)
    (secondInside : other ∈ right) (same : other.source.name = document.source.name) :
    right = left := by
  rcases exists_names_of_read firstRead (List.ne_nil_of_mem firstInside) with
    ⟨text, tables, parsed, names⟩
  have count : left.length = tables.length := by
    have lengths := congrArg List.length names
    rwa [List.length_map, List.length_map, List.length_range] at lengths
  have many : first.loader.format = .yaml ∧ tables.length ≠ 1 := by
    refine ⟨?_, by omega⟩
    cases format : first.loader.format with
    | yaml => rfl
    | lines =>
        rw [format] at parsed
        have single := length_parse_lines parsed
        omega
  have named : document.source.name ∈ left.map fun document => document.source.name :=
    List.mem_map_of_mem firstInside
  rw [names] at named
  rcases List.mem_map.mp named with ⟨index, _, spelled⟩
  rw [formatName_eq, if_pos many] at spelled
  rcases exists_of_mem_read secondRead secondInside with ⟨_, _, _, _, _, _, source, _⟩
  rw [source, ← spelled, formatName_eq] at same
  split at same
  · next numbered =>
      have location := (numberedName_inj same).1
      have format := numbered.1.trans many.1.symm
      rw [read_congr_format location format, firstRead] at secondRead
      exact (Except.ok.inj secondRead).symm
  · exact absurd same (sourceName_ne_numberedName _ _ _)

/-- Probes of one loader for each location read one source of each name. -/
theorem source_eq_of_name_eq {store : Resource.Store} {environment : Environment}
    {first second : Probe} {left right : List Document} {sooner later : Document}
    (firstRead : read store environment first = .ok left) (firstInside : sooner ∈ left)
    (secondRead : read store environment second = .ok right) (secondInside : later ∈ right)
    (agree : first.location = second.location → first.loader = second.loader)
    (same : sooner.source.name = later.source.name) : sooner.source = later.source := by
  rcases exists_of_mem_read firstRead firstInside with
    ⟨resource, tables, index, inside, found, parsed, source, _⟩
  rcases exists_of_mem_read secondRead secondInside with
    ⟨other, others, position, within, located, read, target, _⟩
  rw [source, target] at same ⊢
  have location : first.location = second.location := location_eq_of_formatName same
  have loader := agree location
  rw [← location, found] at located
  cases located
  rw [← loader, parsed] at read
  cases read
  simp only [← loader, ← location] at same ⊢
  have index := index_eq_of_formatName parsed inside within same
  subst index
  rfl

end Library
end Assembly
end LayeredConfig
