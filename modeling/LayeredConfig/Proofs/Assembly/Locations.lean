import LayeredConfig.Proofs.Assembly.Documents
import LayeredConfig.Proofs.Assembly.Files
import LayeredConfig.Proofs.Assembly.Passes
import LayeredConfig.Proofs.Assembly.Termination
import LayeredConfig.Proofs.Names

namespace LayeredConfig

open Property

/-!
# What a pass takes at a location

Locations are listed with the most specific one last and searched from that one
on, so that a pass takes what stands at a more specific location first.  There
is one pass for each profile that has its turn and one, the first, for no
profile.  When the file names in different directories are kept apart, a pass
never takes a source from two of them.
-/

namespace Assembly
namespace Search

/-! ## Listed and searched -/

/-- The locations that a property lists, in that order; none when it is missing. -/
def listedBy (environment : Environment) (key : String) : Except Error (List String) :=
  match environment.get? key with
  | none => .ok []
  | some text => (environment.resolve text).map fun resolved =>
      (Text.commaList resolved).map ofPath

/-- The locations in the order in which they are listed, the additional ones last. -/
def listed (search : Search) (environment : Environment) : Except Error (List String) := do
  let additional ← listedBy environment Keys.additionalLocations
  let others ←
    if environment.contains Keys.searchLocations then listedBy environment Keys.searchLocations
    else (environment.resolve (search.locations.getD defaultLocations)).map Text.commaList
  return others ++ additional

theorem ofProperty_eq (environment : Environment) (key : String) :
    ofProperty environment key =
      (listedBy environment key).map fun paths => Names.addAll [] paths.reverse := by
  unfold ofProperty listedBy
  cases environment.get? key with
  | none => rfl
  | some text =>
      simp only [entries]
      cases environment.resolve text with
      | error error => rfl
      | ok resolved =>
          have once := Names.addAll_map_addAll ofPath [] [] (Text.commaList resolved).reverse
          rw [List.nil_append, List.map_reverse] at once
          exact congrArg Except.ok once

/-- The locations are searched backwards, each once. -/
theorem allLocations_eq (search : Search) (environment : Environment) :
    search.allLocations environment =
      (search.listed environment).map fun locations => Names.addAll [] locations.reverse := by
  have joined : ∀ additional others : List String,
      Names.addAll (Names.addAll [] additional.reverse) (Names.addAll [] others.reverse) =
        Names.addAll [] (others ++ additional).reverse := by
    intro additional others
    rw [Names.addAll_addAll, ← Names.addAll_append, List.reverse_append]
  unfold allLocations listed
  rw [ofProperty_eq, ofProperty_eq, entries]
  cases listedBy environment Keys.additionalLocations with
  | error error => rfl
  | ok additional =>
      split
      · cases listedBy environment Keys.searchLocations with
        | error error => rfl
        | ok others => exact congrArg Except.ok (joined additional others)
      · cases environment.resolve (search.locations.getD defaultLocations) with
        | error error => rfl
        | ok resolved => exact congrArg Except.ok (joined additional (Text.commaList resolved))

/-- The probes of a pass at one location. -/
def probesAt (search : Search) (loaders : List Loader) (environment : Environment)
    (profile : Option String) (earlier : List String) (location : String) :
    List (Except Error Probe) :=
  match location.toList.getLast? with
  | some '/' => search.directoryProbes loaders environment profile earlier location
  | _ => [fileProbe loaders profile location]

theorem probesAt_of_directory {search : Search} {loaders : List Loader} {environment : Environment}
    {profile : Option String} {earlier : List String} {location : String}
    (slash : location.toList.getLast? = some '/') :
    search.probesAt loaders environment profile earlier location =
      search.directoryProbes loaders environment profile earlier location := by
  simp only [probesAt, slash]

theorem probes_eq {search : Search} {environment : Environment} {locations : List String}
    (located : search.allLocations environment = .ok locations) (loaders : List Loader)
    (profile : Option String) (earlier : List String) :
    search.probes loaders environment profile earlier =
      locations.flatMap (search.probesAt loaders environment profile earlier) := by
  rw [probes, located]
  rfl

end Search

namespace Setup

/-! ## Location by location -/

/-- What a pass takes at one location, resource by resource. -/
def groupsAt (setup : Setup) (pass : Document.Pass) (environment : Environment)
    (profile : Option String) (earlier : List String) (location : String) :
    List (List Document) :=
  (setup.search.probesAt setup.loaders setup.environment profile earlier location).filterMap
    fun step => (setup.examine pass environment step).toOption

/-- A survey goes through the locations one after the other. -/
theorem survey_eq {setup : Setup} {pass : Document.Pass} {environment : Environment}
    {profile : Option String} {earlier : List String} {groups : List (List Document)}
    (surveyed : setup.survey pass environment profile earlier = .ok groups)
    {locations : List String}
    (located : setup.search.allLocations setup.environment = .ok locations) :
    groups = locations.flatMap (setup.groupsAt pass environment profile earlier) := by
  rw [survey, Search.probes_eq located] at surveyed
  rw [Traversal.eq_filterMap_of_mapM surveyed, List.filterMap_flatMap]
  rfl

/-- The names of the sources that a pass takes at one location. -/
def namesAt (setup : Setup) (pass : Document.Pass) (environment : Environment)
    (profile : Option String) (earlier : List String) (location : String) : List String :=
  (setup.groupsAt pass environment profile earlier location).flatten.map fun document =>
    document.source.name

/-! ## The passes before the last one -/

/-- The first pass is for no profile and every other one for a profile: in which environment it is
made, and which profiles have had their turns before. -/
inductive Makes (setup : Setup) : Option String → Environment → List String → Prop where
  | first : Makes setup none setup.environment []
  | turn {progress : Progress} {profile : Profile} {others : List Profile}
      (reached : Reached setup progress) (waiting : progress.queue.waiting = profile :: others) :
      Makes setup (some profile.name) (progress.advance profile others).environment
        progress.queue.earlier

theorem makes_of_passes {setup : Setup} {visits : List Visit} {progress : Progress}
    (passes : Passes setup visits progress) : ∀ visit ∈ visits, ∃ environment earlier,
      Makes setup visit.profile environment earlier ∧
        setup.survey .regular environment visit.profile earlier = .ok visit.groups := by
  induction passes with
  | start _ surveyed =>
      exact List.forall_mem_singleton.mpr ⟨_, _, .first, surveyed⟩
  | turn passes waiting surveyed ih =>
      refine List.forall_mem_append.mpr ⟨ih, List.forall_mem_singleton.mpr ?_⟩
      exact ⟨_, _, .turn (reached_of_passes passes) waiting, surveyed⟩

/-- One turn leads from one progress to the other. -/
def Turn (setup : Setup) (progress later : Progress) : Prop :=
  ∃ profile others, progress.queue.waiting = profile :: others ∧
    setup.perform (progress.advance profile others) .regular (some profile.name)
      progress.queue.earlier = .ok later

theorem turn_unique (setup : Setup) : Relator.RightUnique setup.Turn := by
  rintro progress later other ⟨profile, others, waiting, performed⟩ ⟨_, _, again, repeated⟩
  rw [waiting] at again
  cases again
  exact Except.ok.inj (performed.symm.trans repeated)

theorem reflTransGen_of_reached {setup : Setup} {progress : Progress}
    (reached : Reached setup progress) : ∃ queue first, setup.queue = .ok queue ∧
      setup.perform ⟨setup.environment, queue, []⟩ .regular none [] = .ok first ∧
      Relation.ReflTransGen setup.Turn first progress := by
  induction reached with
  | start queued performed => exact ⟨_, _, queued, performed, .refl⟩
  | turn _ waiting performed ih =>
      rcases ih with ⟨queue, first, queued, began, leads⟩
      exact ⟨queue, first, queued, began, leads.tail ⟨_, _, waiting, performed⟩⟩

theorem earlier_subset_of_turns {setup : Setup} {progress later : Progress}
    (leads : Relation.ReflTransGen setup.Turn progress later) :
    progress.queue.earlier ⊆ later.queue.earlier := by
  induction leads with
  | refl => exact List.Subset.refl _
  | tail _ turn ih =>
      rcases turn with ⟨profile, others, _, performed⟩
      rcases perform_eq_ok_iff.mp performed with ⟨groups, _, rfl⟩
      refine List.Subset.trans ih ?_
      rw [Queue.earlier, Queue.earlier, begun_collect]
      exact List.map_subset _ (List.subset_append_left _ _)

/-- A profile that waits first has had its turn when more turns were made. -/
theorem eq_or_mem_earlier_of_turns {setup : Setup} {progress later : Progress} {profile : Profile}
    {others : List Profile} (waiting : progress.queue.waiting = profile :: others)
    (leads : Relation.ReflTransGen setup.Turn progress later) :
    progress = later ∨ profile.name ∈ later.queue.earlier := by
  rcases Relation.ReflTransGen.cases_head leads with same | ⟨between, turn, rest⟩
  · exact .inl same
  · rcases turn with ⟨head, tail, again, performed⟩
    rw [waiting] at again
    cases again
    rcases perform_eq_ok_iff.mp performed with ⟨groups, _, rfl⟩
    refine .inr (earlier_subset_of_turns rest ?_)
    rw [Queue.earlier, begun_collect]
    exact List.mem_map_of_mem (List.mem_append_right _ (List.mem_singleton.mpr rfl))

/-- A profile has its turn at one moment of the run. -/
theorem eq_of_waiting_name {setup : Setup} {progress other : Progress} {profile same : Profile}
    {others rest : List Profile} (reached : Reached setup progress)
    (waiting : progress.queue.waiting = profile :: others) (also : Reached setup other)
    (waits : other.queue.waiting = same :: rest) (named : profile.name = same.name) :
    progress = other := by
  rcases reflTransGen_of_reached reached with ⟨queue, first, queued, performed, leads⟩
  rcases reflTransGen_of_reached also with ⟨_, _, queuedAlso, performedAlso, leadsAlso⟩
  rw [queued, Except.ok.injEq] at queuedAlso
  subst queuedAlso
  rw [performed, Except.ok.injEq] at performedAlso
  subst performedAlso
  rcases Relation.ReflTransGen.total_of_right_unique setup.turn_unique leads leadsAlso with
    onwards | back
  · rcases eq_or_mem_earlier_of_turns waiting onwards with equal | had
    · exact equal
    · exact absurd (named ▸ had) ((distinct_of_reached also).not_mem_earlier waits)
  · rcases eq_or_mem_earlier_of_turns waits back with equal | had
    · exact equal.symm
    · exact absurd (named ▸ had) ((distinct_of_reached reached).not_mem_earlier waiting)

/-- There is one pass for each profile and one for none. -/
theorem Makes.unique {setup : Setup} {profile : Option String} {environment other : Environment}
    {earlier before : List String} (makes : Makes setup profile environment earlier)
    (also : Makes setup profile other before) : environment = other ∧ earlier = before := by
  cases makes with
  | first =>
      cases also
      exact ⟨rfl, rfl⟩
  | turn reached waiting =>
      generalize named : some _ = name at also
      cases also with
      | first => cases named
      | turn again waits =>
          have same := eq_of_waiting_name reached waiting again waits (Option.some.inj named)
          subst same
          rw [waiting] at waits
          cases waits
          exact ⟨rfl, rfl⟩

/-- The pass for the profile, or the first one for none, takes a source of the name at the
location. -/
def Collects (setup : Setup) (profile : Option String) (location name : String) : Prop :=
  ∃ environment earlier, Makes setup profile environment earlier ∧
    name ∈ setup.namesAt .regular environment profile earlier location

/-- Whether the profile has the first turn and its pass takes a source of the name at the
location. -/
def collectsFirst (setup : Setup) (own location name : String) : Bool :=
  match setup.queue with
  | .error _ => false
  | .ok queue =>
      match setup.perform ⟨setup.environment, queue, []⟩ .regular none [] with
      | .error _ => false
      | .ok first =>
          match first.queue.waiting with
          | [] => false
          | profile :: others =>
              decide (profile.name = own) &&
                (setup.namesAt .regular (first.advance profile others).environment (some own)
                  first.queue.earlier location).contains name

theorem collects_of_collectsFirst {setup : Setup} {own location name : String}
    (found : setup.collectsFirst own location name = true) :
    setup.Collects (some own) location name := by
  unfold collectsFirst at found
  split at found
  · cases found
  · next queue queued =>
      split at found
      · cases found
      · next first performed =>
          split at found
          · cases found
          · next profile others waiting =>
              rw [Bool.and_eq_true, decide_eq_true_eq, List.contains_iff_mem] at found
              rcases found with ⟨rfl, listed⟩
              exact ⟨_, _, .turn (.start queued performed) waiting, listed⟩

end Setup

/-! ## Files in different directories -/

namespace Search

/-- What the names of the files in the directories begin with. -/
def stems (locations names : List String) : List String :=
  locations.flatMap fun location => names.map fun name => location ++ name

/-- The stems are distinct, and none of them begins with another one and the hyphen that stands
before a profile. -/
structure KeepsApart (locations names : List String) : Prop where
  distinct : (stems locations names).Nodup
  unextended : ∀ first ∈ stems locations names, ∀ second ∈ stems locations names,
    ¬ (first ++ "-").toList <+: second.toList

theorem location_eq_of_stem {locations names : List String}
    (distinct : (stems locations names).Nodup) {left right first second : String}
    (leftIn : left ∈ locations) (rightIn : right ∈ locations) (firstIn : first ∈ names)
    (secondIn : second ∈ names) (same : left ++ first = right ++ second) : left = right := by
  have pairs : stems locations names =
      (locations.product names).map fun pair => pair.1 ++ pair.2 := by
    simp only [stems, List.product, List.map_flatMap, List.map_map, Function.comp_def]
  rw [pairs] at distinct
  have pair := List.inj_on_of_nodup_map distinct (List.pair_mem_product.mpr ⟨leftIn, firstIn⟩)
    (List.pair_mem_product.mpr ⟨rightIn, secondIn⟩) same
  exact congrArg Prod.fst pair

/-- A file name goes on after the stem with the extension, or with a hyphen and a profile. -/
theorem exists_tail_of_mem_profileProbes {base extension : String} {loader : Loader}
    {profile : Option String} {earlier : List String} {probe : Probe}
    (member : probe ∈ profileProbes base extension loader profile earlier) :
    ∃ tail : List Char, (∀ mark ∈ tail.head?, mark = '-') ∧
      probe.location.toList = base.toList ++ tail ++ '.' :: extension.toList := by
  have dot : ".".toList = ['.'] := by decide
  have own : ∀ name : String, (base ++ "-" ++ name ++ "." ++ extension).toList =
      base.toList ++ ('-' :: name.toList) ++ '.' :: extension.toList := by
    intro name
    have hyphen : "-".toList = ['-'] := by decide
    simp only [String.toList_append, dot, hyphen, List.append_assoc, List.cons_append,
      List.nil_append]
  have marked : ∀ name : String, ∀ mark ∈ ('-' :: name.toList).head?, mark = '-' := by
    intro name mark begins
    exact (Option.some.inj begins).symm
  rcases mem_profileProbes_iff.mp member with rfl | ⟨name, _, rfl | ⟨other, _, rfl⟩⟩
  · refine ⟨[], fun _ begins => (by cases begins), ?_⟩
    simp only [String.toList_append, dot, List.append_assoc, List.cons_append, List.nil_append]
  · exact ⟨_, marked name, own name⟩
  · exact ⟨_, marked other, own other⟩

theorem mem_stems {locations names : List String} {location name : String}
    (listed : location ∈ locations) (tried : name ∈ names) :
    location ++ name ∈ stems locations names :=
  List.mem_flatMap.mpr ⟨location, listed, List.mem_map.mpr ⟨name, tried, rfl⟩⟩

/-- The shorter of two stems goes on with a hyphen, or is the other one. -/
theorem stem_eq_of_append {left right first second : List Char}
    (same : left ++ first = right ++ second) (begins : ∀ mark ∈ first.head?, mark = '-')
    (unextended : ¬ left ++ ['-'] <+: right) (short : left.length ≤ right.length) :
    left = right := by
  rcases List.append_eq_append_iff.mp same with ⟨between, rfl, rfl⟩ | ⟨between, rfl, _⟩
  · cases between with
    | nil => rw [List.append_nil]
    | cons mark rest =>
        have hyphen := begins mark rfl
        subst hyphen
        exact absurd ⟨rest, List.append_assoc left ['-'] rest⟩ unextended
  · have empty : between = [] := by
      rw [List.length_append] at short
      exact List.eq_nil_of_length_eq_zero (by omega)
    rw [empty, List.append_nil]

/-- When stems are kept apart, a file name has one of them. -/
theorem KeepsApart.stem_eq {locations names : List String} (apart : KeepsApart locations names)
    {left right : String} (leftIn : left ∈ stems locations names)
    (rightIn : right ∈ stems locations names) {first second : List Char}
    (same : left.toList ++ first = right.toList ++ second)
    (firstMark : ∀ mark ∈ first.head?, mark = '-')
    (secondMark : ∀ mark ∈ second.head?, mark = '-') : left = right := by
  have hyphen : "-".toList = ['-'] := by decide
  have leftFree := apart.unextended left leftIn right rightIn
  have rightFree := apart.unextended right rightIn left leftIn
  rw [String.toList_append, hyphen] at leftFree rightFree
  apply String.toList_inj.mp
  rcases Nat.le_total left.toList.length right.toList.length with shorter | longer
  · exact stem_eq_of_append same firstMark leftFree shorter
  · exact (stem_eq_of_append same.symm secondMark rightFree longer).symm

/-- Directories that keep their files apart have no probe of one file in common. -/
theorem location_eq_of_probesAt {search : Search} {loaders : List Loader}
    {environment : Environment} {locations names : List String}
    (apart : KeepsApart locations names) (named : search.allNames environment = .ok names)
    (dotless : ∀ claim ∈ claims loaders, '.' ∉ claim.1.toList) {profile : Option String}
    {earlier : List String} {left right : String} (leftIn : left ∈ locations)
    (rightIn : right ∈ locations) (leftSlash : left.toList.getLast? = some '/')
    (rightSlash : right.toList.getLast? = some '/') {first second : Probe}
    (firstAt : .ok first ∈ search.probesAt loaders environment profile earlier left)
    (secondAt : .ok second ∈ search.probesAt loaders environment profile earlier right)
    (same : first.location = second.location) : left = right := by
  rw [probesAt_of_directory leftSlash, mem_directoryProbes_iff] at firstAt
  rw [probesAt_of_directory rightSlash, mem_directoryProbes_iff] at secondAt
  rcases firstAt with ⟨listed, one, extension, _, known, oneIn, claimed, firstMember⟩
  rcases secondAt with ⟨also, other, ending, _, again, otherIn, claims, secondMember⟩
  rw [named, Except.ok.injEq] at known again
  subst known again
  rcases exists_tail_of_mem_profileProbes firstMember with ⟨firstTail, firstMark, firstFile⟩
  rcases exists_tail_of_mem_profileProbes secondMember with ⟨secondTail, secondMark, secondFile⟩
  rw [same, secondFile] at firstFile
  have bodies := (Text.append_cons_inj_of_not_mem firstFile (dotless _ claims)
    (dotless _ claimed)).1
  have stem := apart.stem_eq (mem_stems leftIn oneIn) (mem_stems rightIn otherIn) bodies.symm
    firstMark secondMark
  exact location_eq_of_stem apart.distinct leftIn rightIn oneIn otherIn stem

end Search

namespace Setup

theorem exists_of_mem_namesAt {setup : Setup} {pass : Document.Pass} {environment : Environment}
    {profile : Option String} {earlier : List String} {location name : String}
    (member : name ∈ setup.namesAt pass environment profile earlier location) :
    ∃ probe documents document,
      .ok probe ∈ setup.search.probesAt setup.loaders setup.environment profile earlier location ∧
        setup.library.documents probe = .ok documents ∧ document ∈ documents ∧
        document.source.name = name := by
  rcases List.mem_map.mp member with ⟨document, inside, named⟩
  rcases List.mem_flatten.mp inside with ⟨group, listed, present⟩
  rcases List.mem_filterMap.mp listed with ⟨step, tried, yields⟩
  cases examined : setup.examine pass environment step with
  | error error =>
      rw [examined] at yields
      cases yields
  | ok found =>
      rw [examined] at yields
      cases yields
      rcases examine_eq_ok_iff.mp examined with ⟨probe, documents, rfl, read, rfl⟩
      exact ⟨probe, documents, document, tried, read, (List.mem_filter.mp present).1, named⟩

end Setup
end Assembly

namespace Assembler

/-- In directories that keep their files apart, a pass never takes one source from two of them. -/
theorem location_eq_of_collects {assembler : Assembler} {environment : Environment}
    {locations names : List String} (apart : Assembly.Search.KeepsApart locations names)
    (named : assembler.search.allNames environment = .ok names)
    (dotless : ∀ claim ∈ Assembly.Search.claims assembler.loaders, '.' ∉ claim.1.toList)
    (directories : ∀ location ∈ locations, location.toList.getLast? = some '/')
    {profile : Option String} {left right name : String} (leftIn : left ∈ locations)
    (rightIn : right ∈ locations) (first : (assembler.setup environment).Collects profile left name)
    (second : (assembler.setup environment).Collects profile right name) : left = right := by
  rcases first with ⟨_, _, makes, firstAt⟩
  rcases second with ⟨_, _, also, secondAt⟩
  rcases makes.unique also with ⟨rfl, rfl⟩
  rcases Assembly.Setup.exists_of_mem_namesAt firstAt with
    ⟨probe, documents, document, probed, read, inside, rfl⟩
  rcases Assembly.Setup.exists_of_mem_namesAt secondAt with
    ⟨other, others, another, tried, found, present, same⟩
  rcases Assembly.Library.exists_of_mem_read read inside with ⟨_, _, _, _, _, _, source, _⟩
  rcases Assembly.Library.exists_of_mem_read found present with ⟨_, _, _, _, _, _, target, _⟩
  rw [source, target] at same
  exact Assembly.Search.location_eq_of_probesAt apart named dotless leftIn rightIn
    (directories left leftIn) (directories right rightIn) probed tried
    (Assembly.Library.location_eq_of_formatName same.symm)

end Assembler
end LayeredConfig
