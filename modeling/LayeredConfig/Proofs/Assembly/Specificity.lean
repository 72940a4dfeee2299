import LayeredConfig.Proofs.Assembly.Locations
import LayeredConfig.Proofs.Assembly.OneList
import LayeredConfig.Proofs.Assembly.ProfileFree
import LayeredConfig.Proofs.Assembly.StandardLoaders

namespace LayeredConfig

open Property

/-!
# More specific locations come first

A regular pass puts what it takes last in its list, and it searches the more
specific of two locations first.  So of two sources that stand in this list only,
one from the more specific location comes first.  The last pass puts what is left
over first in the list for no profile, whatever the location.
-/

namespace Assembly
namespace Lists

/-! ## The list of one profile -/

theorem exists_entry_of_foldl {lists : Lists} {profile : Option String} {sources : Sources}
    (single : lists.entries = [(profile, sources)]) {log : List Taken}
    (own : ∀ taken ∈ log, taken.pass = .regular ∧ taken.profile = profile) :
    ∃ grown, (log.foldl enter lists).entries = [(profile, grown)] ∧
      grown.names =
        (log.map fun taken => taken.document.source.name).foldl Names.putLast sources.names := by
  induction log generalizing lists sources with
  | nil => exact ⟨sources, single, rfl⟩
  | cons head tail ih =>
      rcases own head List.mem_cons_self with ⟨regular, rfl⟩
      have entered : (lists.enter head).entries =
          [(head.profile, sources.addLast head.document.source)] := by
        unfold enter
        rw [regular]
        exact KeyedList.entries_update_cons single _ _
      rcases ih entered fun taken later => own taken (List.mem_cons_of_mem _ later) with
        ⟨grown, entries, names⟩
      refine ⟨grown, entries, names.trans ?_⟩
      rw [Sources.names_addLast]
      rfl

/-- What is taken for one profile makes one list, in which the names were put last one by one. -/
theorem exists_entry_of_ofLog {log : List Taken} {profile : Option String}
    (own : ∀ taken ∈ log, taken.pass = .regular ∧ taken.profile = profile) (nonempty : log ≠ []) :
    ∃ sources, (ofLog log).entries = [(profile, sources)] ∧
      sources.names = (log.map fun taken => taken.document.source.name).foldl Names.putLast [] := by
  cases log with
  | nil => exact absurd rfl nonempty
  | cons head tail =>
      rcases own head List.mem_cons_self with ⟨regular, rfl⟩
      have entered : (enter KeyedList.empty head).entries =
          [(head.profile, Sources.empty.addLast head.document.source)] := by
        unfold enter
        rw [regular]
        rfl
      exact exists_entry_of_foldl entered fun taken later => own taken (List.mem_cons_of_mem _ later)

theorem above_of_sublist {sources : List Source} {upper lower : String}
    (distinct : (sources.map Source.name).Nodup)
    (ordered : [upper, lower].Sublist (sources.map Source.name)) : Above sources upper lower := by
  rcases List.cons_sublist_iff.mp ordered with ⟨front, back, split, begins, ends⟩
  rcases List.map_eq_append_iff.mp split with ⟨first, rest, rfl, rfl, rfl⟩
  rw [List.map_append, List.nodup_append] at distinct
  have below := List.singleton_sublist.mp ends
  exact ⟨first, rest, rfl, begins, fun repeated => distinct.2.2 lower repeated lower below rfl,
    below⟩

theorem Above.widen {sources : List Source} {upper lower : String}
    (above : Above sources upper lower) {before : List Source}
    (absent : lower ∉ before.map Source.name) (after : List Source) :
    Above (before ++ (sources ++ after)) upper lower := by
  rcases above with ⟨front, back, rfl, top, missing, below⟩
  refine ⟨before ++ front, back ++ after, by simp only [List.append_assoc], ?_, ?_, ?_⟩
  · rw [List.map_append]
    exact List.mem_append_right _ top
  · rw [List.map_append, List.mem_append, not_or]
    exact ⟨absent, missing⟩
  · rw [List.map_append]
    exact List.mem_append_left _ below

/-- In the list of one pass a source stands above another that is taken again after it. -/
theorem above_ofLog_own {log : List Taken} {profile : Option String}
    (own : ∀ taken ∈ log, taken.pass = .regular ∧ taken.profile = profile) {upper lower : String}
    (above : upper ∈ log.map fun taken => taken.document.source.name)
    (followed : Names.Followed upper lower (log.map fun taken => taken.document.source.name)) :
    Above (ofLog log).stack upper lower := by
  have nonempty : log ≠ [] := by
    rintro rfl
    cases above
  rcases exists_entry_of_ofLog own nonempty with ⟨sources, entries, names⟩
  have stacked : (ofLog log).stack = sources.layers := by
    rw [stack, entries]
    exact List.flatMap_singleton _ _
  rw [stacked]
  apply above_of_sublist
  · change sources.names.Nodup
    rw [names]
    exact Names.nodup_foldl_putLast List.nodup_nil _
  · change [upper, lower].Sublist sources.names
    rw [names]
    exact followed.sublist_foldl_putLast above

/-- The order in the list of one pass is that among all lists, where no later pass takes the
lower source. -/
theorem above_ofLog_between {sooner own later left : List Taken}
    (fresh : ∀ taken ∈ own, taken.pass = .regular ∧
      ∀ other ∈ sooner, other.profile ≠ taken.profile)
    (apart : ∀ taken ∈ later, taken.pass = .regular ∧
      ∀ other ∈ sooner ++ own, other.profile ≠ taken.profile)
    (last : ∀ taken ∈ left, taken.pass = .leftover) {upper lower : String}
    (above : Above (ofLog own).stack upper lower)
    (absent : ∀ taken ∈ later, taken.document.source.name ≠ lower) :
    Above (ofLog (sooner ++ own ++ later ++ left)).stack upper lower := by
  rw [ofLog, List.foldl_append, ← ofLog]
  apply Above.leftover _ last
  rw [stack_ofLog_append apart, stack_ofLog_append fresh]
  apply above.widen
  intro listed
  rcases exists_taken_of_mem_stack listed with ⟨taken, member, named⟩
  exact absent taken member named

/-! ## What is left over -/

/-- What is left over goes to the front of the first list, and is new to all lists. -/
theorem exists_front_of_leftover {lists : Lists} {profile : Option String} {sources : Sources}
    {rest : List (Option String × Sources)} (begins : lists.entries = (profile, sources) :: rest)
    {log : List Taken} (left : ∀ taken ∈ log, taken.pass = .leftover ∧ taken.profile = profile) :
    ∃ front, (log.foldl enter lists).entries = (profile, ⟨front ++ sources.layers⟩) :: rest ∧
      ∀ source ∈ front, ¬ HasName lists source.name := by
  induction log generalizing lists sources with
  | nil => exact ⟨[], begins, fun _ none => by cases none⟩
  | cons head tail ih =>
      rcases left head List.mem_cons_self with ⟨leftover, rfl⟩
      have later : ∀ taken ∈ tail, taken.pass = .leftover ∧ taken.profile = head.profile :=
        fun taken member => left taken (List.mem_cons_of_mem _ member)
      by_cases known : HasName lists head.document.source.name
      · have idle : lists.enter head = lists := by
          unfold enter
          rw [leftover]
          simp only
          rw [if_pos ((any_contains_iff _ _).mpr known)]
        rw [List.foldl_cons, idle]
        exact ih begins later
      · have missing : (sources.erase head.document.source.name).layers = sources.layers := by
          apply Sources.layers_erase_of_not_mem
          intro listed
          rcases List.mem_map.mp listed with ⟨layer, inside, named⟩
          exact known ⟨layer, ⟨_, begins ▸ List.mem_cons_self, inside⟩, named⟩
        have joined : (lists.enter head).entries =
            (head.profile, ⟨head.document.source :: sources.layers⟩) :: rest := by
          unfold enter
          rw [leftover]
          simp only
          rw [if_neg (fun present => known ((any_contains_iff _ _).mp present)),
            KeyedList.entries_update_cons begins, Sources.addFirst, missing]
        rcases ih joined later with ⟨front, entries, new⟩
        refine ⟨front ++ [head.document.source], ?_, ?_⟩
        · rw [List.foldl_cons, entries, List.append_assoc, List.singleton_append]
        · intro source member
          rcases List.mem_append.mp member with inside | last
          · exact fun named => new source inside ((enters_enter lists head).kept _ named)
          · rw [List.mem_singleton.mp last]
            exact known

/-- What the first pass does not take, nor any turn, stands above what the first pass takes. -/
theorem Phases.above_of_left {log start turns left : List Taken}
    (phases : Phases log start turns left) {upper lower : String}
    (above : upper ∈ left.map fun taken => taken.document.source.name)
    (late : ∀ taken ∈ start ++ turns, taken.document.source.name ≠ upper)
    (below : lower ∈ start.map fun taken => taken.document.source.name)
    (absent : ∀ taken ∈ turns, taken.document.source.name ≠ lower) :
    Above (ofLog log).stack upper lower := by
  have nonempty : start ≠ [] := by
    intro none
    rw [none] at below
    cases below
  rcases exists_entry_of_ofLog phases.start nonempty with ⟨sources, single, _⟩
  have begins := phases.entries_before_left
  rw [single, List.singleton_append] at begins
  rcases exists_front_of_leftover begins phases.left with ⟨front, entries, new⟩
  have stacked : (ofLog log).stack = (ofLog turns).stack ++ (front ++ sources.layers) := by
    rw [phases.split, ofLog, List.foldl_append, ← ofLog, stack, entries]
    simp only [List.reverse_cons, List.flatMap_append, List.flatMap_singleton, stack]
  have startStack : (ofLog start).stack = sources.layers := by
    rw [stack, single]
    exact List.flatMap_singleton _ _
  rcases List.mem_map.mp above with ⟨top, topLeft, rfl⟩
  rcases List.mem_map.mp below with ⟨bottom, bottomFirst, rfl⟩
  have bottomListed : bottom.document.source.name ∈ sources.layers.map Source.name :=
    startStack ▸ mem_stack_of_mem bottomFirst
  have topListed : top.document.source.name ∈ (ofLog log).stack.map Source.name :=
    mem_stack_of_mem (phases.split ▸ List.mem_append_right _ topLeft)
  rw [stacked] at topListed ⊢
  refine ⟨(ofLog turns).stack ++ front, sources.layers, (List.append_assoc _ _ _).symm, ?_, ?_,
    bottomListed⟩
  · rw [← List.append_assoc, List.map_append, List.mem_append] at topListed
    refine topListed.resolve_right fun first => ?_
    rcases exists_taken_of_mem_stack (startStack ▸ first) with ⟨taken, member, named⟩
    exact late taken (List.mem_append_left _ member) named
  · rw [List.map_append, List.mem_append, not_or]
    constructor
    · intro turn
      rcases exists_taken_of_mem_stack turn with ⟨taken, member, named⟩
      exact absent taken member named
    · intro joined
      rcases List.mem_map.mp joined with ⟨source, inside, named⟩
      refine new source inside (named ▸ hasName_of_mem ?_)
      exact List.mem_append_left _ bottomFirst

end Lists

namespace Progress

/-- The first pass takes a source of the name. -/
def TakenAtFirst (progress : Progress) (name : String) : Prop :=
  ∃ taken ∈ progress.log, taken.pass = .regular ∧ taken.profile = none ∧
    taken.document.source.name = name

instance (progress : Progress) (name : String) : Decidable (progress.TakenAtFirst name) :=
  inferInstanceAs (Decidable (∃ _ ∈ _, _))

end Progress

namespace Setup

/-- The log before, in and after the pass for one profile or the first one for none. -/
structure CutAt (setup : Setup) (log : List Taken) (profile : Option String)
    (sooner later left : List Taken) (visit : Visit) : Prop where
  split : log = sooner ++ visit.entered ++ later ++ left
  regular : visit.pass = .regular
  turn : visit.profile = profile
  before : ∀ taken ∈ sooner, taken.profile ≠ profile
  after : ∀ taken ∈ later, taken.pass = .regular ∧ taken.profile ≠ profile ∧
    ∀ other ∈ sooner, other.profile ≠ taken.profile
  last : ∀ taken ∈ left, taken.pass = .leftover ∧ taken.profile = none
  made : ∃ environment earlier, Makes setup profile environment earlier ∧
    setup.survey .regular environment profile earlier = .ok visit.groups

theorem nodup_profiles_of_passes {setup : Setup} {visits : List Visit} {progress : Progress}
    (passes : Passes setup visits progress) : (visits.map Visit.profile).Nodup := by
  rw [profiles_of_passes passes, List.nodup_cons]
  constructor
  · intro turn
    rcases List.mem_map.mp turn with ⟨name, _, same⟩
    cases same
  · have distinct := (distinct_of_reached (reached_of_passes passes)).nodup_earlier
    exact distinct.map fun _ _ => Option.some.inj

/-- Whatever is taken is taken for no profile or in the turn of one. -/
theorem exists_cut_of_runs {setup : Setup} {visits : List Visit} {progress : Progress}
    (runs : Runs setup visits progress) {taken : Taken} (logged : taken ∈ progress.log) :
    ∃ sooner later left visit,
      CutAt setup progress.log taken.profile sooner later left visit := by
  rw [log_of_runs runs] at logged ⊢
  cases runs with
  | @last visits progress groups passes _ _ =>
      have listed : taken.profile ∈ visits.map Visit.profile := by
        have among := profile_mem_of_mem_entered logged
        rw [List.map_append, List.mem_append] at among
        refine among.elim id fun last => ?_
        rw [List.mem_singleton.mp last, profiles_of_passes passes]
        exact List.mem_cons_self
      rcases List.mem_map.mp listed with ⟨visit, inside, named⟩
      rcases makes_of_passes passes visit inside with ⟨environment, earlier, makes, surveyed⟩
      rcases List.append_of_mem inside with ⟨before, after, rfl⟩
      have distinct := nodup_profiles_of_passes passes
      rw [List.map_append, List.map_cons, List.nodup_append, List.nodup_cons, named] at distinct
      have regular := regular_of_passes passes
      refine ⟨before.flatMap Visit.entered, after.flatMap Visit.entered,
        Visit.entered ⟨.leftover, none, groups⟩, visit, ?_, regular visit inside, named, ?_, ?_, ?_,
        environment, earlier, named ▸ makes, named ▸ surveyed⟩
      · simp only [List.flatMap_append, List.flatMap_cons, List.flatMap_nil, List.append_nil,
          List.append_assoc]
      · intro other early same
        exact distinct.2.2 _ (profile_mem_of_mem_entered early) _ List.mem_cons_self same
      · intro other late
        have turn := profile_mem_of_mem_entered late
        refine ⟨?_, fun same => distinct.2.1.1 (same ▸ turn), fun one early same => ?_⟩
        · rcases List.mem_flatMap.mp late with ⟨visit, among, entered⟩
          rw [(Visit.pass_of_mem_entered entered).1]
          exact regular visit (List.mem_append_right _ (List.mem_cons_of_mem _ among))
        · exact distinct.2.2 _ (profile_mem_of_mem_entered early) _
            (List.mem_cons_of_mem _ turn) same
      · intro other last
        exact Visit.pass_of_mem_entered last

theorem mem_names_entered_iff (setup : Setup) (pass : Document.Pass) (environment : Environment)
    (profile : Option String) (earlier locations : List String) (name : String) :
    (name ∈ (Visit.entered ⟨pass, profile,
        locations.flatMap (setup.groupsAt pass environment profile earlier)⟩).map
          fun taken => taken.document.source.name) ↔
      ∃ location ∈ locations, name ∈ setup.namesAt pass environment profile earlier location := by
  rw [((Visit.entered_perm_noted _).map _).mem_iff]
  simp only [Visit.noted, namesAt, List.map_map, List.mem_map, List.mem_flatten, List.mem_flatMap,
    Function.comp_apply]
  constructor
  · rintro ⟨document, ⟨group, ⟨location, listed, inside⟩, present⟩, named⟩
    exact ⟨location, listed, document, ⟨group, inside, present⟩, named⟩
  · rintro ⟨location, listed, document, ⟨group, inside, present⟩, named⟩
    exact ⟨document, ⟨group, ⟨location, listed, inside⟩, present⟩, named⟩

namespace CutAt

variable {setup : Setup} {log sooner later left : List Taken} {profile : Option String}
  {visit : Visit}

theorem own (cut : CutAt setup log profile sooner later left visit) :
    ∀ taken ∈ visit.entered, taken.pass = .regular ∧ taken.profile = profile := by
  intro taken inside
  rcases Visit.pass_of_mem_entered inside with ⟨pass, named⟩
  exact ⟨pass.trans cut.regular, named.trans cut.turn⟩

/-- The order that the pass leaves in its own list is that among all lists, where no other regular
pass takes the lower source. -/
theorem above (cut : CutAt setup log profile sooner later left visit) {upper lower : String}
    (within : Lists.Above (Lists.ofLog visit.entered).stack upper lower)
    (only : ∀ taken ∈ log, taken.pass = .regular → taken.document.source.name = lower →
      taken.profile = profile) : Lists.Above (Lists.ofLog log).stack upper lower := by
  rw [cut.split]
  refine Lists.above_ofLog_between ?_ ?_ (fun taken left => (cut.last taken left).1) within ?_
  · intro taken inside
    rcases cut.own taken inside with ⟨regular, rfl⟩
    exact ⟨regular, cut.before⟩
  · intro taken late
    rcases cut.after taken late with ⟨regular, different, fresh⟩
    refine ⟨regular, List.forall_mem_append.mpr ⟨fresh, fun other inside => ?_⟩⟩
    rw [(cut.own other inside).2]
    exact Ne.symm different
  · intro taken late named
    have inside : taken ∈ log := by
      rw [cut.split]
      exact List.mem_append_left _ (List.mem_append_right _ late)
    rcases cut.after taken late with ⟨regular, different, _⟩
    exact different (only taken inside regular named)

end CutAt

/-- The locations are searched backwards, so a search splits into what it finds up to the specific
location and what it finds from there on, the general one included. -/
theorem exists_halves_of_survey {setup : Setup} {pass : Document.Pass} {environment : Environment}
    {profile : Option String} {earlier : List String} {groups : List (List Document)}
    (surveyed : setup.survey pass environment profile earlier = .ok groups)
    {locations : List String} (listed : setup.search.listed setup.environment = .ok locations)
    (once : locations.Nodup) {general specific : String}
    (ordered : [general, specific].Sublist locations) :
    ∃ front back, locations.reverse = front ++ back ∧ specific ∈ front ∧ general ∈ back ∧
      groups = front.flatMap (setup.groupsAt pass environment profile earlier) ++
        back.flatMap (setup.groupsAt pass environment profile earlier) := by
  have located : setup.search.allLocations setup.environment = .ok locations.reverse := by
    rw [Search.allLocations_eq, listed]
    exact congrArg Except.ok (Names.addAll_of_nodup (List.nodup_reverse.mpr once))
  have backwards : [specific, general].Sublist locations.reverse := ordered.reverse
  rcases List.cons_sublist_iff.mp backwards with ⟨front, back, split, begins, ends⟩
  refine ⟨front, back, split, begins, List.singleton_sublist.mp ends, ?_⟩
  rw [survey_eq surveyed located, split, List.flatMap_append]

/-- Of two sources that one pass takes at two locations, the one from the more specific location
stands above the other, unless it is taken at a less specific one as well. -/
theorem above_of_collects {setup : Setup} {visits : List Visit} {progress : Progress}
    (runs : Runs setup visits progress) {locations : List String}
    (listed : setup.search.listed setup.environment = .ok locations) (once : locations.Nodup)
    {general specific : String} (ordered : [general, specific].Sublist locations)
    {profile : Option String} {upper lower : String}
    (upperOnly : progress.TakenOnlyFor profile upper)
    (lowerOnly : progress.TakenOnlyFor profile lower)
    (above : setup.Collects profile specific upper)
    (never : ∀ other, [other, specific].Sublist locations → ¬ setup.Collects profile other upper)
    (below : setup.Collects profile general lower) :
    Lists.Above (Lists.ofLog progress.log).stack upper lower := by
  rcases upperOnly.exists_taken with ⟨taken, logged, rfl, rfl⟩
  rcases exists_cut_of_runs runs logged with ⟨sooner, later, left, visit, cut⟩
  -- Both sources are found by the one pass there is for the profile.
  rcases cut.made with ⟨environment, earlier, makes, surveyed⟩
  rcases above with ⟨_, _, same, upperAt⟩
  rcases below with ⟨_, _, also, lowerAt⟩
  rcases makes.unique same with ⟨rfl, rfl⟩
  rcases makes.unique also with ⟨rfl, rfl⟩
  rcases exists_halves_of_survey surveyed listed once ordered with
    ⟨front, back, split, begins, ends, groups⟩
  have entered : visit.entered =
      Visit.entered ⟨.regular, taken.profile, front.flatMap
        (setup.groupsAt .regular environment taken.profile earlier)⟩ ++
      Visit.entered ⟨.regular, taken.profile, back.flatMap
        (setup.groupsAt .regular environment taken.profile earlier)⟩ := by
    rw [Visit.entered, groups, cut.regular, cut.turn, List.flatMap_append]
    rfl
  refine cut.above ?_ fun _ => lowerOnly.profile_eq
  have own := cut.own
  rw [entered] at own ⊢
  refine Lists.above_ofLog_own own ?_ ?_
  · rw [List.map_append]
    exact List.mem_append_left _
      ((mem_names_entered_iff _ _ _ _ _ _ _).mpr ⟨specific, begins, upperAt⟩)
  rw [List.map_append]
  refine Names.Followed.append (fun _ => .inr ?_) (Names.followed_of_not_mem ?_ _)
  · exact (mem_names_entered_iff _ _ _ _ _ _ _).mpr ⟨general, ends, lowerAt⟩
  · intro again
    rcases (mem_names_entered_iff _ _ _ _ _ _ _).mp again with ⟨other, behind, takenAt⟩
    have backwards : [specific, other].Sublist locations.reverse := by
      rw [split]
      exact (List.singleton_sublist.mpr begins).append (List.singleton_sublist.mpr behind)
    have less : [other, specific].Sublist locations := by
      rw [← List.reverse_reverse locations]
      exact backwards.reverse
    exact never other less ⟨environment, earlier, makes, takenAt⟩

/-- What only the last pass takes stands above what the first pass takes. -/
theorem above_of_left {setup : Setup} {visits : List Visit} {progress : Progress}
    (runs : Runs setup visits progress) {upper lower : String}
    (upperOnly : progress.TakenOnlyFor none upper) (lowerOnly : progress.TakenOnlyFor none lower)
    (late : ¬ progress.TakenAtFirst upper) (early : progress.TakenAtFirst lower) :
    Lists.Above (Lists.ofLog progress.log).stack upper lower := by
  rcases exists_phases_of_runs runs with ⟨start, turns, left, phases⟩
  rcases upperOnly.exists_taken with ⟨top, topTaken, _, rfl⟩
  rcases early with ⟨bottom, bottomTaken, regular, none, rfl⟩
  have logged : ∀ taken ∈ start ++ turns, taken ∈ progress.log := by
    intro taken member
    rw [phases.split]
    exact List.mem_append_left _ member
  have fresh : ∀ taken ∈ start ++ turns,
      taken.document.source.name ≠ top.document.source.name := by
    intro taken member named
    rcases List.mem_append.mp member with first | turn
    · rcases phases.start taken first with ⟨regular, forNone⟩
      exact late ⟨taken, logged taken member, regular, forNone, named⟩
    · rcases phases.turns taken turn with ⟨regular, different⟩
      exact different (upperOnly.profile_eq (logged taken member) regular named)
  apply phases.above_of_left
  · rw [phases.split, List.mem_append] at topTaken
    exact List.mem_map_of_mem (topTaken.resolve_left fun before => fresh top before rfl)
  · exact fresh
  · rw [phases.split, List.mem_append, List.mem_append] at bottomTaken
    rcases bottomTaken with (first | turn) | last
    · exact List.mem_map_of_mem first
    · exact absurd none (phases.turns bottom turn).2
    · rw [(phases.left bottom last).1] at regular
      cases regular
  · intro taken turn named
    have inside := logged taken (List.mem_append_right _ turn)
    rcases phases.turns taken turn with ⟨regular, different⟩
    exact different (lowerOnly.profile_eq inside regular named)

end Setup
end Assembly

namespace Assembler

/-- Of two listed locations the later one is the more specific.  Let the environment hold no two
sources of a name that is taken.  Then each of those names occurs once in the result.  Among
sources that stand in one list only, what a regular pass takes from the more specific location,
and not also from one that is listed before it, precedes what the same pass takes from the other
location.  What only the last pass takes precedes what the first pass takes.  In directories that
keep their files apart no pass takes one source from two locations. -/
theorem specific_precedes_general {assembler : Assembler} {environment assembled : Environment}
    (done : assembler.assemble environment = .ok assembled) {locations : List String}
    (listed : assembler.search.listed (reading environment) = .ok locations)
    (once : locations.Nodup) :
    ∃ progress, assembler.Completes environment assembled progress ∧
      ((∀ taken ∈ progress.log,
          environment.sources.names.count taken.document.source.name ≤ 1) →
        (∀ taken ∈ progress.log,
          assembled.sources.names.count taken.document.source.name = 1) ∧
        (∀ general specific, [general, specific].Sublist locations → ∀ profile upper lower,
          progress.TakenOnlyFor profile upper → progress.TakenOnlyFor profile lower →
          (assembler.setup (reading environment)).Collects profile specific upper →
          (∀ other, [other, specific].Sublist locations →
            ¬ (assembler.setup (reading environment)).Collects profile other upper) →
          (assembler.setup (reading environment)).Collects profile general lower →
          [upper, lower].Sublist assembled.sources.names) ∧
        ∀ upper lower, progress.TakenOnlyFor none upper → progress.TakenOnlyFor none lower →
          ¬ progress.TakenAtFirst upper → progress.TakenAtFirst lower →
          [upper, lower].Sublist assembled.sources.names) ∧
      ∀ names, assembler.search.allNames (reading environment) = .ok names →
        Assembly.Search.KeepsApart locations names →
        (∀ location ∈ locations, location.toList.getLast? = some '/') →
        (∀ claim ∈ Assembly.Search.claims assembler.loaders, '.' ∉ claim.1.toList) →
        ∀ profile name, ∀ left ∈ locations, ∀ right ∈ locations,
          (assembler.setup (reading environment)).Collects profile left name →
          (assembler.setup (reading environment)).Collects profile right name → left = right := by
  rcases exists_ordered_of_once done with ⟨progress, completes, ordered⟩
  rcases Assembly.Setup.exists_runs_of_run completes.ran with ⟨visits, runs⟩
  refine ⟨progress, completes, fun single => ⟨(ordered single).1, ?_, ?_⟩, ?_⟩
  · intro general specific before profile upper lower upperOnly lowerOnly above never below
    exact (ordered single).2 upper lower (Assembly.Setup.above_of_collects runs listed once before
      upperOnly lowerOnly above never below)
  · intro upper lower upperOnly lowerOnly late early
    exact (ordered single).2 upper lower
      (Assembly.Setup.above_of_left runs upperOnly lowerOnly late early)
  · intro names named apart directories dotless profile name left leftIn right rightIn first second
    exact location_eq_of_collects apart named dotless directories leftIn rightIn first second

/-- Two directories, one of them within the other, with base files of three names. -/
def nested (files : List (String × String)) : Assembler where
  store := .memory (KeyedList.ofList files)
  loaders := Loader.standard
  search := { locations := some "conf/,conf/extra/", names := some "app,svc,job" }

theorem listed_nested (files : List (String × String)) {environment : Environment}
    (bare : environment.sources = Sources.empty) :
    (nested files).search.listed (reading environment) = .ok ["conf/", "conf/extra/"] := by
  obtain ⟨sources, _, _, _, _⟩ := environment
  cases bare
  change Assembly.Search.listed ⟨some "conf/,conf/extra/", some "app,svc,job"⟩ _ = _
  cbv

theorem allNames_nested (files : List (String × String)) {environment : Environment}
    (bare : environment.sources = Sources.empty) :
    (nested files).search.allNames (reading environment) = .ok ["job", "svc", "app"] := by
  obtain ⟨sources, _, _, _, _⟩ := environment
  cases bare
  change Assembly.Search.allNames ⟨some "conf/,conf/extra/", some "app,svc,job"⟩ _ = _
  cbv

theorem keepsApart_nested :
    Assembly.Search.KeepsApart ["conf/", "conf/extra/"] ["job", "svc", "app"] where
  distinct := by decide
  unextended := by decide

/-- In each of the directories a base file without scope and one with a scope that names a
profile, and one left over. -/
def mixed : Assembler :=
  nested [("conf/app.properties", "port=80"), ("conf/extra/app.properties", "port=81"),
    ("conf/svc.properties", "autowire.config.activate.on-profile=dev\nport=82"),
    ("conf/extra/svc.properties", "autowire.config.activate.on-profile=dev\nport=83"),
    ("conf/job.properties", "autowire.config.activate.on-profile=!b\nport=84")]

theorem exists_run_mixed :
    ∃ progress, (mixed.setup (reading (Environment.initial.activate "dev"))).run = .ok progress ∧
      (progress.TakenOnlyFor none (Assembly.Library.sourceName "conf/app.properties") ∧
        progress.TakenOnlyFor none (Assembly.Library.sourceName "conf/extra/app.properties") ∧
        progress.TakenOnlyFor none (Assembly.Library.sourceName "conf/job.properties")) ∧
      (progress.TakenOnlyFor (some "dev") (Assembly.Library.sourceName "conf/svc.properties") ∧
        progress.TakenOnlyFor (some "dev")
          (Assembly.Library.sourceName "conf/extra/svc.properties")) ∧
      progress.TakenAtFirst (Assembly.Library.sourceName "conf/extra/app.properties") ∧
      ¬ progress.TakenAtFirst (Assembly.Library.sourceName "conf/job.properties") := by
  rcases exists_of_ranWithin mixed (Environment.initial.activate "dev") 1 (fun progress =>
    (progress.takesOnlyFor none (Assembly.Library.sourceName "conf/app.properties") &&
      (progress.takesOnlyFor none (Assembly.Library.sourceName "conf/extra/app.properties") &&
      progress.takesOnlyFor none (Assembly.Library.sourceName "conf/job.properties"))) &&
    ((progress.takesOnlyFor (some "dev") (Assembly.Library.sourceName "conf/svc.properties") &&
      progress.takesOnlyFor (some "dev")
        (Assembly.Library.sourceName "conf/extra/svc.properties")) &&
    (decide (progress.TakenAtFirst (Assembly.Library.sourceName "conf/extra/app.properties")) &&
    !decide (progress.TakenAtFirst (Assembly.Library.sourceName "conf/job.properties"))))) (by cbv)
    with ⟨progress, ran, held⟩
  simp only [Bool.and_eq_true, Bool.not_eq_true', decide_eq_true_eq, decide_eq_false_iff_not,
    ← Assembly.Progress.takenOnlyFor_iff] at held
  exact ⟨progress, ran, held⟩

/-- Where a pass for no profile or for the active one finds the files. -/
theorem collects_mixed :
    (∀ location ∈ ["conf/", "conf/extra/"],
      (mixed.setup (reading (Environment.initial.activate "dev"))).Collects none location
        (Assembly.Library.sourceName (location ++ "app.properties"))) ∧
      ∀ location ∈ ["conf/", "conf/extra/"],
        (mixed.setup (reading (Environment.initial.activate "dev"))).Collects (some "dev") location
          (Assembly.Library.sourceName (location ++ "svc.properties")) := by
  constructor
  · have found : (["conf/", "conf/extra/"].all fun location =>
        ((mixed.setup (reading (Environment.initial.activate "dev"))).namesAt .regular
          (mixed.setup (reading (Environment.initial.activate "dev"))).environment none []
            location).contains
              (Assembly.Library.sourceName (location ++ "app.properties"))) = true := by cbv
    intro location listed
    exact ⟨_, _, .first, List.contains_iff_mem.mp (List.all_eq_true.mp found location listed)⟩
  · have found : (["conf/", "conf/extra/"].all fun location =>
        (mixed.setup (reading (Environment.initial.activate "dev"))).collectsFirst "dev" location
          (Assembly.Library.sourceName (location ++ "svc.properties"))) = true := by cbv
    intro location listed
    exact Assembly.Setup.collects_of_collectsFirst (List.all_eq_true.mp found location listed)

/-- The more specific base file precedes the other one, also among those that are scoped to one
profile; what only the last pass takes precedes what the first pass takes, though it stands at the
other location. -/
theorem specific_precedes_general_mixed :
    ∃ assembled progress, mixed.assemble (Environment.initial.activate "dev") = .ok assembled ∧
      mixed.Completes (Environment.initial.activate "dev") assembled progress ∧
      mixed.search.listed (reading (Environment.initial.activate "dev")) =
        .ok ["conf/", "conf/extra/"] ∧
      (∀ taken ∈ progress.log, (Environment.initial.activate "dev").sources.names.count
        taken.document.source.name ≤ 1) ∧
      (progress.TakenOnlyFor none (Assembly.Library.sourceName "conf/app.properties") ∧
        progress.TakenOnlyFor none (Assembly.Library.sourceName "conf/extra/app.properties") ∧
        progress.TakenOnlyFor none (Assembly.Library.sourceName "conf/job.properties")) ∧
      (progress.TakenOnlyFor (some "dev") (Assembly.Library.sourceName "conf/svc.properties") ∧
        progress.TakenOnlyFor (some "dev")
          (Assembly.Library.sourceName "conf/extra/svc.properties")) ∧
      [Assembly.Library.sourceName "conf/extra/app.properties",
        Assembly.Library.sourceName "conf/app.properties"].Sublist assembled.sources.names ∧
      [Assembly.Library.sourceName "conf/extra/svc.properties",
        Assembly.Library.sourceName "conf/svc.properties"].Sublist assembled.sources.names ∧
      [Assembly.Library.sourceName "conf/job.properties",
        Assembly.Library.sourceName "conf/extra/app.properties"].Sublist
          assembled.sources.names := by
  rcases exists_run_mixed with ⟨ran, within, held⟩
  have done := assemble_of_run within rfl
  have listed : mixed.search.listed (reading (Environment.initial.activate "dev")) =
      .ok ["conf/", "conf/extra/"] := listed_nested _ rfl
  have once : ["conf/", "conf/extra/"].Nodup := by decide
  rcases specific_precedes_general done listed once with ⟨progress, completes, precede, apart⟩
  rw [Except.ok.inj (within.symm.trans completes.ran)] at held
  rcases held with ⟨forNone, forDev, early, late⟩
  have single : ∀ taken ∈ progress.log, (Environment.initial.activate "dev").sources.names.count
      taken.document.source.name ≤ 1 := fun _ _ => Nat.zero_le 1
  have dotless : ∀ claim ∈ Assembly.Search.claims mixed.loaders, '.' ∉ claim.1.toList := by
    change ∀ claim ∈ Assembly.Search.claims Loader.standard, '.' ∉ claim.1.toList
    rw [Assembly.claims_standard]
    decide
  have never : ∀ {profile name},
      (mixed.setup (reading (Environment.initial.activate "dev"))).Collects profile "conf/extra/"
        name →
      ∀ other, [other, "conf/extra/"].Sublist ["conf/", "conf/extra/"] →
        ¬ (mixed.setup (reading (Environment.initial.activate "dev"))).Collects profile other
          name := by
    intro profile name above other before also
    have only := apart _ (allNames_nested _ rfl) keepsApart_nested (by decide) dotless profile name
      other (before.subset List.mem_cons_self) "conf/extra/" (by decide) also above
    rw [only] at before
    exact absurd (once.sublist before) (by decide)
  rcases precede single with ⟨_, regular, left⟩
  rcases collects_mixed with ⟨plain, limited⟩
  refine ⟨_, progress, done, completes, listed, single, forNone, forDev, ?_, ?_,
    left _ _ forNone.2.2 forNone.2.1 late early⟩
  · have above := plain "conf/extra/" (by decide)
    exact regular "conf/" "conf/extra/" (List.Sublist.refl _) none _ _ forNone.2.1 forNone.1 above
      (never above) (plain "conf/" (by decide))
  · have above := limited "conf/extra/" (by decide)
    exact regular "conf/" "conf/extra/" (List.Sublist.refl _) (some "dev") _ _ forDev.2 forDev.1
      above (never above) (limited "conf/" (by decide))

/-- Of two base files the one in the less specific directory has a scope. -/
def scopedOutside : Assembler :=
  nested [("conf/app.properties", "autowire.config.activate.on-profile=!b\nport=80"),
    ("conf/extra/app.properties", "port=81")]

/-- What is left over at the less specific location comes first. -/
theorem general_precedes_specific_scopedOutside :
    ∃ assembled progress, scopedOutside.assemble Environment.initial = .ok assembled ∧
      scopedOutside.Completes Environment.initial assembled progress ∧
      scopedOutside.search.listed (reading Environment.initial) = .ok ["conf/", "conf/extra/"] ∧
      scopedOutside.search.allNames (reading Environment.initial) = .ok ["job", "svc", "app"] ∧
      Assembly.Search.KeepsApart ["conf/", "conf/extra/"] ["job", "svc", "app"] ∧
      progress.TakenOnlyFor none (Assembly.Library.sourceName "conf/extra/app.properties") ∧
      progress.TakenOnlyFor none (Assembly.Library.sourceName "conf/app.properties") ∧
      ¬ [Assembly.Library.sourceName "conf/extra/app.properties",
        Assembly.Library.sourceName "conf/app.properties"].Sublist assembled.sources.names := by
  rcases exists_of_ranWithin scopedOutside Environment.initial 1 (fun progress =>
    progress.takesOnlyFor none (Assembly.Library.sourceName "conf/extra/app.properties") &&
    (progress.takesOnlyFor none (Assembly.Library.sourceName "conf/app.properties") &&
    (decide (progress.TakenAtFirst (Assembly.Library.sourceName "conf/extra/app.properties")) &&
    !decide (progress.TakenAtFirst (Assembly.Library.sourceName "conf/app.properties"))))) (by cbv)
    with ⟨ran, within, held⟩
  simp only [Bool.and_eq_true, Bool.not_eq_true', decide_eq_true_eq, decide_eq_false_iff_not,
    ← Assembly.Progress.takenOnlyFor_iff] at held
  have done := assemble_of_run within rfl
  rcases exists_ordered_of_assemble (by decide) done with ⟨progress, completes, once, ordered⟩
  rw [Except.ok.inj (within.symm.trans completes.ran)] at held
  rcases held with ⟨extra, base, early, late⟩
  rcases Assembly.Setup.exists_runs_of_run completes.ran with ⟨visits, runs⟩
  have above := Assembly.Setup.above_of_left runs base extra late early
  exact ⟨_, progress, done, completes, listed_nested _ rfl, allNames_nested _ rfl,
    keepsApart_nested, extra, base,
    Names.not_sublist_of_nodup once (ordered _ _ above)⟩

end Assembler
end LayeredConfig
