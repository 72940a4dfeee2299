import LayeredConfig.Proofs.Assembly.BaseFiles
import LayeredConfig.Proofs.Assembly.Specificity

namespace LayeredConfig

open Property

/-!
# Which section of a file comes first

A pass enters the documents of a file backwards, so that of two documents that
the same probes take the later one comes first.  Where scopes make the
difference, it is the order of the probes that counts: a profile takes the
documents without scope from its own file before those scoped to it, and what
is left over for no profile is put in front of what the first pass took.
-/

namespace Assembly

/-! ## All documents of a resource -/

namespace Library

/-- These are all the documents of some resource: their sources have different names, and a probe
that finds one of the names finds them all, whatever it is after. -/
structure Holds (library : Library) (documents : List Document) : Prop where
  distinct : (documents.map fun document => document.source.name).Nodup
  whole : ∀ {probe : Probe} {others : List Document}, library.documents probe = .ok others →
    ∀ {document other : Document}, document ∈ documents → other ∈ others →
      other.source.name = document.source.name → others = documents
  unscoped : ∀ (probe : Probe) (scope : Option String),
    library.documents { probe with scope := scope } = library.documents probe

theorem holds_of_read {store : Resource.Store} {environment : Environment} {probe : Probe}
    {documents : List Document} (opened : read store environment probe = .ok documents)
    (several : 1 < documents.length) : (ofStore store environment).Holds documents where
  distinct := nodup_names_of_read opened
  whole := fun found _ _ inside within same =>
    documents_eq_of_name_eq opened several inside found within same
  unscoped := fun _ _ => read_congr_format rfl rfl

variable {library : Library} {documents : List Document}

theorem Holds.document_eq (holds : library.Holds documents) {probe : Probe}
    {others : List Document} (found : library.documents probe = .ok others)
    {document other : Document} (inside : document ∈ documents) (within : other ∈ others)
    (same : other.source.name = document.source.name) : other = document := by
  rw [holds.whole found inside within same] at within
  exact List.inj_on_of_nodup_map holds.distinct within inside same

end Library

/-! ## What a pass is after -/

namespace Search

theorem scope_of_mem_probes {search : Search} {loaders : List Loader} {environment : Environment}
    {profile : Option String} {earlier : List String} {probe : Probe}
    (member : .ok probe ∈ search.probes loaders environment profile earlier) :
    probe.scope = none ∨ probe.scope = profile := by
  rcases file_of_mem_probes member with ⟨_, base⟩ | ⟨_, _, _, _, scope, _⟩
  · exact .inr base
  · exact scope

/-- A profile looks into its own file for documents without scope first and for those scoped to
it after that. -/
theorem followed_profileProbes (base extension : String) (loader : Loader) (own : String)
    (earlier : List String) (reader : Loader) (location : String) :
    Names.Followed ⟨reader, location, none⟩ ⟨reader, location, some own⟩
      (profileProbes base extension loader (some own) earlier) := by
  unfold profileProbes
  simp only [List.cons_append]
  intro front back split
  cases front with
  | nil =>
      rcases List.cons.inj split with ⟨same, rest⟩
      cases same
      exact rest ▸ List.mem_cons_self
  | cons head tail =>
      have other : (⟨reader, location, none⟩ : Probe) ∈ tail ++ ⟨reader, location, none⟩ :: back :=
        List.mem_append_right _ List.mem_cons_self
      rw [List.cons_append] at split
      rw [← (List.cons.inj split).2] at other
      simp at other

/-- Wherever a pass for a profile looks for documents without scope, it looks for those scoped to
the profile after that. -/
theorem followed_probes (search : Search) (loaders : List Loader) (environment : Environment)
    (own : String) (earlier : List String) (reader : Loader) (location : String) :
    Names.Followed (.ok ⟨reader, location, none⟩) (.ok ⟨reader, location, some own⟩)
      (search.probes loaders environment (some own) earlier) := by
  unfold probes
  split
  · exact Names.followed_of_not_mem (by simp) _
  · refine Names.followed_flatMap fun _ place _ _ _ => .inl ?_
    split
    · unfold directoryProbes
      split
      · exact Names.followed_of_not_mem (by simp) _
      · refine Names.followed_flatMap fun _ name _ _ _ => .inl ?_
        refine Names.followed_flatMap fun _ claim _ _ _ => .inl ?_
        exact (followed_profileProbes _ _ _ own earlier reader location).map
          fun _ _ => Except.ok.inj
    · refine Names.followed_of_not_mem (fun listed => ?_) _
      rcases fileProbe_eq_ok_iff.mp (List.mem_singleton.mp listed).symm with ⟨_, _, same⟩
      cases same

end Search

/-! ## What one step contributes -/

namespace Setup

variable {setup : Setup} {documents : List Document} {pass : Document.Pass}
  {environment : Environment} {profile : Option String} {earlier : List String}

/-- The names of what a pass takes in one step, in the order of the log. -/
def namesBy (setup : Setup) (pass : Document.Pass) (environment : Environment)
    (step : Except Error Probe) : List String :=
  match setup.examine pass environment step with
  | .error _ => []
  | .ok group => group.reverse.map fun document => document.source.name

/-- The names of what a pass takes, step by step. -/
def namesOf (setup : Setup) (environment : Environment) (profile : Option String)
    (earlier : List String) : List String :=
  (setup.search.probes setup.loaders setup.environment profile earlier).flatMap
    (setup.namesBy .regular environment)

theorem names_entered_of_survey {groups : List (List Document)}
    (surveyed : setup.survey .regular environment profile earlier = .ok groups) :
    (Visit.entered ⟨.regular, profile, groups⟩).map (fun taken => taken.document.source.name) =
      setup.namesOf environment profile earlier := by
  have related := Traversal.mapM_eq_ok_iff.mp surveyed
  unfold namesOf
  clear surveyed
  generalize setup.search.probes setup.loaders setup.environment profile earlier = steps at related
  induction related with
  | nil => rfl
  | cons examined _ ih =>
      rw [List.flatMap_cons, ← ih, namesBy, examined]
      simp only [Visit.entered, List.flatMap_cons, List.map_append, List.map_map,
        Function.comp_def]

theorem namesBy_of_read {probe : Probe} (read : setup.library.documents probe = .ok documents) :
    setup.namesBy pass environment (.ok probe) =
      ((documents.filter fun document =>
        document.isTaken pass probe.scope environment).map fun document =>
          document.source.name).reverse := by
  have examined : setup.examine pass environment (.ok probe) = .ok _ :=
    examine_eq_ok_iff.mpr ⟨probe, documents, rfl, read, rfl⟩
  rw [namesBy, examined]
  exact List.map_reverse

theorem mem_namesBy_iff (holds : setup.library.Holds documents) {document : Document}
    (inside : document ∈ documents) {step : Except Error Probe} :
    document.source.name ∈ setup.namesBy pass environment step ↔
      ∃ probe, step = .ok probe ∧ setup.library.documents probe = .ok documents ∧
        document.isTaken pass probe.scope environment = true := by
  constructor
  · intro named
    unfold namesBy at named
    split at named
    · cases named
    · next group examined =>
        rcases examine_eq_ok_iff.mp examined with ⟨probe, others, rfl, read, rfl⟩
        rw [List.mem_map] at named
        rcases named with ⟨other, listed, same⟩
        rw [List.mem_reverse, List.mem_filter] at listed
        have equal := holds.document_eq read inside listed.1 same
        subst equal
        rw [holds.whole read inside listed.1 rfl] at read
        exact ⟨probe, rfl, read, listed.2⟩
  · rintro ⟨probe, rfl, read, taken⟩
    rw [namesBy_of_read read, List.mem_reverse]
    exact List.mem_map_of_mem (List.mem_filter.mpr ⟨inside, taken⟩)

/-- A pass is after documents without scope or those of its profile. -/
theorem exists_scope_of_mem_namesOf (holds : setup.library.Holds documents) {document : Document}
    (inside : document ∈ documents)
    (named : document.source.name ∈ setup.namesOf environment profile earlier) :
    ∃ scope, (scope = none ∨ scope = profile) ∧
      document.isTaken .regular scope environment = true := by
  rcases List.mem_flatMap.mp named with ⟨step, listed, behind⟩
  rcases (mem_namesBy_iff holds inside).mp behind with ⟨probe, rfl, _, taken⟩
  exact ⟨probe.scope, Search.scope_of_mem_probes listed, taken⟩

/-- Where the one document is taken, so is the other, which the log has behind it. -/
theorem followed_of_alike (holds : setup.library.Holds documents) {sooner later : Document}
    (ordered : [sooner, later].Sublist documents)
    (alike : ∀ scope, scope = none ∨ scope = profile →
      later.isTaken .regular scope environment = true →
        sooner.isTaken .regular scope environment = true) :
    Names.Followed later.source.name sooner.source.name
      (setup.namesOf environment profile earlier) := by
  have laterIn : later ∈ documents := ordered.subset (by simp)
  apply Names.followed_flatMap
  intro front step back split named
  left
  rcases (mem_namesBy_iff holds laterIn).mp named with ⟨probe, rfl, read, laterTaken⟩
  have listed : .ok probe ∈
      setup.search.probes setup.loaders setup.environment profile earlier :=
    split ▸ List.mem_append_right _ List.mem_cons_self
  have soonerTaken := alike probe.scope (Search.scope_of_mem_probes listed) laterTaken
  rw [namesBy_of_read read]
  apply Names.followed_of_sublist
  · exact List.nodup_reverse.mpr (holds.distinct.sublist (List.filter_sublist.map _))
  · have kept := ordered.filter fun document =>
      document.isTaken .regular probe.scope environment
    simp only [List.filter_cons, soonerTaken, laterTaken, if_true, List.filter_nil] at kept
    exact (kept.map fun document => document.source.name).reverse

/-- What a profile takes without scope comes from its own file, where what is scoped to it is taken
after that. -/
theorem followed_of_free (holds : setup.library.Holds documents) {free limited : Document}
    (freeIn : free ∈ documents) (limitedIn : limited ∈ documents) (unscoped : free.scope = [])
    {own : String} (taken : limited.isTaken .regular (some own) environment = true) :
    Names.Followed free.source.name limited.source.name
      (setup.namesOf environment (some own) earlier) := by
  apply Names.followed_flatMap
  intro front step back split named
  right
  rcases (mem_namesBy_iff holds freeIn).mp named with ⟨⟨loader, location, scope⟩, rfl, read, only⟩
  cases scope with
  | some name =>
      have among : name ∈ free.scope := of_decide_eq_true (Bool.and_eq_true_iff.mp only).1
      rw [unscoped] at among
      cases among
  | none =>
      have behind := Search.followed_probes setup.search setup.loaders setup.environment own earlier
        loader location front back split
      refine List.mem_flatMap.mpr ⟨_, behind, (mem_namesBy_iff holds limitedIn).mpr ?_⟩
      exact ⟨_, rfl, (holds.unscoped ⟨loader, location, none⟩ (some own)).trans read, taken⟩

/-! ## Which pass takes a document -/

theorem profile_eq_none_of_leftover {progress : Progress} (ran : setup.run = .ok progress)
    {taken : Taken} (member : taken ∈ progress.log) (leftover : taken.pass = .leftover) :
    taken.profile = none := by
  rcases exists_runs_of_run ran with ⟨visits, runs⟩
  rcases exists_phases_of_runs runs with ⟨start, turns, left, phases⟩
  rw [phases.split, List.mem_append, List.mem_append] at member
  rcases member with (first | turn) | last
  · exact (phases.start taken first).2
  · rw [(phases.turns taken turn).1] at leftover
    cases leftover
  · exact (phases.left taken last).2

/-- Scoped documents that no profile brought in are left over; all others are taken by a regular
pass. -/
theorem regular_iff_of_run {progress : Progress} (ran : setup.run = .ok progress) {taken : Taken}
    (member : taken ∈ progress.log) :
    taken.pass = .regular ↔ taken.document.scope = [] ∨ taken.profile ≠ none := by
  rcases exists_probe_of_run ran member with ⟨probe, brought | ⟨leftover, found⟩⟩
  · cases brought with
    | first found =>
        have scope := Search.scope_of_mem_probes found.probed
        rw [or_self] at scope
        have free := found.taken
        rw [scope] at free
        exact iff_of_true rfl (.inl (List.isEmpty_iff.mp free))
    | turn _ _ _ _ _ _ => exact iff_of_true rfl (.inr (Option.some_ne_none _))
  · have limited := Document.scope_ne_nil_of_isTaken_leftover found.taken
    have forNone := profile_eq_none_of_leftover ran member leftover
    rw [leftover]
    refine iff_of_false (by decide) ?_
    rw [not_or, not_not]
    exact ⟨limited, forNone⟩

theorem document_eq_of_taken (holds : setup.library.Holds documents) {progress : Progress}
    (ran : setup.run = .ok progress) {taken : Taken} (member : taken ∈ progress.log)
    {document : Document} (inside : document ∈ documents)
    (named : taken.document.source.name = document.source.name) : taken.document = document := by
  rcases exists_finds_of_run ran member with ⟨_, _, _, _, probe, found⟩
  rcases found.read with ⟨others, read, within⟩
  exact holds.document_eq read inside within named

/-- A name that one list only has belongs to a document that was taken for its profile. -/
theorem exists_taken_of_only (holds : setup.library.Holds documents) {progress : Progress}
    (ran : setup.run = .ok progress) {document : Document} (inside : document ∈ documents)
    (only : progress.TakenOnlyFor profile document.source.name) :
    ∃ taken ∈ progress.log, taken.document = document ∧ taken.profile = profile := by
  rcases only.exists_taken with ⟨taken, logged, turn, named⟩
  exact ⟨taken, logged, document_eq_of_taken holds ran logged inside named, turn⟩

theorem CutAt.mem_entered {log sooner later left : List Taken} {visit : Visit}
    (cut : CutAt setup log profile sooner later left visit) {taken : Taken} (member : taken ∈ log)
    (turn : taken.profile = profile) (regular : taken.pass = .regular) :
    taken ∈ visit.entered := by
  rw [cut.split, List.mem_append, List.mem_append, List.mem_append] at member
  rcases member with ((early | within) | late) | last
  · exact absurd turn (cut.before taken early)
  · exact within
  · exact absurd turn (cut.after taken late).2.1
  · rw [(cut.last taken last).1] at regular
    cases regular

theorem CutAt.names_entered {log sooner later left : List Taken} {visit : Visit}
    (cut : CutAt setup log profile sooner later left visit) :
    ∃ environment earlier, (visit.entered.map fun taken => taken.document.source.name) =
      setup.namesOf environment profile earlier := by
  rcases cut.made with ⟨environment, earlier, _, surveyed⟩
  rcases visit with ⟨pass, turn, groups⟩
  cases cut.regular
  cases cut.turn
  exact ⟨environment, earlier, names_entered_of_survey surveyed⟩

/-- A document stands above another that its pass always takes again after it. -/
theorem above_of_followed (holds : setup.library.Holds documents) {progress : Progress}
    (ran : setup.run = .ok progress) {upper lower : Document} (upperIn : upper ∈ documents)
    (lowerIn : lower ∈ documents) (upperOnly : progress.TakenOnlyFor profile upper.source.name)
    (lowerOnly : progress.TakenOnlyFor profile lower.source.name)
    (upperRegular : upper.scope = [] ∨ profile ≠ none)
    (lowerRegular : lower.scope = [] ∨ profile ≠ none)
    (followed : ∀ environment earlier,
      lower.source.name ∈ setup.namesOf environment profile earlier →
        Names.Followed upper.source.name lower.source.name
          (setup.namesOf environment profile earlier)) :
    Lists.Above (Lists.ofLog progress.log).stack upper.source.name lower.source.name := by
  rcases exists_runs_of_run ran with ⟨visits, runs⟩
  rcases exists_taken_of_only holds ran upperIn upperOnly with ⟨top, topTaken, rfl, rfl⟩
  rcases exists_taken_of_only holds ran lowerIn lowerOnly with ⟨bottom, bottomTaken, rfl, turn⟩
  rcases exists_cut_of_runs runs topTaken with ⟨sooner, later, left, visit, cut⟩
  have topEntered := cut.mem_entered topTaken rfl
    ((regular_iff_of_run ran topTaken).mpr upperRegular)
  have bottomEntered := cut.mem_entered bottomTaken turn
    ((regular_iff_of_run ran bottomTaken).mpr (turn ▸ lowerRegular))
  rcases cut.names_entered with ⟨environment, earlier, names⟩
  refine cut.above (Lists.above_ofLog_own cut.own (List.mem_map_of_mem topEntered) ?_)
    fun _ => lowerOnly.profile_eq
  rw [names]
  exact followed environment earlier (names ▸ List.mem_map_of_mem bottomEntered)

/-- What is left over stands above what the first pass takes. -/
theorem above_of_limited (holds : setup.library.Holds documents) {progress : Progress}
    (ran : setup.run = .ok progress) {limited free : Document} (limitedIn : limited ∈ documents)
    (freeIn : free ∈ documents) (scope : limited.scope ≠ []) (unscoped : free.scope = [])
    (upperOnly : progress.TakenOnlyFor none limited.source.name)
    (lowerOnly : progress.TakenOnlyFor none free.source.name) :
    Lists.Above (Lists.ofLog progress.log).stack limited.source.name free.source.name := by
  rcases exists_runs_of_run ran with ⟨visits, runs⟩
  refine above_of_left runs upperOnly lowerOnly ?_ ?_
  · rintro ⟨taken, logged, regular, forNone, named⟩
    have same := document_eq_of_taken holds ran logged limitedIn named
    rw [regular_iff_of_run ran logged, same, forNone] at regular
    exact regular.elim scope fun turn => turn rfl
  · rcases exists_taken_of_only holds ran freeIn lowerOnly with ⟨taken, logged, rfl, forNone⟩
    exact ⟨taken, logged, (regular_iff_of_run ran logged).mpr (.inl unscoped), forNone, rfl⟩

theorem isTaken_own_of_mem_namesOf (holds : setup.library.Holds documents) {document : Document}
    (inside : document ∈ documents) (limited : document.scope ≠ []) {own : String}
    (named : document.source.name ∈ setup.namesOf environment (some own) earlier) :
    document.isTaken .regular (some own) environment = true := by
  rcases exists_scope_of_mem_namesOf holds inside named with ⟨scope, rfl | rfl, taken⟩
  · exact absurd (List.isEmpty_iff.mp taken) limited
  · exact taken

end Setup

/-! ## Sections of one file -/

/-- Which of two documents of a resource comes first when only the list of a profile has them, or
only that for none. -/
inductive Outranks (documents : List Document) : Option String → Document → Document → Prop where
  /-- Of two documents without scope the later one. -/
  | bothFree {profile : Option String} {sooner later : Document}
      (ordered : [sooner, later].Sublist documents) (soonerFree : sooner.scope = [])
      (laterFree : later.scope = []) : Outranks documents profile later sooner
  /-- For a profile, of two documents with a scope the later one. -/
  | bothLimited {own : String} {sooner later : Document}
      (ordered : [sooner, later].Sublist documents) (soonerLimited : sooner.scope ≠ [])
      (laterLimited : later.scope ≠ []) : Outranks documents (some own) later sooner
  /-- For a profile, a document without scope. -/
  | free {own : String} {free limited : Document} (freeIn : free ∈ documents)
      (limitedIn : limited ∈ documents) (unscoped : free.scope = [])
      (scope : limited.scope ≠ []) : Outranks documents (some own) free limited
  /-- For no profile, a document with a scope. -/
  | leftOver {limited free : Document} (limitedIn : limited ∈ documents)
      (freeIn : free ∈ documents) (scope : limited.scope ≠ [])
      (unscoped : free.scope = []) : Outranks documents none limited free

theorem several_of_scopes {documents : List Document} {free limited : Document}
    (freeIn : free ∈ documents) (limitedIn : limited ∈ documents) (unscoped : free.scope = [])
    (scope : limited.scope ≠ []) : 1 < documents.length := by
  match documents with
  | [] => cases freeIn
  | [only] =>
      rw [List.mem_singleton.mp limitedIn, ← List.mem_singleton.mp freeIn] at scope
      exact absurd unscoped scope
  | _ :: _ :: rest => exact Nat.succ_lt_succ (Nat.zero_lt_succ _)

namespace Outranks

variable {documents : List Document} {profile : Option String} {upper lower : Document}

theorem several (outranks : Outranks documents profile upper lower) : 1 < documents.length := by
  cases outranks with
  | bothFree ordered _ _ => exact ordered.length_le
  | bothLimited ordered _ _ => exact ordered.length_le
  | free freeIn limitedIn unscoped scope =>
      exact several_of_scopes freeIn limitedIn unscoped scope
  | leftOver limitedIn freeIn scope unscoped =>
      exact several_of_scopes freeIn limitedIn unscoped scope

theorem above {setup : Setup} (outranks : Outranks documents profile upper lower)
    (holds : setup.library.Holds documents) {progress : Progress}
    (ran : setup.run = .ok progress) (upperOnly : progress.TakenOnlyFor profile upper.source.name)
    (lowerOnly : progress.TakenOnlyFor profile lower.source.name) :
    Lists.Above (Lists.ofLog progress.log).stack upper.source.name lower.source.name := by
  cases outranks with
  | bothFree ordered soonerFree laterFree =>
      refine Setup.above_of_followed holds ran (ordered.subset (by simp))
        (ordered.subset (by simp)) upperOnly lowerOnly (.inl laterFree) (.inl soonerFree) ?_
      intro environment earlier _
      refine Setup.followed_of_alike holds ordered fun scope _ taken => ?_
      rwa [Document.isTaken_congr_free soonerFree laterFree]
  | @bothLimited own _ _ ordered soonerLimited laterLimited =>
      have turn : some own ≠ none := Option.some_ne_none own
      have soonerIn : lower ∈ documents := ordered.subset (by simp)
      refine Setup.above_of_followed holds ran (ordered.subset (by simp)) soonerIn upperOnly
        lowerOnly (.inr turn) (.inr turn) ?_
      intro environment earlier named
      have taken := Setup.isTaken_own_of_mem_namesOf holds soonerIn soonerLimited named
      refine Setup.followed_of_alike holds ordered fun scope among laterTaken => ?_
      rcases among with rfl | rfl
      · exact absurd (List.isEmpty_iff.mp laterTaken) laterLimited
      · exact taken
  | @free own _ _ freeIn limitedIn unscoped scope =>
      have turn : some own ≠ none := Option.some_ne_none own
      refine Setup.above_of_followed holds ran freeIn limitedIn upperOnly lowerOnly (.inr turn)
        (.inr turn) ?_
      intro environment earlier named
      exact Setup.followed_of_free holds freeIn limitedIn unscoped
        (Setup.isTaken_own_of_mem_namesOf holds limitedIn scope named)
  | leftOver limitedIn freeIn scope unscoped =>
      exact Setup.above_of_limited holds ran limitedIn freeIn scope unscoped upperOnly lowerOnly

end Outranks
end Assembly

namespace Assembler

/-- Let the environment hold no two sources of a name that is taken.  Then each of those names
occurs once in the result.  Of two sections of one file without scope, which stand in the list of
one profile only or in that for none only, the later one comes first, and likewise of two with a
scope that stand in the list of one profile only.  For a profile a section without scope comes
before one with a scope, and for none it comes after it. -/
theorem later_sections_precede {assembler : Assembler} {environment assembled : Environment}
    (done : assembler.assemble environment = .ok assembled) :
    ∃ progress, assembler.Completes environment assembled progress ∧
      ((∀ taken ∈ progress.log,
          environment.sources.names.count taken.document.source.name ≤ 1) →
        (∀ taken ∈ progress.log,
          assembled.sources.names.count taken.document.source.name = 1) ∧
        ∀ loader location documents,
          assembler.documentsAt (reading environment) loader location = .ok documents →
            ∀ profile upper lower, Assembly.Outranks documents profile upper lower →
              progress.TakenOnlyFor profile upper.source.name →
              progress.TakenOnlyFor profile lower.source.name →
              [upper.source.name, lower.source.name].Sublist assembled.sources.names) := by
  rcases exists_ordered_of_once done with ⟨progress, completes, ordered⟩
  refine ⟨progress, completes, fun once => ⟨(ordered once).1, ?_⟩⟩
  intro loader location documents read profile upper lower outranks upperOnly lowerOnly
  have holds := Assembly.Library.holds_of_read read outranks.several
  exact (ordered once).2 _ _ (outranks.above holds completes.ran upperOnly lowerOnly)

/-- The names and the scopes of the sections in a file. -/
def sectionsAt (assembler : Assembler) (environment : Environment) (loader : Loader)
    (location : String) : Except Error (List (String × List String)) :=
  (assembler.documentsAt environment loader location).map
    (List.map fun document => (document.source.name, document.scope))

theorem exists_documents_of_sectionsAt {assembler : Assembler} {environment : Environment}
    {loader : Loader} {location : String} {sections : List (String × List String)}
    (listed : assembler.sectionsAt environment loader location = .ok sections) :
    ∃ documents, assembler.documentsAt environment loader location = .ok documents ∧
      documents.map (fun document => (document.source.name, document.scope)) = sections := by
  unfold sectionsAt at listed
  cases read : assembler.documentsAt environment loader location with
  | error error =>
      rw [read] at listed
      cases listed
  | ok documents =>
      rw [read] at listed
      exact ⟨documents, rfl, Except.ok.inj listed⟩

/-- The file of a profile in three sections, the second of which has a scope, and a base file in
two sections that are scoped to the profile. -/
def withSections : Assembler :=
  ofFiles [("conf/app-dev.yml",
      "\"k\": \"a\"\n---\n\"autowire.config.activate.on-profile\": \"dev\"\n---\n\"k\": \"c\""),
    ("conf/app.yml", "\"autowire.config.activate.on-profile\": \"dev\"\n---\n" ++
      "\"autowire.config.activate.on-profile\": \"dev\"")]

set_option maxRecDepth 20000 in
theorem sectionsAt_withSections :
    withSections.sectionsAt (reading (Environment.initial.activate "dev")) Loader.yaml
        "conf/app-dev.yml" =
      .ok [(Assembly.Library.numberedName "conf/app-dev.yml" 0, []),
        (Assembly.Library.numberedName "conf/app-dev.yml" 1, ["dev"]),
        (Assembly.Library.numberedName "conf/app-dev.yml" 2, [])] := by
  cbv

set_option maxRecDepth 20000 in
theorem sectionsAt_withSections_base :
    withSections.sectionsAt (reading (Environment.initial.activate "dev")) Loader.yaml
        "conf/app.yml" =
      .ok [(Assembly.Library.numberedName "conf/app.yml" 0, ["dev"]),
        (Assembly.Library.numberedName "conf/app.yml" 1, ["dev"])] := by
  cbv

theorem exists_documents_withSections :
    ∃ first second third, withSections.documentsAt (reading (Environment.initial.activate "dev"))
        Loader.yaml "conf/app-dev.yml" = .ok [first, second, third] ∧
      first.source.name = Assembly.Library.numberedName "conf/app-dev.yml" 0 ∧
      second.source.name = Assembly.Library.numberedName "conf/app-dev.yml" 1 ∧
      third.source.name = Assembly.Library.numberedName "conf/app-dev.yml" 2 ∧
      first.scope = [] ∧ second.scope ≠ [] ∧ third.scope = [] := by
  rcases exists_documents_of_sectionsAt sectionsAt_withSections with ⟨documents, read, listed⟩
  simp only [List.map_eq_cons_iff, List.map_eq_nil_iff, Prod.mk.injEq] at listed
  rcases listed with ⟨first, _, rfl, one, second, _, rfl, two, third, _, rfl, three, rfl⟩
  refine ⟨first, second, third, read, one.1, two.1, three.1, one.2, ?_, three.2⟩
  rw [two.2]
  exact List.cons_ne_nil _ _

theorem exists_documents_withSections_base :
    ∃ first second, withSections.documentsAt (reading (Environment.initial.activate "dev"))
        Loader.yaml "conf/app.yml" = .ok [first, second] ∧
      first.source.name = Assembly.Library.numberedName "conf/app.yml" 0 ∧
      second.source.name = Assembly.Library.numberedName "conf/app.yml" 1 ∧
      first.scope ≠ [] ∧ second.scope ≠ [] := by
  rcases exists_documents_of_sectionsAt sectionsAt_withSections_base with ⟨documents, read, listed⟩
  simp only [List.map_eq_cons_iff, List.map_eq_nil_iff, Prod.mk.injEq] at listed
  rcases listed with ⟨first, _, rfl, one, second, _, rfl, two, rfl⟩
  refine ⟨first, second, read, one.1, two.1, ?_, ?_⟩
  · rw [one.2]
    exact List.cons_ne_nil _ _
  · rw [two.2]
    exact List.cons_ne_nil _ _

set_option maxRecDepth 20000 in
theorem exists_run_withSections :
    ∃ progress, (withSections.setup (reading (Environment.initial.activate "dev"))).run =
        .ok progress ∧
      (∀ index ∈ List.range 3, progress.TakenOnlyFor (some "dev")
        (Assembly.Library.numberedName "conf/app-dev.yml" index)) ∧
      ∀ index ∈ List.range 2, progress.TakenOnlyFor (some "dev")
        (Assembly.Library.numberedName "conf/app.yml" index) := by
  rcases exists_of_ranWithin withSections (Environment.initial.activate "dev") 1
    (fun progress =>
      ((List.range 3).all fun index => progress.takesOnlyFor (some "dev")
        (Assembly.Library.numberedName "conf/app-dev.yml" index)) &&
      (List.range 2).all fun index => progress.takesOnlyFor (some "dev")
        (Assembly.Library.numberedName "conf/app.yml" index)) (by cbv) with
    ⟨progress, ran, held⟩
  simp only [Bool.and_eq_true, List.all_eq_true, ← Assembly.Progress.takenOnlyFor_iff] at held
  exact ⟨progress, ran, held⟩

theorem later_sections_precede_withSections :
    ∃ assembled progress,
      withSections.assemble (Environment.initial.activate "dev") = .ok assembled ∧
      withSections.Completes (Environment.initial.activate "dev") assembled progress ∧
      (∀ taken ∈ progress.log, (Environment.initial.activate "dev").sources.names.count
        taken.document.source.name ≤ 1) ∧
      (∀ index ∈ List.range 3, progress.TakenOnlyFor (some "dev")
        (Assembly.Library.numberedName "conf/app-dev.yml" index)) ∧
      (∀ index ∈ List.range 2, progress.TakenOnlyFor (some "dev")
        (Assembly.Library.numberedName "conf/app.yml" index)) ∧
      [Assembly.Library.numberedName "conf/app-dev.yml" 2,
        Assembly.Library.numberedName "conf/app-dev.yml" 0].Sublist assembled.sources.names ∧
      [Assembly.Library.numberedName "conf/app-dev.yml" 0,
        Assembly.Library.numberedName "conf/app-dev.yml" 1].Sublist assembled.sources.names ∧
      [Assembly.Library.numberedName "conf/app.yml" 1,
        Assembly.Library.numberedName "conf/app.yml" 0].Sublist assembled.sources.names := by
  rcases exists_run_withSections with ⟨ran, within, only⟩
  rcases exists_documents_withSections with
    ⟨first, second, third, read, one, two, three, free, limited, freeToo⟩
  rcases exists_documents_withSections_base with
    ⟨sooner, later, readBase, soonerName, laterName, soonerLimited, laterLimited⟩
  have done := assemble_of_run within rfl
  rcases later_sections_precede done with ⟨progress, completes, precede⟩
  rw [Except.ok.inj (within.symm.trans completes.ran)] at only
  have once : ∀ taken ∈ progress.log, (Environment.initial.activate "dev").sources.names.count
      taken.document.source.name ≤ 1 := fun _ _ => Nat.zero_le 1
  refine ⟨_, progress, done, completes, once, only.1, only.2, ?_⟩
  have firstOnly := only.1 0 (by decide)
  have secondOnly := only.1 1 (by decide)
  have thirdOnly := only.1 2 (by decide)
  have soonerOnly := only.2 0 (by decide)
  have laterOnly := only.2 1 (by decide)
  rw [← one] at firstOnly ⊢
  rw [← two] at secondOnly ⊢
  rw [← three] at thirdOnly ⊢
  rw [← soonerName] at soonerOnly ⊢
  rw [← laterName] at laterOnly ⊢
  have ordered := (precede once).2 _ _ _ read (some "dev")
  refine ⟨ordered third first (.bothFree (by simp) free freeToo) thirdOnly firstOnly,
    ordered first second (.free (by simp) (by simp) free limited) firstOnly secondOnly, ?_⟩
  exact (precede once).2 _ _ _ readBase (some "dev") later sooner
    (.bothLimited (by simp) soonerLimited laterLimited) laterOnly soonerOnly

/-- A base file in two sections, the first of which has a scope. -/
def withLeftOver : Assembler :=
  ofFiles [("conf/app.yml",
    "\"autowire.config.activate.on-profile\": \"!b\"\n---\n\"k\": \"b\"")]

set_option maxRecDepth 20000 in
theorem sectionsAt_withLeftOver :
    withLeftOver.sectionsAt (reading Environment.initial) Loader.yaml "conf/app.yml" =
      .ok [(Assembly.Library.numberedName "conf/app.yml" 0, ["!b"]),
        (Assembly.Library.numberedName "conf/app.yml" 1, [])] := by
  cbv

set_option maxRecDepth 20000 in
theorem exists_run_withLeftOver :
    ∃ progress, (withLeftOver.setup (reading Environment.initial)).run = .ok progress ∧
      ∀ index ∈ List.range 2, progress.TakenOnlyFor none
        (Assembly.Library.numberedName "conf/app.yml" index) := by
  rcases exists_of_ranWithin withLeftOver Environment.initial 1
    (fun progress => (List.range 2).all fun index => progress.takesOnlyFor none
      (Assembly.Library.numberedName "conf/app.yml" index)) (by cbv) with
    ⟨progress, ran, held⟩
  simp only [List.all_eq_true, ← Assembly.Progress.takenOnlyFor_iff] at held
  exact ⟨progress, ran, held⟩

/-- A later section of a file need not precede a sooner one, though only the one list has them. -/
def Reverses (assembler : Assembler) (environment : Environment) (profile : Option String) :
    Prop :=
  ∃ assembled progress loader location documents sooner later,
    assembler.assemble environment = .ok assembled ∧
    assembler.Completes environment assembled progress ∧
    assembler.documentsAt (reading environment) loader location = .ok documents ∧
    [sooner, later].Sublist documents ∧
    progress.TakenOnlyFor profile sooner.source.name ∧
    progress.TakenOnlyFor profile later.source.name ∧
    ¬ [later.source.name, sooner.source.name].Sublist assembled.sources.names

theorem reverses_of_outranks {assembler : Assembler} {environment assembled : Environment}
    {progress : Assembly.Progress} {profile : Option String} {loader : Loader} {location : String}
    {documents : List Document} {sooner later : Document}
    (distinct : environment.sources.names.Nodup)
    (done : assembler.assemble environment = .ok assembled)
    (ran : (assembler.setup (reading environment)).run = .ok progress)
    (read : assembler.documentsAt (reading environment) loader location = .ok documents)
    (ordered : [sooner, later].Sublist documents)
    (outranks : Assembly.Outranks documents profile sooner later)
    (soonerOnly : progress.TakenOnlyFor profile sooner.source.name)
    (laterOnly : progress.TakenOnlyFor profile later.source.name) :
    assembler.Reverses environment profile := by
  rcases exists_ordered_of_assemble distinct done with ⟨same, completes, once, precede⟩
  cases ran.symm.trans completes.ran
  have holds := Assembly.Library.holds_of_read read outranks.several
  have above := outranks.above holds ran soonerOnly laterOnly
  exact ⟨assembled, progress, loader, location, documents, sooner, later, done, completes, read,
    ordered, soonerOnly, laterOnly, Names.not_sublist_of_nodup once (precede _ _ above)⟩

/-- Sections can stand in their order in the result, both for a profile and for none. -/
theorem sooner_sections_precede :
    withSections.Reverses (Environment.initial.activate "dev") (some "dev") ∧
      withLeftOver.Reverses Environment.initial none := by
  constructor
  · rcases exists_run_withSections with ⟨progress, ran, only⟩
    rcases exists_documents_withSections with
      ⟨first, second, third, read, one, two, _, free, limited, _⟩
    refine reverses_of_outranks (by decide) (assemble_of_run ran rfl) ran read (by simp)
      (.free (by simp) (by simp) free limited) ?_ ?_
    · exact one ▸ only.1 0 (by decide)
    · exact two ▸ only.1 1 (by decide)
  · rcases exists_run_withLeftOver with ⟨progress, ran, only⟩
    rcases exists_documents_of_sectionsAt sectionsAt_withLeftOver with ⟨documents, read, listed⟩
    simp only [List.map_eq_cons_iff, List.map_eq_nil_iff, Prod.mk.injEq] at listed
    rcases listed with ⟨first, _, rfl, one, second, _, rfl, two, rfl⟩
    have limited : first.scope ≠ [] := by
      rw [one.2]
      exact List.cons_ne_nil _ _
    refine reverses_of_outranks (by decide) (assemble_of_run ran rfl) ran read (by simp)
      (.leftOver (by simp) (by simp) limited two.2) ?_ ?_
    · exact one.1 ▸ only 0 (by decide)
    · exact two.1 ▸ only 1 (by decide)

end Assembler
end LayeredConfig
