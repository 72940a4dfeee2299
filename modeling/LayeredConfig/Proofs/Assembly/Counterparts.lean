import LayeredConfig.Proofs.Assembly.Documents
import LayeredConfig.Proofs.Assembly.OwnTurns
import LayeredConfig.Proofs.Assembly.TurnOrder
import LayeredConfig.Proofs.Environment

namespace LayeredConfig

open Property

/-!
# Runs that give the same profiles their turns in another order

A section of a base file counts in the turn of whichever profile it is scoped
to.  A section of the file of a profile counts in the turn of that profile and in
later turns, so that it may matter which turns are later.  Where no section hangs
on that, whatever one run takes has a counterpart in the log of the other, and
the same profiles have their turns.
-/

namespace Assembly

/-! ## Files that both runs look at -/

/-- A base file, or the own file of one of the profiles. -/
def Setup.LooksAt (setup : Setup) (profiles : List String) (loader : Loader) (location : String) :
    Prop :=
  setup.search.BaseFile setup.loaders setup.environment loader location ∨
    ∃ name ∈ profiles,
      setup.search.ProfileFile setup.loaders setup.environment name loader location

theorem Setup.SamePlaces.looksAt {setup other : Setup} (places : setup.SamePlaces other)
    {profiles : List String} {loader : Loader} {location : String}
    (looked : setup.LooksAt profiles loader location) : other.LooksAt profiles loader location :=
  looked.imp places.baseFile fun ⟨name, listed, specific⟩ =>
    ⟨name, listed, places.profileFile specific⟩

/-! ## Settled queues -/

/-- A settled queue lets in only what documents include. -/
theorem Queue.names_noteAll_of_settled {queue : Queue} (settled : queue.settled = true)
    {known : List String} {documents : List Document} (inside : queue.names ⊆ known)
    (members : ∀ document ∈ documents, document.included ⊆ known) :
    (documents.foldl note queue).names ⊆ known := by
  induction documents generalizing queue with
  | nil => exact inside
  | cons head tail ih =>
      rw [List.foldl_cons, note_of_settled settled]
      refine ih ((settled_enterAll queue head.included).trans settled)
        (names_enterAll_subset inside (members head List.mem_cons_self)) ?_
      exact fun document later => members document (List.mem_cons_of_mem _ later)

/-- Where some profile is asked for, only those that are stand in the queue at the start. -/
theorem Setup.requests_of_mem_start {setup : Setup} {queue : Queue}
    (queued : setup.queue = .ok queue) {asked : String} (asks : setup.Requests asked)
    {name : String} (member : name ∈ queue.names) : setup.Requests name := by
  have plain := (consistent_start queued).plain asks
  rcases queue_eq_ok_iff.mp queued with ⟨activated, included, first, second, rfl⟩
  have listed : name ∈ Queue.wanted setup.environment activated included := by
    rw [← Queue.line_start]
    rcases List.mem_map.mp member with ⟨profile, stands, rfl⟩
    refine List.mem_map_of_mem (List.mem_filter.mpr ⟨?_, ?_⟩)
    · exact List.mem_append.mpr (List.mem_append.mp stands).symm
    · rw [plain profile stands]
      rfl
  exact (requests_iff first second name).mpr ((Queue.mem_wanted_iff _ _ _ name).mp listed)

end Assembly

/-- Two documents that count under the same conditions, include the same profiles and have sources
of one name, and whose scope names those of the profiles that it lists by plain names. -/
structure Document.Matches (profiles : List String) (document other : Document) : Prop where
  same : document.SameButActive other
  plain : ∀ name ∈ document.scope, name ∈ profiles →
    Profile.Expression.parse name = .ok (.name name)

theorem Document.SameButActive.symm {document other : Document}
    (same : document.SameButActive other) : other.SameButActive document :=
  ⟨same.name.symm, same.scope.symm, same.expressions.symm, same.included.symm⟩

theorem Document.Matches.symm {profiles : List String} {document other : Document}
    (both : document.Matches profiles other) : other.Matches profiles document where
  same := both.same.symm
  plain := both.same.scope ▸ both.plain

namespace Assembler

open Assembly

/-- The two environments lead to the same files.  The files that have to do with the profiles hold
documents that match. -/
structure ReadsAlike (assembler : Assembler) (profiles : List String) (left right : Environment) :
    Prop where
  places : (assembler.setup left).SamePlaces (assembler.setup right)
  documents : ∀ loader location, (assembler.setup left).LooksAt profiles loader location →
    ∀ documents others, Library.read assembler.store left ⟨loader, location, none⟩ = .ok documents →
      Library.read assembler.store right ⟨loader, location, none⟩ = .ok others →
      List.Forall₂ (Document.Matches profiles) documents others

/-- A section in the own file of a profile that is scoped to a profile with a later turn, which
has a sooner one in the other order, is scoped to its own profile as well or to one that is later
in the other order too. -/
def Spared (assembler : Assembler) (environment : Environment) (order other : List String) : Prop :=
  ∀ own name, [own, name].Sublist order → [name, own].Sublist other → ∀ loader location,
    assembler.search.ProfileFile assembler.loaders environment own loader location →
    ∀ documents, Library.read assembler.store environment ⟨loader, location, none⟩ = .ok documents →
      ∀ document ∈ documents, name ∈ document.scope →
        own ∈ document.scope ∨
          ∃ later ∈ document.scope, later ∈ order ∧ [own, later].Sublist other

variable {assembler : Assembler} {profiles : List String} {left right : Environment}

theorem ReadsAlike.symm (alike : assembler.ReadsAlike profiles left right) :
    assembler.ReadsAlike profiles right left where
  places := alike.places.symm
  documents := by
    intro loader location looked documents others read readToo
    have back := alike.places.symm.looksAt looked
    exact (alike.documents loader location back others documents readToo read).flip.imp
      fun _ _ both => both.symm

/-- Two runs with settled queues over files that read alike, in which the same profiles are asked
for.  The profiles are those that have their turns in both. -/
structure Counterparts (assembler : Assembler) (profiles : List String) (left right : Environment)
    (progress last : Progress) : Prop where
  ran : (assembler.setup left).run = .ok progress
  ranToo : (assembler.setup right).run = .ok last
  settled : ∀ queue, (assembler.setup left).queue = .ok queue → queue.settled = true
  settledToo : ∀ queue, (assembler.setup right).queue = .ok queue → queue.settled = true
  asks : ∃ name, (assembler.setup left).Requests name
  requests : ∀ name, (assembler.setup left).Requests name ↔ (assembler.setup right).Requests name
  defaults : left.defaults = right.defaults
  turns : ∀ name ∈ requested progress.queue, name ∈ requested last.queue → name ∈ profiles
  alike : assembler.ReadsAlike profiles left right
  spared : assembler.Spared left (requested progress.queue) (requested last.queue)
  sparedToo : assembler.Spared right (requested last.queue) (requested progress.queue)

namespace Counterparts

variable {progress last : Progress}
  (pair : assembler.Counterparts profiles left right progress last)

include pair

theorem symm : assembler.Counterparts profiles right left last progress where
  ran := pair.ranToo
  ranToo := pair.ran
  settled := pair.settledToo
  settledToo := pair.settled
  asks := pair.asks.imp fun name => (pair.requests name).mp
  requests := fun name => (pair.requests name).symm
  defaults := pair.defaults.symm
  turns := fun name here there => pair.turns name there here
  alike := pair.alike.symm
  spared := pair.sparedToo
  sparedToo := pair.spared

/-- The turn of a profile in the other run. -/
theorem exists_turned {name : String} (turn : name ∈ requested last.queue) :
    ∃ profile before environment after, profile.name = name ∧ name ∈ environment.active ∧
      requested last.queue = before ++ name :: after ∧
      (assembler.setup right).Turned last profile before environment := by
  rcases pair.symm.asks with ⟨asked, asks⟩
  have earlier := Setup.requested_eq_earlier (Setup.consistent_of_run pair.ranToo) asks
  rcases (Setup.mem_requested_iff _ _).mp turn with ⟨profile, begun, plain, rfl⟩
  rcases Setup.exists_turned_of_run pair.ranToo begun with ⟨before, environment, turned⟩
  rcases turned.place with ⟨after, place⟩
  exact ⟨profile, before, environment, after, rfl, turned.active plain, earlier.trans place, turned⟩

theorem nodup_requested : (requested progress.queue).Nodup := by
  rcases pair.asks with ⟨name, asks⟩
  rw [Setup.requested_eq_earlier (Setup.consistent_of_run pair.ran) asks]
  exact Setup.nodup_earlier_of_run pair.ran

/-! ## What the other run takes -/

/-- Before its last pass a run took a document that is the same but for what it activates. -/
def Met (last : Progress) (document : Document) : Prop :=
  ∃ counterpart ∈ last.log, counterpart.pass = .regular ∧
    document.SameButActive counterpart.document

/-- The other run takes what matches a document when its turn looks at the file. -/
theorem met_of_probed {profile : Profile} {before : List String} {environment : Environment}
    (turned : (assembler.setup right).Turned last profile before environment) (probe : Probe)
    (probed : .ok probe ∈
      assembler.search.probes assembler.loaders right (some profile.name) before)
    (looked : (assembler.setup left).LooksAt profiles probe.loader probe.location)
    {documents : List Document}
    (read : Library.read assembler.store left ⟨probe.loader, probe.location, none⟩ = .ok documents)
    {document : Document} (inside : document ∈ documents)
    (taken : ∀ counterpart, document.Matches profiles counterpart →
      Profile.parseAll counterpart.scope = .ok counterpart.expressions →
        counterpart.isTaken .regular probe.scope environment = true) : Met last document := by
  rcases turned.reads probe probed with ⟨others, readToo⟩
  have alike := pair.alike.documents _ _ looked documents others read readToo
  rcases Traversal.exists_mem_of_forall₂ alike inside with ⟨counterpart, among, both⟩
  have made := Library.ofSource_of_mem_read readToo among
  have parsed := (Document.ofSource_eq_ok_iff.mp made).2.2.1
  exact ⟨_, turned.takes probe counterpart
    ⟨probed, ⟨others, readToo, among⟩, taken counterpart both parsed⟩, rfl, both.same⟩

/-- A section that is scoped to a profile is taken in its turn, from a base file, from the file of
the profile and from that of a sooner one. -/
theorem met_of_scope {name : String} (listed : name ∈ profiles)
    (turn : name ∈ requested last.queue) {loader : Loader} {location : String}
    (file : assembler.search.BaseFile assembler.loaders left loader location ∨
      ∃ own ∈ profiles, (own = name ∨ [own, name].Sublist (requested last.queue)) ∧
        assembler.search.ProfileFile assembler.loaders left own loader location)
    {documents : List Document}
    (read : Library.read assembler.store left ⟨loader, location, none⟩ = .ok documents)
    {document : Document} (inside : document ∈ documents) (scope : name ∈ document.scope) :
    Met last document := by
  have distinct := pair.symm.nodup_requested
  rcases pair.exists_turned turn with
    ⟨profile, before, environment, after, rfl, active, place, turned⟩
  have looked : (assembler.setup left).LooksAt profiles loader location :=
    file.imp_right fun ⟨own, known, _, specific⟩ => ⟨own, known, specific⟩
  refine pair.met_of_probed turned ⟨loader, location, some profile.name⟩ ?_ looked read inside ?_
  · have places := pair.alike.places
    rcases file with base | ⟨own, _, which, specific⟩
    · exact Search.mem_probes_iff_file.mpr (.inl ⟨places.baseFile base, rfl⟩)
    · refine Search.mem_probes_iff_file.mpr (.inr ⟨profile.name, own, rfl, ?_,
        places.profileFile specific⟩)
      rcases which with same | sooner
      · exact .inl ⟨same, .inr rfl⟩
      · rw [place] at distinct sooner
        exact .inr ⟨Names.mem_front_of_sublist distinct sooner, rfl⟩
  · intro counterpart both parsed
    have named : profile.name ∈ counterpart.scope := both.same.scope ▸ scope
    have accepted := Document.isAccepted_of_mem_scope parsed named (both.plain _ scope listed)
      (Environment.isActive_of_mem active)
    exact Bool.and_eq_true_iff.mpr ⟨decide_eq_true named, accepted⟩

/-- A section without scope is taken in the turn of the profile to which the file belongs. -/
theorem met_of_own {name : String} (listed : name ∈ profiles)
    (turn : name ∈ requested last.queue) {loader : Loader} {location : String}
    (specific : assembler.search.ProfileFile assembler.loaders left name loader location)
    {documents : List Document}
    (read : Library.read assembler.store left ⟨loader, location, none⟩ = .ok documents)
    {document : Document} (inside : document ∈ documents) (free : document.scope = []) :
    Met last document := by
  rcases pair.exists_turned turn with
    ⟨profile, before, environment, after, rfl, active, place, turned⟩
  have places := pair.alike.places
  refine pair.met_of_probed turned ⟨loader, location, none⟩ ?_
    (.inr ⟨_, listed, specific⟩) read inside ?_
  · exact Search.mem_probes_iff_file.mpr (.inr ⟨profile.name, profile.name, rfl,
      .inl ⟨rfl, .inl rfl⟩, places.profileFile specific⟩)
  · intro counterpart both _
    exact List.isEmpty_iff.mpr (both.same.scope ▸ free)

/-- What a pass for no profile finds matches something that the same pass of the other run reads,
and finds if it takes it. -/
theorem exists_base_counterpart {pass : Document.Pass} {environment : Environment} {probe : Probe}
    {document : Document}
    (found : (assembler.setup left).Finds pass environment none [] probe document) :
    ∃ counterpart, document.Matches profiles counterpart ∧
      document.isTaken pass none environment = true ∧
      ∀ other, counterpart.isTaken pass none other = true →
        (assembler.setup right).Finds pass other none [] probe counterpart := by
  obtain ⟨loader, location, scope⟩ := probe
  rcases found.read with ⟨documents, read, inside⟩
  rcases Search.file_of_mem_probes found.probed with ⟨base, scope⟩ | ⟨_, _, none, _⟩
  · cases scope
    have places := pair.alike.places
    have probed := Search.mem_probes_of_baseFile (places.baseFile base)
    rcases Setup.read_of_run pair.ranToo probed with ⟨_, others, same, readToo⟩
    cases same
    have alike := pair.alike.documents loader location (.inl base) documents others read readToo
    rcases Traversal.exists_mem_of_forall₂ alike inside with ⟨counterpart, among, both⟩
    exact ⟨counterpart, both, found.taken, fun _ taken =>
      ⟨probed, ⟨others, readToo, among⟩, taken⟩⟩
  · cases none

/-- What the first pass finds is found by that of the other run. -/
theorem met_of_first {probe : Probe} {document : Document}
    (found : (assembler.setup left).Finds .regular left none [] probe document) :
    Met last document := by
  rcases pair.exists_base_counterpart found with ⟨counterpart, both, taken, finds⟩
  have takenToo : counterpart.isTaken .regular none right = true :=
    (both.same.isTaken .regular none right).symm.trans taken
  exact ⟨_, Setup.mem_log_of_first pair.ranToo (finds right takenToo), rfl, both.same⟩

/-- A section in the file of a sooner profile is taken, whichever of the two is sooner in the other
run. -/
theorem met_of_sooner {own name : String} (ordered : [own, name].Sublist (requested progress.queue))
    (turns : own ∈ requested last.queue) (turn : name ∈ requested last.queue) {loader : Loader}
    {location : String}
    (specific : assembler.search.ProfileFile assembler.loaders left own loader location)
    {documents : List Document}
    (read : Library.read assembler.store left ⟨loader, location, none⟩ = .ok documents)
    {document : Document} (inside : document ∈ documents) (scope : name ∈ document.scope) :
    Met last document := by
  have known : own ∈ profiles := pair.turns own (ordered.subset (by simp)) turns
  have listed : name ∈ profiles := pair.turns name (ordered.subset (by simp)) turn
  have different : own ≠ name := by
    rintro rfl
    exact absurd ordered (Names.not_sublist_of_nodup pair.nodup_requested ordered)
  rcases Names.sublist_or_sublist different turns turn with kept | reversed
  · exact pair.met_of_scope listed turn (.inr ⟨own, known, .inr kept, specific⟩) read inside scope
  · -- The other run comes to the file when the turn of the profile is over.
    rcases pair.spared own name ordered reversed loader location specific documents read document
      inside scope with itself | ⟨later, scope, had, after⟩
    · exact pair.met_of_scope known turns (.inr ⟨own, known, .inl rfl, specific⟩) read inside itself
    · have toCome : later ∈ requested last.queue := after.subset (by simp)
      exact pair.met_of_scope (pair.turns later had toCome) toCome
        (.inr ⟨own, known, .inr after, specific⟩) read inside scope

/-- What a turn finds is taken by the other run, if the profile and the sooner ones have their
turns there. -/
theorem met_of_turn {own : String} {before : List String}
    (place : before ++ [own] <+: requested progress.queue)
    (known : ∀ name ∈ before ++ [own], name ∈ requested last.queue) {environment : Environment}
    {probe : Probe} {document : Document}
    (found : (assembler.setup left).Finds .regular environment (some own) before probe document) :
    Met last document := by
  obtain ⟨loader, location, scope⟩ := probe
  rcases found.read with ⟨documents, read, inside⟩
  have member : own ∈ before ++ [own] := List.mem_append_right _ List.mem_cons_self
  have turn := known own member
  have listed : own ∈ profiles := pair.turns own (place.subset member) turn
  have limited (same : scope = some own) : own ∈ document.scope := by
    have taken := found.taken
    rw [same] at taken
    exact of_decide_eq_true (Bool.and_eq_true_iff.mp taken).1
  rcases Search.mem_probes_iff_file.mp found.probed with
    ⟨base, same⟩ | ⟨_, name, one, ⟨rfl, none | same⟩ | ⟨sooner, same⟩, specific⟩
  · exact pair.met_of_scope listed turn (.inl base) read inside (limited same)
  · cases one
    have free := found.taken
    rw [none] at free
    exact pair.met_of_own listed turn specific read inside (List.isEmpty_iff.mp free)
  · cases one
    exact pair.met_of_scope listed turn (.inr ⟨own, listed, .inl rfl, specific⟩) read inside
      (limited same)
  · cases one
    have ordered : [name, own].Sublist (requested progress.queue) :=
      ((List.singleton_sublist.mpr sooner).append (List.Sublist.refl [own])).trans place.sublist
    exact pair.met_of_sooner ordered (known name (List.mem_append_left _ sooner)) turn specific read
      inside (limited same)

/-! ## The whole run -/

/-- What a run has come to at some moment: its queue is settled, whoever stands in it has a turn in
the other run, and what was taken is met there. -/
structure Mirrored (last moment : Progress) : Prop where
  settled : moment.queue.settled = true
  turns : moment.queue.names ⊆ requested last.queue
  met : ∀ taken ∈ moment.log, Met last taken.document

theorem Mirrored.collect {moment : Progress} (mirrored : Mirrored last moment)
    (pass : Document.Pass) (profile : Option String) {groups : List (List Document)}
    (met : ∀ document ∈ groups.flatten, Met last document) :
    Mirrored last (moment.collect pass profile groups) where
  settled := by
    simp only [Progress.collect, Queue.settled_noteAll, mirrored.settled, Bool.true_or]
  turns := by
    refine Queue.names_noteAll_of_settled mirrored.settled mirrored.turns ?_
    intro document inside
    rcases met document inside with ⟨counterpart, logged, regular, same⟩
    rcases pair.symm.asks with ⟨name, asks⟩
    exact same.included ▸ Setup.requested_of_mem_log pair.ranToo asks logged regular
  met := by
    intro taken logged
    rcases (Setup.mem_log_collect _ _ _ _ _).mp logged with before | ⟨document, inside, rfl⟩
    · exact mirrored.met taken before
    · exact met document inside

omit pair in
theorem Mirrored.advance {moment : Progress} (mirrored : Mirrored last moment)
    {profile : Profile} {others : List Profile}
    (waiting : moment.queue.waiting = profile :: others) :
    Mirrored last (moment.advance profile others) where
  settled := mirrored.settled
  turns := fun _ member => mirrored.turns ((Queue.names_advance_perm waiting).subset member)
  met := mirrored.met

theorem mirrored_start {queue : Queue} (queued : (assembler.setup left).queue = .ok queue) :
    Mirrored last ⟨left, queue, []⟩ where
  settled := pair.settled queue queued
  turns := by
    intro name member
    rcases pair.asks with ⟨asked, asks⟩
    have requests := Setup.requests_of_mem_start queued asks member
    exact Setup.requested_of_requests pair.ranToo ((pair.requests name).mp requests)
  met := fun _ absent => absurd absent List.not_mem_nil

theorem mirrored_of_reached {moment : Progress} (reached : (assembler.setup left).Reached moment) :
    Mirrored last moment := by
  induction reached with
  | start queued performed =>
      rcases Setup.perform_eq_ok_iff.mp performed with ⟨groups, surveyed, rfl⟩
      refine (pair.mirrored_start queued).collect pair _ _ fun document inside => ?_
      rcases (Setup.mem_survey_iff surveyed document).mp inside with ⟨probe, found⟩
      exact pair.met_of_first found
  | turn reached waiting performed ih =>
      have place := Setup.earlier_prefix_of_reached (.turn reached waiting performed) pair.ran
      rcases pair.asks with ⟨name, asks⟩
      rcases Setup.perform_eq_ok_iff.mp performed with ⟨groups, surveyed, rfl⟩
      rw [Setup.earlier_collect, Setup.earlier_advance,
        ← Setup.requested_eq_earlier (Setup.consistent_of_run pair.ran) asks] at place
      refine (ih.advance waiting).collect pair _ _ fun document inside => ?_
      rcases (Setup.mem_survey_iff surveyed document).mp inside with ⟨probe, found⟩
      refine pair.met_of_turn place (fun other member => ih.turns ?_) found
      rw [Queue.names, waiting, List.map_append]
      rcases List.mem_append.mp member with sooner | own
      · exact List.mem_append_right _ sooner
      · exact List.mem_append_left _ (List.mem_singleton.mp own ▸ List.mem_cons_self)

/-- The profiles that have their turns in the one run have them in the other. -/
theorem requested_subset : requested progress.queue ⊆ requested last.queue := by
  intro name turn
  rcases Setup.exists_of_run pair.ran with ⟨moment, reached, _, performed⟩
  rcases Setup.perform_eq_ok_iff.mp performed with ⟨groups, _, rfl⟩
  rcases (Setup.mem_requested_iff _ _).mp turn with ⟨profile, begun, _, rfl⟩
  rw [Setup.begun_collect] at begun
  exact (pair.mirrored_of_reached reached).turns
    (List.mem_map_of_mem (List.mem_append_right _ begun))

theorem mem_requested_iff (name : String) :
    name ∈ requested progress.queue ↔ name ∈ requested last.queue :=
  ⟨fun turn => pair.requested_subset turn, fun turn => pair.symm.requested_subset turn⟩

/-- At the end of both runs the same profiles are active. -/
theorem isActive_eq : progress.environment.isActive = last.environment.isActive := by
  apply Environment.isActive_congr
  · have here := (Setup.consistent_of_run pair.ran).defaults
    have there := (Setup.consistent_of_run pair.ranToo).defaults
    exact here.trans (pair.defaults.trans there.symm)
  · intro name
    rw [Setup.active_of_run pair.ran, Setup.active_of_run pair.ranToo]
    exact pair.mem_requested_iff name

/-- Whatever the one run takes, the other takes something that is the same but for what it
activates. -/
theorem exists_counterpart {taken : Taken} (logged : taken ∈ progress.log) :
    ∃ counterpart ∈ last.log, taken.document.SameButActive counterpart.document := by
  have active := pair.isActive_eq
  rcases Setup.exists_of_run pair.ran with ⟨moment, reached, _, performed⟩
  rcases Setup.perform_eq_ok_iff.mp performed with ⟨groups, surveyed, rfl⟩
  rcases (Setup.mem_log_collect _ _ _ _ _).mp logged with before | ⟨document, inside, rfl⟩
  · rcases (pair.mirrored_of_reached reached).met taken before with
      ⟨counterpart, there, _, same⟩
    exact ⟨counterpart, there, same⟩
  · rcases (Setup.mem_survey_iff surveyed document).mp inside with ⟨probe, found⟩
    rcases pair.exists_base_counterpart found with ⟨counterpart, both, takenHere, finds⟩
    have takenToo : counterpart.isTaken .leftover none last.environment = true := by
      rw [← both.same.isTaken]
      simp only [Document.isTaken, Document.isAccepted_congr active.symm] at takenHere ⊢
      exact takenHere
    exact ⟨_, Setup.mem_log_of_last pair.ranToo (finds _ takenToo), both.same⟩

theorem exists_named {name : String} :
    (∃ taken ∈ progress.log, taken.document.source.name = name) →
      ∃ taken ∈ last.log, taken.document.source.name = name := by
  rintro ⟨taken, logged, rfl⟩
  rcases pair.exists_counterpart logged with ⟨counterpart, there, same⟩
  exact ⟨counterpart, there, same.name.symm⟩

end Counterparts
end Assembler
end LayeredConfig
