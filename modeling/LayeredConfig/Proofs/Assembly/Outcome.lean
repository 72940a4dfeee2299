import LayeredConfig.Proofs.Assembly.Merging
import LayeredConfig.Proofs.Assembly.Provenance

namespace LayeredConfig

open Property

/-!
# What an assembly returns

The sources of the result were there before or were taken by the run.  Active in
the result are the requested profiles that had their turn and those that the
default properties add, and its defaults are the ones from before.
-/

namespace Assembly

/-- The profiles that the default properties add when a run is over. -/
def addedProfiles (progress : Progress) : Option Source → Except Error (List String)
  | none => .ok []
  | some defaults => defaultProfiles progress.merge progress.queue.settled defaults

theorem finish_eq_ok_iff {progress : Progress} {defaults : Option Source}
    {loaded : Environment} :
    finish progress defaults = .ok loaded ↔
      ∃ added, addedProfiles progress defaults = .ok added ∧
        loaded = progress.merge.setActive (added ++ requested progress.queue) := by
  unfold finish addedProfiles
  cases defaults with
  | none => simp [eq_comm]
  | some source =>
      cases asked : defaultProfiles progress.merge progress.queue.settled source with
      | error error => simp [asked]
      | ok added => simp [asked, eq_comm]

end Assembly

namespace Assembler

/-- The environment in which files are read: what the default properties say about profiles is
hidden. -/
def reading (environment : Environment) : Environment :=
  match environment.sources.find? Keys.defaultProperties with
  | none => environment
  | some defaults => Assembly.replaceDefaults environment (Assembly.withoutProfiles defaults)

theorem active_reading (environment : Environment) :
    (reading environment).active = environment.active := by
  unfold reading
  split <;> rfl

theorem defaults_reading (environment : Environment) :
    (reading environment).defaults = environment.defaults := by
  unfold reading
  split <;> rfl

theorem name_of_find {environment : Environment} {defaults : Source}
    (found : environment.sources.find? Keys.defaultProperties = some defaults) :
    defaults.name = Keys.defaultProperties := by
  unfold Sources.find? at found
  have matched := List.find?_some found
  exact of_decide_eq_true matched

theorem mem_or_default_of_mem_reading {environment : Environment} {source : Source}
    (member : source ∈ (reading environment).sources.layers) :
    source ∈ environment.sources.layers ∨ source.name = Keys.defaultProperties := by
  unfold reading at member
  split at member
  · exact Or.inl member
  · next defaults found =>
      rcases Sources.eq_or_mem_of_mem_replaceLayer member with same | before
      · have named : source.name = defaults.name := same ▸ rfl
        exact Or.inr (named.trans (name_of_find found))
      · exact Or.inl before

theorem exists_of_load {assembler : Assembler} {environment assembled : Environment}
    {defaults : Option Source}
    (loaded : assembler.load environment defaults = .ok assembled) :
    ∃ progress profiles, (assembler.setup environment).run = .ok progress ∧
      assembled = progress.merge.setActive (profiles ++ Assembly.requested progress.queue) ∧
      (profiles = [] ∨ ∃ source, defaults = some source ∧
        Assembly.defaultProfiles progress.merge progress.queue.settled source = .ok profiles) := by
  unfold load at loaded
  cases ran : (assembler.setup environment).run with
  | error failure => simp [ran, Except.bind] at loaded
  | ok progress =>
      simp only [ran, Except.bind] at loaded
      rcases Assembly.finish_eq_ok_iff.mp loaded with ⟨profiles, asked, rfl⟩
      refine ⟨progress, profiles, rfl, rfl, ?_⟩
      cases defaults with
      | none => exact Or.inl (Except.ok.inj asked).symm
      | some source => exact Or.inr ⟨source, rfl, asked⟩

/-- What was loaded, with the default properties put back and in the last place. -/
def restored (environment loaded : Environment) : Environment :=
  match environment.sources.find? Keys.defaultProperties with
  | none => loaded
  | some defaults => Assembly.moveDefaultsLast (Assembly.replaceDefaults loaded defaults)

theorem assemble_eq_ok_iff {assembler : Assembler} {environment assembled : Environment} :
    assembler.assemble environment = .ok assembled ↔
      ∃ loaded, assembler.load (reading environment)
          (environment.sources.find? Keys.defaultProperties) = .ok loaded ∧
        assembled = restored environment loaded := by
  unfold assemble reading restored
  cases environment.sources.find? Keys.defaultProperties with
  | none =>
      constructor
      · intro done
        exact ⟨assembled, done, rfl⟩
      · rintro ⟨loaded, done, rfl⟩
        exact done
  | some defaults =>
      simp only
      constructor
      · intro done
        split at done
        · cases done
        · next loaded ran =>
            cases done
            exact ⟨loaded, ran, rfl⟩
      · rintro ⟨loaded, done, rfl⟩
        rw [done]

theorem find?_of_plain {environment : Environment}
    (plain : environment.sources.contains Keys.defaultProperties = false) :
    environment.sources.find? Keys.defaultProperties = none := by
  rw [Bool.eq_false_iff, ne_eq, Sources.contains_iff_mem_names] at plain
  exact (Sources.find?_eq_none_iff _ _).mpr plain

theorem reading_of_plain {environment : Environment}
    (plain : environment.sources.contains Keys.defaultProperties = false) :
    reading environment = environment := by
  rw [reading, find?_of_plain plain]

theorem assemble_eq_load {assembler : Assembler} {environment : Environment}
    (plain : environment.sources.contains Keys.defaultProperties = false) :
    assembler.assemble environment = assembler.load environment none := by
  rw [assemble, find?_of_plain plain]

/-- What a run left is the result once the default properties have added their profiles. -/
theorem assemble_of_run {assembler : Assembler} {environment : Environment}
    {progress : Assembly.Progress} {added : List String}
    (ran : (assembler.setup (reading environment)).run = .ok progress)
    (asked : Assembly.addedProfiles progress
      (environment.sources.find? Keys.defaultProperties) = .ok added) :
    assembler.assemble environment = .ok (restored environment
      (progress.merge.setActive (added ++ Assembly.requested progress.queue))) := by
  refine assemble_eq_ok_iff.mpr ⟨_, ?_, rfl⟩
  rw [load, ran]
  exact Assembly.finish_eq_ok_iff.mpr ⟨added, asked, rfl⟩

theorem active_restored (environment loaded : Environment) :
    (restored environment loaded).active = loaded.active := by
  unfold restored Assembly.moveDefaultsLast
  split
  · rfl
  · split <;> rfl

theorem defaults_restored (environment loaded : Environment) :
    (restored environment loaded).defaults = loaded.defaults := by
  unfold restored Assembly.moveDefaultsLast
  split
  · rfl
  · split <;> rfl

/-- The sources of a result are those that the run left, with the default properties put back. -/
theorem sources_of_run {assembler : Assembler} {environment assembled : Environment}
    {progress : Assembly.Progress} (done : assembler.assemble environment = .ok assembled)
    (ran : (assembler.setup (reading environment)).run = .ok progress) :
    assembled.sources = (restored environment progress.merge).sources := by
  rcases assemble_eq_ok_iff.mp done with ⟨loaded, loads, rfl⟩
  rcases exists_of_load loads with ⟨other, profiles, ranToo, rfl, _⟩
  cases ran.symm.trans ranToo
  unfold restored Assembly.moveDefaultsLast Assembly.replaceDefaults Environment.setActive
  split
  · rfl
  · simp only
    split <;> rfl

theorem mem_of_mem_moveDefaultsLast {environment : Environment} {source : Source}
    (member : source ∈ (Assembly.moveDefaultsLast environment).sources.layers) :
    source ∈ environment.sources.layers := by
  unfold Assembly.moveDefaultsLast at member
  split at member
  · exact member
  · next defaults found =>
      rcases (Sources.mem_addLast_iff _ _ _).mp member with same | before
      · exact same ▸ List.mem_of_find?_eq_some found
      · exact Sources.mem_of_mem_erase (Sources.mem_of_mem_erase before)

theorem mem_or_default_of_mem_restored {environment loaded : Environment} {source : Source}
    (member : source ∈ (restored environment loaded).sources.layers) :
    source ∈ loaded.sources.layers ∨ source.name = Keys.defaultProperties := by
  unfold restored at member
  split at member
  · exact Or.inl member
  · next defaults found =>
      have kept := mem_of_mem_moveDefaultsLast member
      rcases Sources.eq_or_mem_of_mem_replaceLayer kept with same | before
      · exact Or.inr (same ▸ name_of_find found)
      · exact Or.inl before

/-- An assembly returns what a run left.  Its sources were there before, are the default
properties or were taken; its active profiles were requested or come from the default properties. -/
structure Completes (assembler : Assembler) (environment assembled : Environment)
    (progress : Assembly.Progress) : Prop where
  ran : (assembler.setup (reading environment)).run = .ok progress
  defaults : assembled.defaults = environment.defaults
  requested : Assembly.requested progress.queue ⊆ assembled.active
  added : ∀ name ∈ assembled.active, name ∈ Assembly.requested progress.queue ∨
    ∃ defaults profiles, environment.sources.find? Keys.defaultProperties = some defaults ∧
      Assembly.defaultProfiles progress.merge progress.queue.settled defaults = .ok profiles ∧
      name ∈ profiles
  origin : ∀ source ∈ assembled.sources.layers,
    source ∈ environment.sources.layers ∨ source.name = Keys.defaultProperties ∨
      ∃ taken ∈ progress.log, source = taken.document.source

theorem exists_of_assemble {assembler : Assembler} {environment assembled : Environment}
    (done : assembler.assemble environment = .ok assembled) :
    ∃ progress, assembler.Completes environment assembled progress := by
  rcases assemble_eq_ok_iff.mp done with ⟨loaded, ran, rfl⟩
  rcases exists_of_load ran with ⟨progress, profiles, run, rfl, asked⟩
  have consistent := Assembly.Setup.consistent_of_run run
  have final : ∀ name, name ∈ (restored environment
      (progress.merge.setActive (profiles ++ Assembly.requested progress.queue))).active ↔
      name ∈ profiles ∨ name ∈ Assembly.requested progress.queue := by
    intro name
    rw [active_restored, Environment.setActive, Names.mem_addAll, List.mem_append]
    simp
  refine ⟨progress, run, ?_, ?_, ?_, ?_⟩
  · rw [defaults_restored]
    exact consistent.defaults.trans (defaults_reading environment)
  · intro name requested
    exact (final name).mpr (Or.inr requested)
  · intro name present
    rcases (final name).mp present with listed | requested
    · rcases asked with rfl | ⟨source, found, added⟩
      · cases listed
      · exact Or.inr ⟨source, profiles, found, added, listed⟩
    · exact Or.inl requested
  · intro source member
    rcases mem_or_default_of_mem_restored member with inside | default
    · rcases Assembly.mem_or_mem_of_mem_splice inside with before | merged
      · rw [consistent.sources] at before
        exact (mem_or_default_of_mem_reading before).imp_right Or.inl
      · exact Or.inr (Or.inr (Assembly.Lists.exists_taken_of_mem_merged merged))
    · exact Or.inr (Or.inl default)

end Assembler
end LayeredConfig
