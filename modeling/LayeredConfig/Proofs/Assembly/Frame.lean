import LayeredConfig.Proofs.Assembly.Places
import LayeredConfig.Proofs.Assembly.Precedence

namespace LayeredConfig

open Property

/-!
# What an assembly leaves alone

The sources from before keep their contents and their order, and what the run
takes stands among them as one block: where the default properties stood, which
move to the last place, or last when there are none.  Of the sources from before
only those go that have the name of a source in the block.
-/

namespace Assembly

/-- The sources that merging puts among the others. -/
def Progress.loaded (progress : Progress) : List Source :=
  (Lists.ofLog progress.log).merged

/-- A block of sources holds what a run took, each name once. -/
structure Progress.Loads (progress : Progress) (loaded : List Source) : Prop where
  once : (loaded.map Source.name).Nodup
  taken : ∀ source ∈ loaded, ∃ taken ∈ progress.log, source = taken.document.source
  complete : ∀ taken ∈ progress.log, taken.document.source.name ∈ loaded.map Source.name

theorem Progress.loads_loaded (progress : Progress) : progress.Loads progress.loaded where
  once := Lists.nodup_names_merged _
  taken := fun _ member => Lists.exists_taken_of_mem_merged member
  complete := fun _ member => by
    rcases Lists.exists_mem_merged member with ⟨source, inside, named⟩
    exact List.mem_map.mpr ⟨source, inside, named⟩

theorem outside_of_apart {more layers : List Source}
    (apart : ∀ layer ∈ layers, layer.name ∉ more.map Source.name) :
    outside more layers = layers :=
  List.filter_eq_self.mpr fun layer member => decide_eq_true (apart layer member)

theorem isPlain_of_not_mem {layers : List Source}
    (absent : Keys.defaultProperties ∉ layers.map Source.name) :
    ∀ layer ∈ layers, isPlain layer = true :=
  fun _ member => decide_eq_true fun same => absent (same ▸ List.mem_map_of_mem member)

theorem not_mem_names_outside {name : String} {layers : List Source}
    (absent : name ∉ layers.map Source.name) (more : List Source) :
    name ∉ (outside more layers).map Source.name :=
  fun member => absent ((List.filter_sublist.map Source.name).subset member)

/-- Without default properties the spliced sources come last. -/
theorem layers_splice_last {sources : Sources} (distinct : sources.names.Nodup)
    {more : List Source} (each : (more.map Source.name).Nodup)
    (plain : Keys.defaultProperties ∉ more.map Source.name)
    (absent : Keys.defaultProperties ∉ sources.names) :
    (splice sources none more).layers = outside more sources.layers ++ more := by
  have all := isPlain_of_not_mem (not_mem_names_outside absent more)
  rw [layers_splice (heldOnce_of_nodup distinct more) each plain,
    List.takeWhile_eq_self_iff.mpr all, List.dropWhile_eq_nil_iff.mpr all, List.append_nil]

/-- The spliced sources stand just above the default properties. -/
theorem layers_splice_above {sources : Sources} (distinct : sources.names.Nodup)
    {more : List Source} (each : (more.map Source.name).Nodup)
    (plain : Keys.defaultProperties ∉ more.map Source.name) {before after : List Source}
    {defaults : Source} (split : sources.layers = before ++ defaults :: after)
    (named : defaults.name = Keys.defaultProperties)
    (absent : Keys.defaultProperties ∉ before.map Source.name) :
    (splice sources none more).layers =
      outside more before ++ more ++ defaults :: outside more after := by
  have kept : outside more (before ++ defaults :: after) =
      outside more before ++ defaults :: outside more after := by
    rw [outside_append, outside, outside, outside,
      List.filter_cons_of_pos (by simpa [named] using plain)]
  have front := isPlain_of_not_mem (not_mem_names_outside absent more)
  have stops : ¬ isPlain defaults = true := by simpa [isPlain] using named
  rw [layers_splice (heldOnce_of_nodup distinct more) each plain, split, kept,
    List.takeWhile_append_of_pos front, List.dropWhile_append_of_pos front,
    List.takeWhile_cons_of_neg stops, List.dropWhile_cons_of_neg stops, List.append_nil]

end Assembly

namespace Assembler

/-! ## Hiding and putting back -/

theorem layers_reading {environment : Environment} {before after : List Source}
    {defaults : Source} (split : environment.sources.layers = before ++ defaults :: after)
    (named : defaults.name = Keys.defaultProperties)
    (absent : Keys.defaultProperties ∉ before.map Source.name) :
    (reading environment).sources.layers =
      before ++ Assembly.withoutProfiles defaults :: after := by
  rw [reading, Sources.find?_append split named absent]
  change Sources.replaceLayer _ _ environment.sources.layers = _
  rw [split, Sources.replaceLayer_append _ named absent]

theorem names_nodup_of_run {assembler : Assembler} {environment : Environment}
    {progress : Assembly.Progress} (distinct : environment.sources.names.Nodup)
    (ran : (assembler.setup (reading environment)).run = .ok progress) :
    progress.environment.sources.names.Nodup ∧ progress.merge.sources.names.Nodup := by
  have start : progress.environment.sources.names.Nodup := by
    rw [(Assembly.Setup.consistent_of_run ran).sources]
    exact (names_reading environment) ▸ distinct
  exact ⟨start, (Assembly.names_splice start progress.loads_loaded.once
    (defaultProperties_not_mem_merged ran)).2⟩

/-- Without default properties the merged sources stand last. -/
theorem layers_merged_last {assembler : Assembler} {environment : Environment}
    {progress : Assembly.Progress} (distinct : environment.sources.names.Nodup)
    (ran : (assembler.setup (reading environment)).run = .ok progress)
    (absent : Keys.defaultProperties ∉ environment.sources.names) :
    progress.merge.sources.layers =
      Assembly.outside progress.loaded environment.sources.layers ++ progress.loaded := by
  have plain : environment.sources.contains Keys.defaultProperties = false := by
    rw [Bool.eq_false_iff, ne_eq, Sources.contains_iff_mem_names]
    exact absent
  have sources : progress.environment.sources = environment.sources := by
    rw [reading_of_plain plain] at ran
    exact (Assembly.Setup.consistent_of_run ran).sources
  change (Assembly.splice progress.environment.sources none progress.loaded).layers = _
  rw [sources]
  exact Assembly.layers_splice_last distinct progress.loads_loaded.once
    (defaultProperties_not_mem_merged ran) absent

/-- Once the default properties are put back, the merged sources stand just above them. -/
theorem layers_merged_replaced {assembler : Assembler} {environment : Environment}
    {progress : Assembly.Progress} (distinct : environment.sources.names.Nodup)
    (ran : (assembler.setup (reading environment)).run = .ok progress)
    {before after : List Source} {defaults : Source}
    (split : environment.sources.layers = before ++ defaults :: after)
    (named : defaults.name = Keys.defaultProperties)
    (absent : Keys.defaultProperties ∉ before.map Source.name) :
    (Assembly.replaceDefaults progress.merge defaults).sources.layers =
      Assembly.outside progress.loaded before ++ progress.loaded ++
        defaults :: Assembly.outside progress.loaded after := by
  have plain := defaultProperties_not_mem_merged ran
  have layered : progress.environment.sources.layers =
      before ++ Assembly.withoutProfiles defaults :: after := by
    rw [(Assembly.Setup.consistent_of_run ran).sources]
    exact layers_reading split named absent
  have merged := Assembly.layers_splice_above (names_nodup_of_run distinct ran).1
    progress.loads_loaded.once plain layered named absent
  have above : Keys.defaultProperties ∉
      (Assembly.outside progress.loaded before ++ progress.loaded).map Source.name := by
    rw [List.map_append, List.mem_append, not_or]
    exact ⟨Assembly.not_mem_names_outside absent _, plain⟩
  change Sources.replaceLayer _ _
    (Assembly.splice progress.environment.sources none progress.loaded).layers = _
  rw [merged]
  exact Sources.replaceLayer_append _ named above

/-! ## The sources of the result -/

/-- The loaded sources stand in the place of the default properties, which come last, or last when
there are no default properties.  The other sources are as they were. -/
inductive Framed (environment assembled : Environment) (loaded : List Source) : Prop where
  | last (plain : Keys.defaultProperties ∉ environment.sources.names)
      (layers : assembled.sources.layers = environment.sources.layers ++ loaded)
  | aboveDefaults {before after : List Source} {defaults : Source}
      (named : defaults.name = Keys.defaultProperties)
      (split : environment.sources.layers = before ++ defaults :: after)
      (layers : assembled.sources.layers = before ++ loaded ++ after ++ [defaults])

/-- The sources that stand ahead of the default properties; all of them when there are none. -/
def ahead (environment : Environment) : List Source :=
  environment.sources.layers.takeWhile Assembly.isPlain

/-- What stands ahead of the default properties decides as before. -/
theorem Framed.get?_eq {environment assembled : Environment} {loaded : List Source}
    (framed : Framed environment assembled loaded) (distinct : environment.sources.names.Nodup)
    {key : String} (held : ∃ source ∈ ahead environment, source.contains key = true) :
    assembled.get? key = environment.get? key := by
  have whole : environment.sources.layers =
      ahead environment ++ environment.sources.layers.dropWhile Assembly.isPlain :=
    List.takeWhile_append_dropWhile.symm
  have first : ∃ rest, assembled.sources.layers = ahead environment ++ rest := by
    cases framed with
    | last plain layers =>
        have all : ahead environment = environment.sources.layers :=
          List.takeWhile_eq_self_iff.mpr (Assembly.isPlain_of_not_mem plain)
        exact ⟨loaded, all.symm ▸ layers⟩
    | @aboveDefaults before after defaults named split layers =>
        have absent : Keys.defaultProperties ∉ before.map Source.name :=
          named ▸ (Sources.not_mem_names_others distinct split).1
        have stops : ¬ Assembly.isPlain defaults = true := by
          simpa [Assembly.isPlain] using named
        have front : ahead environment = before := by
          rw [ahead, split, List.takeWhile_append_of_pos (Assembly.isPlain_of_not_mem absent),
            List.takeWhile_cons_of_neg stops, List.append_nil]
        refine ⟨loaded ++ after ++ [defaults], ?_⟩
        rw [layers, front]
        simp only [List.append_assoc]
  rcases first with ⟨rest, layers⟩
  rw [Environment.get?, Environment.get?, Sources.get?_append layers held,
    Sources.get?_append whole held]

theorem layers_moveDefaultsLast {environment : Environment} {before after : List Source}
    {defaults : Source} (distinct : environment.sources.names.Nodup)
    (split : environment.sources.layers = before ++ defaults :: after)
    (named : defaults.name = Keys.defaultProperties) :
    (Assembly.moveDefaultsLast environment).sources.layers = before ++ after ++ [defaults] := by
  have others := Sources.not_mem_names_others distinct split
  have absent : Keys.defaultProperties ∉ before.map Source.name := named ▸ others.1
  have erased := Sources.layers_erase_append split named absent
  have gone : defaults.name ∉ (environment.sources.erase Keys.defaultProperties).names := by
    rw [Sources.names, erased, List.map_append, List.mem_append, not_or]
    exact others
  rw [Assembly.moveDefaultsLast, Sources.find?_append split named absent]
  change ((environment.sources.erase _).erase _).layers ++ [defaults] = _
  rw [Sources.layers_erase_of_not_mem gone, erased]

/-- When a run takes no name that was there before, what it takes joins the sources as a block. -/
theorem framed_of_run {assembler : Assembler} {environment : Environment}
    {progress : Assembly.Progress} (distinct : environment.sources.names.Nodup)
    (ran : (assembler.setup (reading environment)).run = .ok progress)
    (apart : ∀ taken ∈ progress.log, taken.document.source.name ∉ environment.sources.names)
    (profiles : List String) :
    Framed environment (restored environment (progress.merge.setActive profiles))
      progress.loaded := by
  have others : ∀ layer ∈ environment.sources.layers,
      layer.name ∉ progress.loaded.map Source.name := by
    intro layer member among
    rcases List.mem_map.mp among with ⟨source, inside, same⟩
    rcases progress.loads_loaded.taken source inside with ⟨taken, logged, rfl⟩
    exact apart taken logged (same ▸ List.mem_map_of_mem member)
  cases found : environment.sources.find? Keys.defaultProperties with
  | none =>
      have absent := (Sources.find?_eq_none_iff _ _).mp found
      have layered := layers_merged_last distinct ran absent
      rw [Assembly.outside_of_apart others] at layered
      rw [restored, found]
      exact .last absent layered
  | some defaults =>
      rcases Sources.exists_split_of_find found with ⟨named, before, after, split, absent⟩
      have layered := layers_merged_replaced distinct ran split named absent
      rw [split] at others
      rw [Assembly.outside_of_apart fun layer member =>
          others layer (List.mem_append_left _ member),
        Assembly.outside_of_apart fun layer member =>
          others layer (List.mem_append_right _ (List.mem_cons_of_mem _ member))] at layered
      have once : (Assembly.replaceDefaults progress.merge defaults).sources.names.Nodup := by
        rw [Assembly.replaceDefaults, Sources.names_replace _ named]
        exact (names_nodup_of_run distinct ran).2
      rw [restored, found]
      refine .aboveDefaults named split ?_
      exact layers_moveDefaultsLast once layered named

/-- When a run takes no name that was there before, the sources from before stay as they are and
in their order, apart from the default properties, which come last.  What the run takes stands
in their place or, without default properties, last, each name once.  A key that a source ahead
of the default properties holds keeps its value. -/
theorem sources_framed {assembler : Assembler} {environment assembled : Environment}
    (distinct : environment.sources.names.Nodup)
    (apart : ∀ progress, (assembler.setup (reading environment)).run = .ok progress →
      ∀ taken ∈ progress.log, taken.document.source.name ∉ environment.sources.names)
    (done : assembler.assemble environment = .ok assembled) :
    ∃ progress loaded, assembler.Completes environment assembled progress ∧
      progress.Loads loaded ∧ Framed environment assembled loaded ∧
      ∀ key, (∃ source ∈ ahead environment, source.contains key = true) →
        assembled.get? key = environment.get? key := by
  rcases exists_of_assemble done with ⟨progress, completes⟩
  rcases assemble_eq_ok_iff.mp done with ⟨loaded, finished, rfl⟩
  rw [load, completes.ran] at finished
  rcases Assembly.finish_eq_ok_iff.mp finished with ⟨added, _, rfl⟩
  have framed := framed_of_run distinct completes.ran (apart progress completes.ran)
    (added ++ Assembly.requested progress.queue)
  exact ⟨progress, progress.loaded, completes, progress.loads_loaded, framed,
    fun key held => framed.get?_eq distinct held⟩

/-- One base file. -/
def withFile : Assembler :=
  ofFiles [("conf/app.properties", "port=80")]

/-- Default properties that include a profile. -/
def includingB : Source :=
  ⟨Keys.defaultProperties, KeyedList.empty.insert Keys.includedProfiles "b"⟩

def surrounded : Environment :=
  ((Environment.initial.addLast (.named "first")).addLast includingB).addLast (.named "last")

/-- A source that has the key of the file. -/
def holdingPort : Source :=
  ⟨"ports", KeyedList.empty.insert "port" "8080"⟩

def portAhead : Environment :=
  surrounded.addFirst holdingPort

theorem placesUnset_portAhead : PlacesUnset (reading portAhead) where
  additional := by cbv
  locations := by cbv
  names := by cbv

theorem exists_run_portAhead :
    ∃ progress, (withFile.setup (reading portAhead)).run = .ok progress ∧
      (∀ taken ∈ progress.log, taken.document.source.name ∉ portAhead.sources.names ∧
        taken.document.source.get? "port" = some "80") ∧
      ∃ taken ∈ progress.log,
        taken.document.source.name = Assembly.Library.sourceName "conf/app.properties" := by
  have active : (reading portAhead).resolveList Keys.activeProfiles = .ok [] := by cbv
  have included : (reading portAhead).resolveList Keys.includedProfiles = .ok [] := by cbv
  rcases exists_of_bareSetup [("conf/app.properties", "port=80")] placesUnset_portAhead active
    included rfl 1 (fun progress =>
      (progress.log.all fun taken =>
        !portAhead.sources.names.contains taken.document.source.name &&
          taken.document.source.get? "port" == some "80") &&
      progress.log.any fun taken =>
        taken.document.source.name ==
          Assembly.Library.sourceName "conf/app.properties") (by cbv) with ⟨progress, ran, held⟩
  simp only [Bool.and_eq_true, List.all_eq_true, List.any_eq_true, beq_iff_eq,
    Bool.not_eq_true', ← Bool.not_eq_true, List.contains_iff_mem] at held
  exact ⟨progress, ran, held⟩

/-- The file joins the sources, and its key keeps the value that a source ahead of it has. -/
theorem sources_framed_portAhead :
    portAhead.sources.names.Nodup ∧
      (∀ progress, (withFile.setup (reading portAhead)).run = .ok progress →
        ∀ taken ∈ progress.log, taken.document.source.name ∉ portAhead.sources.names) ∧
      ∃ assembled, withFile.assemble portAhead = .ok assembled ∧
        ∃ loaded, Framed portAhead assembled loaded ∧
          (∃ source ∈ loaded,
            source.name = Assembly.Library.sourceName "conf/app.properties" ∧
              source.get? "port" = some "80") ∧
          assembled.get? "port" = some "8080" ∧
          ∀ key, (∃ source ∈ ahead portAhead, source.contains key = true) →
            assembled.get? key = portAhead.get? key := by
  rcases exists_run_portAhead with ⟨ran, within, each, file⟩
  have distinct : portAhead.sources.names.Nodup := by decide
  have apart : ∀ progress, (withFile.setup (reading portAhead)).run = .ok progress →
      ∀ taken ∈ progress.log, taken.document.source.name ∉ portAhead.sources.names := by
    intro progress run taken member
    rw [within] at run
    cases run
    exact (each taken member).1
  have added : Assembly.addedProfiles ran (portAhead.sources.find? Keys.defaultProperties) =
      .ok ["b"] := by
    rw [show portAhead.sources.find? Keys.defaultProperties = some includingB from rfl]
    change Assembly.defaultProfiles _ _ _ = _
    cases ran.queue.settled <;> cbv
  have done := assemble_of_run within added
  rcases sources_framed distinct apart done with ⟨progress, loaded, completes, loads, framed, keys⟩
  cases within.symm.trans completes.ran
  refine ⟨distinct, apart, _, done, loaded, framed, ?_, ?_, keys⟩
  · rcases file with ⟨taken, logged, named⟩
    rcases List.mem_map.mp (loads.complete taken logged) with ⟨source, inside, same⟩
    rcases loads.taken source inside with ⟨other, listed, rfl⟩
    exact ⟨_, inside, same.trans named, (each other listed).2⟩
  · exact keys "port" ⟨holdingPort, List.mem_cons_self, by decide⟩

end Assembler
end LayeredConfig
