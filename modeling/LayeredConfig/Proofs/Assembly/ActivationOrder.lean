import LayeredConfig.Proofs.Assembly.Counterparts
import LayeredConfig.Proofs.Assembly.RequestedProfiles
import LayeredConfig.Proofs.Environment.References

namespace LayeredConfig

open Property

/-!
# The order in which profiles are requested

When the same profiles are requested in another order, the same sections count
and the same profiles are active in the end, as long as no section of the file of
a profile hangs on which profiles come later, as long as profiles are called by
plain names in scopes, and as long as no file says something else about the other
order.
-/

namespace Assembler

open Assembly

variable {assembler : Assembler}

/-- When the same profiles are requested in another order, the result has sources of the same names
and the same active profiles, provided that what is resolved comes out the same, that scopes call
active profiles by plain names, and that no section in the file of a profile counts only because
another one is later. -/
theorem activation_order_immaterial {active other included : List String}
    (reordered : other.Perm active) (lone : ∀ name ∈ active, Lone name)
    {first second : Environment}
    (done : assembler.assembleFor active included = .ok first)
    (doneToo : assembler.assembleFor other included = .ok second)
    (listed : (forProfiles active included).resolveList Keys.includedProfiles =
      (forProfiles other included).resolveList Keys.includedProfiles)
    (alike : assembler.ReadsAlike first.active (forProfiles active included)
      (forProfiles other included))
    (spared : assembler.Spared (forProfiles active included) first.active second.active)
    (sparedToo : assembler.Spared (forProfiles other included) second.active first.active) :
    (∀ name, name ∈ first.sources.names ↔ name ∈ second.sources.names) ∧
      ∀ name, name ∈ first.active ↔ name ∈ second.active := by
  by_cases filled : active = []
  · subst filled
    cases reordered.eq_nil
    cases done.symm.trans doneToo
    exact ⟨fun _ => Iff.rfl, fun _ => Iff.rfl⟩
  · have filledToo : other ≠ [] := fun empty => filled (by simpa [empty] using reordered)
    have loneToo : ∀ name ∈ other, Lone name := fun name member =>
      lone name (reordered.subset member)
    rcases exists_run_of_assembleFor filled done with ⟨progress, ran, turns, names⟩
    rcases exists_run_of_assembleFor filledToo doneToo with ⟨last, ranToo, turnsToo, namesToo⟩
    rcases Setup.requested_of_run ran with ⟨_, more, _, _, includes, _⟩
    have here := @requests_forProfiles_iff active filled included lone
      (assembler.setup (forProfiles active included)) rfl more includes
    have there := @requests_forProfiles_iff other filledToo included loneToo
      (assembler.setup (forProfiles other included)) rfl more (listed.symm.trans includes)
    rcases List.exists_mem_of_ne_nil active filled with ⟨asked, member⟩
    rw [turns] at alike
    rw [turns, turnsToo] at spared sparedToo
    have pair : assembler.Counterparts (requested progress.queue) (forProfiles active included)
        (forProfiles other included) progress last := {
      ran := ran
      ranToo := ranToo
      settled := fun queue => settled_forProfiles filled included lone rfl
      settledToo := fun queue => settled_forProfiles filledToo included loneToo rfl
      asks := ⟨asked, (here asked).mpr (.inl member)⟩
      requests := fun name => by rw [here, there, reordered.mem_iff]
      defaults := (defaults_forProfiles _ _).trans (defaults_forProfiles _ _).symm
      turns := fun _ turn _ => turn
      alike := alike
      spared := spared
      sparedToo := sparedToo }
    refine ⟨fun name => ?_, fun name => ?_⟩
    · rw [names, namesToo]
      exact or_congr_right ⟨pair.exists_named, pair.symm.exists_named⟩
    · rw [turns, turnsToo]
      exact pair.mem_requested_iff name

/-! ## A section for a profile that is always later -/

/-- An assembly with the active profiles and with sources of the given names. -/
structure Gives (assembler : Assembler) (active included turns names : List String)
    (assembled : Environment) : Prop where
  done : assembler.assembleFor active included = .ok assembled
  active : assembled.active = turns
  sources : ∀ name, name ∈ assembled.sources.names ↔
    name = Keys.commandLineArguments ∨ name ∈ names

/-- Whether a run gave these profiles their turns and took sources of these names. -/
def ranAs (turns names : List String) (progress : Progress) : Bool :=
  decide (requested progress.queue = turns) &&
    decide (progress.log.map (fun taken => taken.document.source.name) = names)

theorem exists_gives_of_ranAs {active included turns names : List String} (filled : active ≠ [])
    (ran : ∃ progress, (assembler.setup (forProfiles active included)).run = .ok progress ∧
      ranAs turns names progress = true) :
    ∃ assembled, assembler.Gives active included turns names assembled := by
  rcases ran with ⟨progress, ran, passed⟩
  rw [ranAs, Bool.and_eq_true, decide_eq_true_eq, decide_eq_true_eq] at passed
  have plain := plain_forProfiles filled included
  have done := assembleFor_eq_ok_iff.mpr
    ((assemble_eq_ok_iff_of_plain plain).mpr ⟨progress, ran, rfl⟩)
  rcases exists_run_of_assembleFor filled done with ⟨same, ranToo, turned, sources⟩
  cases ran.symm.trans ranToo
  refine ⟨_, done, turned.trans passed.1, fun name => ?_⟩
  rw [sources, ← passed.2, List.mem_map]

/-- An assembly over files in memory for requested profiles, evaluated with numbered turns. -/
theorem exists_gives_of_files (files : List (String × String))
    {active included turns names : List String} (more order : List String) (filled : active ≠ [])
    (activates : (forProfiles active included).resolveList Keys.activeProfiles = .ok active)
    (includes : (forProfiles active included).resolveList Keys.includedProfiles = .ok more)
    (starts : Queue.start (forProfiles active included) active more =
      ⟨order.map Profile.requested, [], true⟩) (count : Nat)
    (passed : (bareSetup files (forProfiles active included)).endsWithin
      ⟨forProfiles active included, ⟨order.map Profile.requested, [], true⟩, []⟩ count
      (ranAs turns names) = true) :
    ∃ assembled, (ofFiles files).Gives active included turns names assembled :=
  exists_gives_of_ranAs filled (exists_of_bareSetup files (placesUnset_forProfiles filled included)
    activates includes starts count _ passed)

/-- A section in the file of `a` is scoped to `c`, which the base file includes. -/
def lending : List (String × String) :=
  [("conf/app.yml", "\"autowire.profiles.include\": \"c\""),
    ("conf/app-a.yml", "\"autowire.config.activate.on-profile\": \"c\"")]

/-- What was read, if it is no error, is scoped to none but these profiles. -/
def scopedWithin (names : List String) : Except Error (List Document) → Bool
  | .error _ => true
  | .ok documents =>
      documents.all fun document => document.scope.all fun name => names.contains name

theorem read_lending (loader : Loader) (location : String) :
    Library.read (ofFiles lending).store (forProfiles ["a", "b"] []) ⟨loader, location, none⟩ =
        Library.read (ofFiles lending).store (forProfiles ["b", "a"] []) ⟨loader, location, none⟩ ∧
      scopedWithin ["c"] (Library.read (ofFiles lending).store (forProfiles ["a", "b"] [])
        ⟨loader, location, none⟩) = true := by
  by_cases base : location = "conf/app.yml"
  · subst base
    rcases loader with ⟨extensions, lines | yaml⟩ <;> exact ⟨by cbv, by cbv⟩
  · by_cases own : location = "conf/app-a.yml"
    · subst own
      rcases loader with ⟨extensions, lines | yaml⟩ <;> exact ⟨by cbv, by cbv⟩
    · have absent : (ofFiles lending).store.find location = .ok none := by
        have nothing : (KeyedList.empty : KeyedList String String).get? location = none := rfl
        simp [lending, ofFiles, Resource.Store.find, KeyedList.ofList, KeyedList.insertAll,
          KeyedList.get?_insert, nothing, base, own]
      simp only [Library.read, absent, scopedWithin, List.all_nil, and_self]

theorem scope_of_read_lending {environment : Environment}
    (requests : environment = forProfiles ["a", "b"] [] ∨ environment = forProfiles ["b", "a"] [])
    {loader : Loader} {location : String} {documents : List Document}
    (read : Library.read (ofFiles lending).store environment ⟨loader, location, none⟩ =
      .ok documents) {document : Document} (inside : document ∈ documents) {name : String}
    (named : name ∈ document.scope) : name = "c" := by
  rcases read_lending loader location with ⟨same, within⟩
  have known : scopedWithin ["c"] (.ok documents) = true := by
    rcases requests with rfl | rfl
    · rwa [read] at within
    · rwa [same, read] at within
  have among := List.all_eq_true.mp (List.all_eq_true.mp known document inside) name named
  exact List.mem_singleton.mp (List.contains_iff_mem.mp among)

theorem readsAlike_lending (profiles : List String) :
    (ofFiles lending).ReadsAlike profiles (forProfiles ["a", "b"] [])
      (forProfiles ["b", "a"] []) where
  places := samePlaces_ofFiles lending (placesUnset_forProfiles (by decide) [])
    (placesUnset_forProfiles (by decide) [])
  documents := by
    intro loader location _ documents others read readToo
    rw [(read_lending loader location).1, readToo] at read
    cases read
    refine List.forall₂_same.mpr fun document inside => ⟨.refl document, ?_⟩
    intro name named _
    rw [scope_of_read_lending (.inr rfl) readToo inside named]
    cbv

theorem spared_lending {environment : Environment}
    (requests : environment = forProfiles ["a", "b"] [] ∨ environment = forProfiles ["b", "a"] [])
    {order other : List String} (last : ∀ own ∈ order, ¬ ["c", own].Sublist other) :
    (ofFiles lending).Spared environment order other := by
  intro own name ordered reversed loader location _ documents read document inside named
  rw [scope_of_read_lending requests read inside named] at reversed
  exact absurd reversed (last own (ordered.subset List.mem_cons_self))

/-- The section in the file of `a` counts in both orders. -/
theorem activation_order_immaterial_lending :
    ["b", "a"].Perm ["a", "b"] ∧ (∀ name ∈ ["a", "b"], Lone name) ∧
      ∃ first second, (ofFiles lending).assembleFor ["a", "b"] [] = .ok first ∧
        (ofFiles lending).assembleFor ["b", "a"] [] = .ok second ∧
        "applicationConfig: [conf/app-a.yml]" ∈ first.sources.names ∧ "c" ∈ first.active ∧
        (∀ name, name ∈ first.sources.names ↔ name ∈ second.sources.names) ∧
        ∀ name, name ∈ first.active ↔ name ∈ second.active := by
  have reordered : ["b", "a"].Perm ["a", "b"] := .swap "a" "b" []
  have lone : ∀ name ∈ ["a", "b"], Lone name := by decide
  have here : ∃ first, (ofFiles lending).Gives ["a", "b"] [] ["a", "b", "c"]
      ["applicationConfig: [conf/app.yml]", "applicationConfig: [conf/app-a.yml]"] first :=
    exists_gives_of_files lending [] ["a", "b"] (by decide) (by cbv) (by cbv) (by rfl) 3 (by cbv)
  have there : ∃ second, (ofFiles lending).Gives ["b", "a"] [] ["b", "a", "c"]
      ["applicationConfig: [conf/app.yml]", "applicationConfig: [conf/app-a.yml]"] second :=
    exists_gives_of_files lending [] ["b", "a"] (by decide) (by cbv) (by cbv) (by rfl) 3 (by cbv)
  rcases here with ⟨first, here⟩
  rcases there with ⟨second, there⟩
  have spared : (ofFiles lending).Spared (forProfiles ["a", "b"] []) first.active
      second.active := by
    rw [here.active, there.active]
    exact spared_lending (.inl rfl) (by decide)
  have sparedToo : (ofFiles lending).Spared (forProfiles ["b", "a"] []) second.active
      first.active := by
    rw [here.active, there.active]
    exact spared_lending (.inr rfl) (by decide)
  refine ⟨reordered, lone, first, second, here.done, there.done,
    (here.sources _).mpr (.inr (by decide)), here.active ▸ by decide, ?_⟩
  exact activation_order_immaterial reordered lone here.done there.done (by cbv)
    (readsAlike_lending _) spared sparedToo

/-! ## Where the order tells -/

/-- Of two orders of the same profiles only the first leads to the source. -/
structure OrderTells (assembler : Assembler) (active other included : List String)
    (name : String) : Prop where
  reordered : other.Perm active
  lone : ∀ name ∈ active, Lone name
  differs : ∃ first second, assembler.assembleFor active included = .ok first ∧
    assembler.assembleFor other included = .ok second ∧
      name ∈ first.sources.names ∧ name ∉ second.sources.names

theorem differs_of_gives {active other included turns turnsToo names namesToo : List String}
    {name : String} (here : ∃ first, assembler.Gives active included turns names first)
    (there : ∃ second, assembler.Gives other included turnsToo namesToo second)
    (loaded : name ∈ names) (missing : name ∉ Keys.commandLineArguments :: namesToo) :
    ∃ first second, assembler.assembleFor active included = .ok first ∧
      assembler.assembleFor other included = .ok second ∧
        name ∈ first.sources.names ∧ name ∉ second.sources.names := by
  rcases here with ⟨first, here⟩
  rcases there with ⟨second, there⟩
  refine ⟨first, second, here.done, there.done, (here.sources name).mpr (.inr loaded), ?_⟩
  rwa [there.sources, ← List.mem_cons]

/-- A section in the file of `a` is scoped to `b`. -/
def lent : List (String × String) :=
  [("conf/app-a.properties", "autowire.config.activate.on-profile=b")]

/-- A section is scoped to an expression that may be the name of a profile. -/
def denying : List (String × String) :=
  [("conf/app.properties", "autowire.config.activate.on-profile=!b")]

/-- The file of a profile with a comma in its name. -/
def joined : List (String × String) :=
  [("conf/app-a,b.properties", "port=80")]

/-- What spells the requested profiles in their order. -/
def spelled : String :=
  Placeholder.mention Keys.activeProfiles none

theorem resolve_spelled {active : List String} (filled : active ≠ []) (included : List String)
    (fixed : '$' ∉ (",".intercalate active).toList) (mode : Placeholder.Mode) :
    Placeholder.resolve (forProfiles active included).lookup mode spelled =
      .ok (",".intercalate active) := by
  have held : (forProfiles active included).get? Keys.activeProfiles =
      some (",".intercalate active) := by
    rw [Environment.get?, Sources.get?, layers_forProfiles filled, List.findSome?_singleton]
    exact get?_active_request filled included
  exact (Placeholder.resolve_mention_eq_ok_iff (by decide) held).mpr
    ((Placeholder.fixed_of_no_dollar fixed).resolves _ mode)

theorem includes_spelled {active : List String} (filled : active ≠ [])
    (fixed : '$' ∉ (",".intercalate active).toList) :
    (forProfiles active [spelled]).resolveList Keys.includedProfiles =
      .ok [",".intercalate active] := by
  have held : (request KeyedList.empty active [spelled]).get? Keys.includedProfiles =
      some spelled := by
    simp only [request, List.isEmpty_eq_false_iff.mpr filled, List.isEmpty_cons]
    rw [if_neg Bool.false_ne_true, Source.get?, Source.set, KeyedList.get?_insert, if_pos rfl]
    rfl
  have listed : (forProfiles active [spelled]).list? Keys.includedProfiles = some [spelled] := by
    rw [Environment.list?, Sources.list?, layers_forProfiles filled, List.findSome?_singleton,
      Source.list?, held]
    rfl
  rw [Environment.resolveList, listed]
  refine Traversal.mapM_eq_ok_iff.mpr (.cons ?_ .nil)
  exact resolve_spelled filled [spelled] fixed .lenient

/-- The order decides whether the section for `b` counts, whether a negation counts in the turn of
the profile that is called like it, and which profile the list to include spells. -/
theorem activation_order_tells :
    (ofFiles lent).OrderTells ["a", "b"] ["b", "a"] []
        "applicationConfig: [conf/app-a.properties]" ∧
      (ofFiles denying).OrderTells ["!b", "b"] ["b", "!b"] []
        "applicationConfig: [conf/app.properties]" ∧
      (ofFiles joined).OrderTells ["a", "b"] ["b", "a"] [spelled]
        "applicationConfig: [conf/app-a,b.properties]" := by
  refine ⟨⟨.swap "a" "b" [], by decide, ?_⟩, ⟨.swap "!b" "b" [], by decide, ?_⟩,
    ⟨.swap "a" "b" [], by decide, ?_⟩⟩
  · have here : ∃ first, (ofFiles lent).Gives ["a", "b"] [] ["a", "b"]
        ["applicationConfig: [conf/app-a.properties]"] first :=
      exists_gives_of_files lent [] ["a", "b"] (by decide) (by cbv) (by cbv) (by rfl) 2 (by cbv)
    have there : ∃ second, (ofFiles lent).Gives ["b", "a"] [] ["b", "a"] [] second :=
      exists_gives_of_files lent [] ["b", "a"] (by decide) (by cbv) (by cbv) (by rfl) 2 (by cbv)
    exact differs_of_gives here there (by decide) (by decide)
  · have here : ∃ first, (ofFiles denying).Gives ["!b", "b"] [] ["!b", "b"]
        ["applicationConfig: [conf/app.properties]"] first :=
      exists_gives_of_files denying [] ["!b", "b"] (by decide) (by cbv) (by cbv) (by rfl) 2 (by cbv)
    have there : ∃ second, (ofFiles denying).Gives ["b", "!b"] [] ["b", "!b"] [] second :=
      exists_gives_of_files denying [] ["b", "!b"] (by decide) (by cbv) (by cbv) (by rfl) 2 (by cbv)
    exact differs_of_gives here there (by decide) (by decide)
  · have here : ∃ first, (ofFiles joined).Gives ["a", "b"] [spelled] ["a,b", "a", "b"]
        ["applicationConfig: [conf/app-a,b.properties]"] first :=
      exists_gives_of_files joined ["a,b"] ["a,b", "a", "b"] (by decide) (by cbv)
        (includes_spelled (by decide) (by decide)) (by rfl) 3 (by cbv)
    have there : ∃ second, (ofFiles joined).Gives ["b", "a"] [spelled] ["b,a", "b", "a"] []
        second :=
      exists_gives_of_files joined ["b,a"] ["b,a", "b", "a"] (by decide) (by cbv)
        (includes_spelled (by decide) (by decide)) (by rfl) 3 (by cbv)
    exact differs_of_gives here there (by decide) (by decide)

end Assembler
end LayeredConfig
