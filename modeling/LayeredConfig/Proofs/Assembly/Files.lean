import LayeredConfig.Assembly.Library
import LayeredConfig.Assembly.Search

namespace LayeredConfig
namespace Assembly

open Property

/-!
# The files that a search looks at

Every probe looks at a base file or at the file of a profile, in a directory of
the search or at an explicit location.  With the standard loaders the extension
of the location decides the loader.
-/

namespace Search

/-- A base file: one of a base name in a directory, or an explicit location. -/
inductive BaseFile (search : Search) (loaders : List Loader) (environment : Environment) :
    Loader → String → Prop where
  | inDirectory {locations names : List String} {directory name extension : String}
      {loader : Loader} (located : search.allLocations environment = .ok locations)
      (listed : directory ∈ locations) (slash : directory.toList.getLast? = some '/')
      (named : search.allNames environment = .ok names) (tried : name ∈ names)
      (claimed : (extension, loader) ∈ claims loaders) :
      BaseFile search loaders environment loader (directory ++ name ++ "." ++ extension)
  | explicit {locations : List String} {location : String} {loader : Loader}
      (located : search.allLocations environment = .ok locations) (listed : location ∈ locations)
      (file : location.toList.getLast? ≠ some '/')
      (found : (Resource.extension? location).bind (Loader.find? loaders) = some loader) :
      BaseFile search loaders environment loader location

/-- The file of a profile in a directory. -/
inductive ProfileFile (search : Search) (loaders : List Loader) (environment : Environment)
    (profile : String) : Loader → String → Prop where
  | inDirectory {locations names : List String} {directory name extension : String}
      {loader : Loader} (located : search.allLocations environment = .ok locations)
      (listed : directory ∈ locations) (slash : directory.toList.getLast? = some '/')
      (named : search.allNames environment = .ok names) (tried : name ∈ names)
      (claimed : (extension, loader) ∈ claims loaders) :
      ProfileFile search loaders environment profile loader
        (directory ++ name ++ "-" ++ profile ++ "." ++ extension)

/-! ## Which probes there are -/

theorem mem_profileProbes_iff {base extension : String} {loader : Loader}
    {profile : Option String} {earlier : List String} {probe : Probe} :
    probe ∈ profileProbes base extension loader profile earlier ↔
      probe = ⟨loader, base ++ "." ++ extension, profile⟩ ∨
        ∃ own, profile = some own ∧
          (probe = ⟨loader, base ++ "-" ++ own ++ "." ++ extension, none⟩ ∨
            ∃ name, (name = own ∨ name ∈ earlier) ∧
              probe = ⟨loader, base ++ "-" ++ name ++ "." ++ extension, profile⟩) := by
  unfold profileProbes
  cases profile with
  | none => simp
  | some own =>
      simp only [List.cons_append, List.mem_cons, List.mem_append, List.mem_map,
        List.not_mem_nil, or_false, Option.some.injEq, exists_eq_left', or_and_right, exists_or,
        exists_eq_left]
      constructor
      · rintro (specific | specific | ⟨name, before, rfl⟩ | base)
        · exact Or.inr (Or.inl specific)
        · exact Or.inr (Or.inr (Or.inl specific))
        · exact Or.inr (Or.inr (Or.inr ⟨name, before, rfl⟩))
        · exact Or.inl base
      · rintro (base | specific | specific | ⟨name, before, rfl⟩)
        · exact Or.inr (Or.inr (Or.inr base))
        · exact Or.inl specific
        · exact Or.inr (Or.inl specific)
        · exact Or.inr (Or.inr (Or.inl ⟨name, before, rfl⟩))

/-- A probe in a directory comes from a base name and a claimed extension. -/
theorem mem_directoryProbes_iff {search : Search} {loaders : List Loader}
    {environment : Environment} {profile : Option String} {earlier : List String}
    {directory : String} {probe : Probe} :
    .ok probe ∈ search.directoryProbes loaders environment profile earlier directory ↔
      ∃ names name extension loader, search.allNames environment = .ok names ∧ name ∈ names ∧
        (extension, loader) ∈ claims loaders ∧
        probe ∈ profileProbes (directory ++ name) extension loader profile earlier := by
  unfold directoryProbes
  cases named : search.allNames environment with
  | error error => simp
  | ok names =>
      simp only [List.mem_flatMap, List.mem_map, Prod.exists, Except.ok.injEq, exists_eq_right]
      constructor
      · rintro ⟨name, tried, extension, loader, claimed, member⟩
        exact ⟨names, name, extension, loader, rfl, tried, claimed, member⟩
      · rintro ⟨_, name, extension, loader, rfl, tried, claimed, member⟩
        exact ⟨name, tried, extension, loader, claimed, member⟩

theorem fileProbe_eq_ok_iff {loaders : List Loader} {profile : Option String}
    {location : String} {probe : Probe} :
    fileProbe loaders profile location = .ok probe ↔
      ∃ loader, (Resource.extension? location).bind (Loader.find? loaders) = some loader ∧
        probe = ⟨loader, location, profile⟩ := by
  unfold fileProbe
  cases (Resource.extension? location).bind (Loader.find? loaders) with
  | none => simp
  | some loader => simp [eq_comm]

theorem mem_probes_iff {search : Search} {loaders : List Loader} {environment : Environment}
    {profile : Option String} {earlier : List String} {probe : Probe} :
    .ok probe ∈ search.probes loaders environment profile earlier ↔
      ∃ locations location, search.allLocations environment = .ok locations ∧
        location ∈ locations ∧
        if location.toList.getLast? = some '/' then
          .ok probe ∈ search.directoryProbes loaders environment profile earlier location
        else fileProbe loaders profile location = .ok probe := by
  unfold probes
  cases located : search.allLocations environment with
  | error error => simp
  | ok locations =>
      simp only [List.mem_flatMap, Except.ok.injEq]
      constructor
      · rintro ⟨location, listed, member⟩
        refine ⟨locations, location, rfl, listed, ?_⟩
        split at member
        · next slash =>
            rw [if_pos slash]
            exact member
        · next file =>
            rw [if_neg file]
            exact (List.mem_singleton.mp member).symm
      · rintro ⟨_, location, rfl, listed, member⟩
        refine ⟨location, listed, ?_⟩
        split
        · next slash =>
            rw [if_pos slash] at member
            exact member
        · next file =>
            rw [if_neg file] at member
            exact List.mem_singleton.mpr member.symm

/-- A probe looks at a base file for the profile of its pass, at the file of that profile for what
has no scope or is scoped to it, or at the file of an earlier profile for what is scoped to it. -/
theorem mem_probes_iff_file {search : Search} {loaders : List Loader} {environment : Environment}
    {profile : Option String} {earlier : List String} {probe : Probe} :
    .ok probe ∈ search.probes loaders environment profile earlier ↔
      (BaseFile search loaders environment probe.loader probe.location ∧ probe.scope = profile) ∨
        ∃ own name, profile = some own ∧
          (name = own ∧ (probe.scope = none ∨ probe.scope = profile) ∨
            name ∈ earlier ∧ probe.scope = profile) ∧
          ProfileFile search loaders environment name probe.loader probe.location := by
  constructor
  · intro member
    rcases mem_probes_iff.mp member with ⟨locations, location, located, listed, step⟩
    split at step
    · next slash =>
        rcases mem_directoryProbes_iff.mp step with
          ⟨names, name, extension, loader, named, tried, claimed, inside⟩
        rcases mem_profileProbes_iff.mp inside with rfl | ⟨own, rfl, rfl | ⟨other, which, rfl⟩⟩
        · exact .inl ⟨.inDirectory located listed slash named tried claimed, rfl⟩
        · exact .inr ⟨own, own, rfl, .inl ⟨rfl, .inl rfl⟩,
            .inDirectory located listed slash named tried claimed⟩
        · exact .inr ⟨own, other, rfl, which.imp (fun same => ⟨same, .inr rfl⟩) fun before =>
            ⟨before, rfl⟩, .inDirectory located listed slash named tried claimed⟩
    · next file =>
        rcases fileProbe_eq_ok_iff.mp step with ⟨loader, found, rfl⟩
        exact .inl ⟨.explicit located listed file found, rfl⟩
  · obtain ⟨loader, location, scope⟩ := probe
    rintro (⟨base, rfl⟩ | ⟨own, name, rfl, which, specific⟩)
    · cases base with
      | inDirectory located listed slash named tried claimed =>
          refine mem_probes_iff.mpr ⟨_, _, located, listed, ?_⟩
          rw [if_pos slash]
          exact mem_directoryProbes_iff.mpr ⟨_, _, _, _, named, tried, claimed,
            mem_profileProbes_iff.mpr (.inl rfl)⟩
      | explicit located listed file found =>
          refine mem_probes_iff.mpr ⟨_, location, located, listed, ?_⟩
          rw [if_neg file]
          exact fileProbe_eq_ok_iff.mpr ⟨loader, found, rfl⟩
    · rcases specific with ⟨located, listed, slash, named, tried, claimed⟩
      refine mem_probes_iff.mpr ⟨_, _, located, listed, ?_⟩
      rw [if_pos slash]
      refine mem_directoryProbes_iff.mpr ⟨_, _, _, _, named, tried, claimed,
        mem_profileProbes_iff.mpr (.inr ⟨own, rfl, ?_⟩)⟩
      rcases which with ⟨rfl, rfl | rfl⟩ | ⟨before, rfl⟩
      · exact .inl rfl
      · exact .inr ⟨name, .inl rfl, rfl⟩
      · exact .inr ⟨name, .inr before, rfl⟩

/-- The passes for no profile look at every base file. -/
theorem mem_probes_of_baseFile {search : Search} {loaders : List Loader}
    {environment : Environment} {loader : Loader} {location : String}
    (base : BaseFile search loaders environment loader location) :
    .ok ⟨loader, location, none⟩ ∈ search.probes loaders environment none [] :=
  mem_probes_iff_file.mpr (.inl ⟨base, rfl⟩)

/-- A probe looks at a base file for the profile of its pass, or at the file of that profile or
of an earlier one. -/
theorem file_of_mem_probes {search : Search} {loaders : List Loader}
    {environment : Environment} {profile : Option String} {earlier : List String} {probe : Probe}
    (member : .ok probe ∈ search.probes loaders environment profile earlier) :
    (BaseFile search loaders environment probe.loader probe.location ∧ probe.scope = profile) ∨
      ∃ own name, profile = some own ∧ (name = own ∨ name ∈ earlier) ∧
        (probe.scope = none ∨ probe.scope = profile) ∧
        ProfileFile search loaders environment name probe.loader probe.location := by
  rcases mem_probes_iff_file.mp member with base | ⟨own, name, rfl, which, specific⟩
  · exact .inl base
  · rcases which with ⟨same, limited⟩ | ⟨before, limited⟩
    · exact .inr ⟨own, name, rfl, .inl same, limited, specific⟩
    · exact .inr ⟨own, name, rfl, .inr before, .inr limited, specific⟩

end Search
end Assembly
end LayeredConfig
