import LayeredConfig.Assembly.Search
import LayeredConfig.Proofs.Traversal
import Mathlib.Data.List.Basic

namespace LayeredConfig
namespace Assembly
namespace Search

open Property

/-!
# Which loader is used for an extension

A search through a directory keeps the first claim to each extension while it
goes through the loaders; the loader of a single file is looked up by its
extension.  Both compare extensions without the case of letters and come to the
same loader, however the claims overlap or repeat.
-/

/-! ## The first entry of each key -/

section KeepFirst

variable {Entry Other : Type}

/-- Keep the first entry of each key, but none of a key that was seen before. -/
def keepFirst (key : Entry → String) (seen : List String) : List Entry → List Entry
  | [] => []
  | entry :: rest =>
      if key entry ∈ seen then keepFirst key seen rest
      else entry :: keepFirst key (key entry :: seen) rest

theorem keepFirst_sublist (key : Entry → String) (seen : List String) (entries : List Entry) :
    (keepFirst key seen entries).Sublist entries := by
  induction entries generalizing seen with
  | nil => exact List.Sublist.refl []
  | cons entry rest ih =>
      rw [keepFirst]
      split
      · exact (ih seen).cons entry
      · exact (ih (key entry :: seen)).cons_cons entry

/-- What else the entries hold makes no difference. -/
theorem keepFirst_map {key : Entry → String} {otherKey : Other → String} {change : Entry → Other}
    (same : ∀ entry, otherKey (change entry) = key entry) (seen : List String)
    (entries : List Entry) :
    keepFirst otherKey seen (entries.map change) = (keepFirst key seen entries).map change := by
  induction entries generalizing seen with
  | nil => rfl
  | cons entry rest ih =>
      rw [List.map_cons, keepFirst, keepFirst, same, ih, ih]
      split
      · rfl
      · rw [List.map_cons]

/-- The entry that is kept of a key is the first one. -/
theorem filter_keepFirst (key : Entry → String) (seen : List String) (entries : List Entry)
    (wanted : String) :
    (keepFirst key seen entries).filter (fun entry => key entry = wanted) =
      if wanted ∈ seen then []
      else (entries.find? fun entry => key entry = wanted).toList := by
  induction entries generalizing seen with
  | nil => simp [keepFirst]
  | cons entry rest ih =>
      rw [keepFirst, List.find?_cons]
      by_cases same : key entry = wanted
      · subst same
        by_cases met : key entry ∈ seen
        · rw [if_pos met, ih, if_pos met, if_pos met]
        · rw [if_neg met, if_neg met, List.filter_cons, ih]
          simp
      · by_cases met : key entry ∈ seen
        · simp [met, same, ih]
        · have other : wanted ∈ key entry :: seen ↔ wanted ∈ seen := by
            rw [List.mem_cons, or_iff_right (Ne.symm same)]
          rw [if_neg met, List.filter_cons_of_neg (by simpa using same), ih]
          simp [other, same]

end KeepFirst

/-! ## The claims with the positions of the loaders -/

/-- Every claim of a loader to an extension, with the loader and its position. -/
def placedClaims (loaders : List Loader) : List (String × Loader × Nat) :=
  loaders.zipIdx.flatMap fun placed =>
    placed.1.extensions.map fun extension => (extension, placed)

/-- The extensions to try in a directory, each with the position of the loader that is used. -/
def scan (loaders : List Loader) : List (String × Nat) :=
  keepFirst (fun claim => Text.asciiLower claim.1) []
    ((placedClaims loaders).map fun claim => (claim.1, claim.2.2))

theorem getElem?_of_mem_placedClaims {loaders : List Loader} {claim : String × Loader × Nat}
    (member : claim ∈ placedClaims loaders) : loaders[claim.2.2]? = some claim.2.1 := by
  rcases List.mem_flatMap.mp member with ⟨placed, inside, claimed⟩
  rcases List.mem_map.mp claimed with ⟨extension, _, rfl⟩
  exact List.mem_zipIdx_iff_getElem?.mp inside

theorem firstClaims_eq_keepFirst (seen : List String) (claims : List (String × Loader)) :
    firstClaims seen claims = keepFirst (fun claim => Text.asciiLower claim.1) seen claims := by
  induction claims generalizing seen with
  | nil => rfl
  | cons claim rest ih =>
      rw [firstClaims, keepFirst, ih, ih]

theorem claimed_eq_placed (loaders : List Loader) :
    (loaders.flatMap fun loader =>
        loader.extensions.map fun extension => (extension, loader)) =
      (placedClaims loaders).map fun claim => (claim.1, claim.2.1) := by
  have split : loaders = (loaders.zipIdx).map Prod.fst := (List.zipIdx_map_fst 0 loaders).symm
  rw [placedClaims, List.map_flatMap]
  conv_lhs => rw [split, List.flatMap_map]
  refine List.flatMap_congr fun placed _ => ?_
  rw [List.map_map]
  rfl

/-- The claims that a directory search keeps are those of the loaders in these positions. -/
theorem claims_eq_scan (loaders : List Loader) :
    claims loaders = (scan loaders).filterMap fun entry =>
      loaders[entry.2]?.map fun loader => (entry.1, loader) := by
  have held : ∀ claim ∈ keepFirst (fun claim => Text.asciiLower claim.1) [] (placedClaims loaders),
      (loaders[claim.2.2]?.map fun loader => (claim.1, loader)) = some (claim.1, claim.2.1) := by
    intro claim member
    rw [getElem?_of_mem_placedClaims ((keepFirst_sublist _ _ _).subset member)]
    rfl
  rw [claims, claimed_eq_placed, firstClaims_eq_keepFirst, scan, keepFirst_map (fun _ => rfl),
    keepFirst_map (fun _ => rfl), List.filterMap_map, ← List.filterMap_eq_map]
  exact (List.filterMap_congr held).symm

theorem map_find?_const {Item Value : Type} (wanted : Item → Bool) (value : Value)
    (items : List Item) :
    ((items.find? wanted).map fun _ => value) = if items.any wanted then some value else none := by
  induction items with
  | nil => rfl
  | cons item rest ih =>
      rw [List.find?_cons, List.any_cons]
      cases wanted item with
      | true => rfl
      | false => rw [ih, Bool.false_or]

/-- Among the claims of one loader an extension has the position of that loader. -/
theorem find?_claimed (loader : Loader) (position : Nat) (extension : String) :
    (((loader.extensions.map fun known => (known, position)).find? fun claim =>
        Text.asciiLower claim.1 = Text.asciiLower extension).map Prod.snd) =
      if loader.claims extension then some position else none := by
  rw [List.find?_map, Option.map_map, Loader.claims]
  exact map_find?_const _ position loader.extensions

/-- Of the entries of an extension there is the one of the first loader that claims it. -/
theorem filter_scan (loaders : List Loader) (extension : String) :
    ((scan loaders).filter fun entry =>
        Text.asciiLower entry.1 = Text.asciiLower extension).map Prod.snd =
      (Loader.position? loaders extension).toList := by
  rw [scan, filter_keepFirst, if_neg List.not_mem_nil, Loader.position?,
    List.findIdx?_eq_findSome?_zipIdx, placedClaims, List.map_flatMap, List.find?_flatMap,
    ← Option.toList_map, List.map_findSome?]
  congr 2
  funext placed
  rw [Function.comp_apply, List.map_map]
  exact find?_claimed placed.1 placed.2 extension

theorem find?_eq_position? (loaders : List Loader) (extension : String) :
    Loader.find? loaders extension =
      (Loader.position? loaders extension).bind fun position => loaders[position]? :=
  List.find?_eq_bind_findIdx?_getElem?

/-! ## Main result -/

theorem nodup_allNames {search : Search} {environment : Environment} {names : List String}
    (named : search.allNames environment = .ok names) : names.Nodup := by
  rcases Traversal.map_eq_ok_iff.mp named with ⟨resolved, _, rfl⟩
  exact Names.nodup_addAll List.nodup_nil _

/-- A search through a directory probes, for each base name once, the extensions of one scan of
the loaders.  In this scan an extension in letters of any case stands once, with the position at
which the loader of a file with that extension is looked up, and not at all where none claims it. -/
theorem scan_agrees_with_lookup {search : Search} {environment : Environment} {names : List String}
    (named : search.allNames environment = .ok names) (loaders : List Loader)
    (profile : Option String) (earlier : List String) (location : String) :
    search.directoryProbes loaders environment profile earlier location =
      (names.flatMap fun name => (scan loaders).flatMap fun entry =>
        (loaders[entry.2]?.toList.flatMap fun loader =>
          (profileProbes (location ++ name) entry.1 loader profile earlier).map .ok)) ∧
    names.Nodup ∧
    ∀ extension,
      ((scan loaders).filter fun entry =>
          Text.asciiLower entry.1 = Text.asciiLower extension).map Prod.snd =
        (Loader.position? loaders extension).toList ∧
      Loader.find? loaders extension =
        (Loader.position? loaders extension).bind fun position => loaders[position]? := by
  refine ⟨?_, nodup_allNames named, fun extension => ⟨filter_scan loaders extension,
    find?_eq_position? loaders extension⟩⟩
  simp only [directoryProbes, named]
  refine List.flatMap_congr fun name _ => ?_
  rw [claims_eq_scan, List.filterMap_eq_flatMap_toList, List.flatMap_assoc]
  refine List.flatMap_congr fun entry _ => ?_
  rw [Option.toList_map, List.flatMap_map]

/-- Two loaders that claim some extensions both, and one of them twice. -/
def overlapping : List Loader :=
  [⟨["YML", "conf", "yml"], .lines⟩, ⟨["yaml", "Conf"], .yaml⟩]

theorem scan_agrees_with_lookup_overlapping :
    Search.standard.allNames Environment.initial = .ok ["application"] ∧
      scan overlapping = [("YML", 0), ("conf", 0), ("yaml", 1)] ∧
      Loader.position? overlapping "CONF" = some 0 ∧ Loader.position? overlapping "json" = none ∧
      (Search.standard.directoryProbes overlapping Environment.initial none [] "d/").map
          (fun step => step.toOption.map fun probe => (probe.location, probe.loader)) =
        [some ("d/application.YML", ⟨["YML", "conf", "yml"], .lines⟩),
          some ("d/application.conf", ⟨["YML", "conf", "yml"], .lines⟩),
          some ("d/application.yaml", ⟨["yaml", "Conf"], .yaml⟩)] := by
  have named : Search.standard.allNames Environment.initial = .ok ["application"] := by
    unfold allNames
    cbv
  have scanned : scan overlapping = [("YML", 0), ("conf", 0), ("yaml", 1)] := by decide
  rcases scan_agrees_with_lookup named overlapping none [] "d/" with ⟨probed, _, agree⟩
  have upper := (agree "CONF").1
  have missing := (agree "json").1
  rw [scanned] at upper missing probed
  refine ⟨named, scanned, ?_, ?_, ?_⟩
  · exact Option.toList_eq_singleton_iff.mp (upper.symm.trans (by decide))
  · exact Option.toList_eq_nil_iff.mp (missing.symm.trans (by decide))
  · rw [probed]
    rfl

end Search
end Assembly
end LayeredConfig
