import LayeredConfig.Proofs.Assembly.Files
import LayeredConfig.Proofs.Assembly.SourceNames
import LayeredConfig.Proofs.Traversal
import Mathlib

namespace LayeredConfig

open Property

/-!
# Reading with the standard loaders

The standard loaders claim three extensions, none of which holds a separator, so
that the extension of a location gives back the one that a search appended.  A
location is therefore read by one loader only, and two documents whose sources
have one name are one document.
-/

namespace Resource

theorem lastPiece_append_of_none {isSeparator : Char → Bool} {first second : List Char}
    (none : ∀ c ∈ second, isSeparator c = false) :
    lastPiece isSeparator (first ++ second) = lastPiece isSeparator first ++ second := by
  unfold lastPiece
  rw [List.reverse_append, List.takeWhile_append_of_pos, List.reverse_append, List.reverse_reverse]
  intro c member
  rw [none c (List.mem_reverse.mp member)]
  rfl

theorem lastPiece_append_cons {isSeparator : Char → Bool} {first second : List Char}
    {separator : Char} (found : isSeparator separator = true)
    (none : ∀ c ∈ second, isSeparator c = false) :
    lastPiece isSeparator (first ++ separator :: second) = second := by
  have split : first ++ separator :: second = (first ++ [separator]) ++ second := by simp
  have nothing : lastPiece isSeparator (first ++ [separator]) = [] := by
    simp [lastPiece, found]
  rw [split, lastPiece_append_of_none none, nothing, List.nil_append]

/-- An extension without separators that is appended is the extension. -/
theorem extension?_append {base extension : String} (long : extension.toList ≠ [])
    (plain : extension.toList.all (fun c => c ≠ '/' && c ≠ '\\' && c ≠ ':' && c ≠ '.') = true) :
    extension? (base ++ "." ++ extension) = some extension := by
  have apart : ∀ c ∈ extension.toList, c ≠ '/' ∧ c ≠ '\\' ∧ c ≠ ':' ∧ c ≠ '.' := by
    intro c member
    have free := List.all_eq_true.mp plain c member
    simp only [Bool.and_eq_true, decide_eq_true_eq, and_assoc] at free
    exact free
  have spelled : (base ++ "." ++ extension).toList =
      base.toList ++ '.' :: extension.toList := by
    have dot : ".".toList = ['.'] := by decide
    rw [String.toList_append, String.toList_append, dot, List.append_assoc]
    rfl
  have noSlash : ∀ c ∈ '.' :: extension.toList, (c = '/' || c = '\\') = false := by
    rw [List.forall_mem_cons]
    constructor
    · decide
    · intro c member
      simp [(apart c member).1, (apart c member).2.1]
  have noColon : ∀ c ∈ '.' :: extension.toList, (decide (c = ':')) = false := by
    rw [List.forall_mem_cons]
    constructor
    · decide
    · intro c member
      simp [(apart c member).2.2.1]
  have noDot : ∀ c ∈ extension.toList, (decide (c = '.')) = false := by
    intro c member
    simp [(apart c member).2.2.2]
  unfold extension?
  simp only [spelled, lastPiece_append_of_none noSlash, lastPiece_append_of_none noColon]
  have ending : extension.toList.isEmpty = false := List.isEmpty_eq_false_iff.mpr long
  rw [lastPiece_append_cons (by decide) noDot, String.ofList_toList, ending]
  simp

end Resource

namespace Assembly

/-- The loader that claims the extension of a location. -/
def loaderFor (loaders : List Loader) (location : String) : Option Loader :=
  (Resource.extension? location).bind (Loader.find? loaders)

theorem claims_standard : Search.claims Loader.standard =
    [("properties", Loader.lines), ("yml", Loader.yaml), ("yaml", Loader.yaml)] := by
  cbv

theorem loaderFor_standard {base extension : String} {loader : Loader}
    (claimed : (extension, loader) ∈ Search.claims Loader.standard) :
    loaderFor Loader.standard (base ++ "." ++ extension) = some loader := by
  rw [claims_standard] at claimed
  unfold loaderFor
  simp only [List.mem_cons, Prod.mk.injEq, List.not_mem_nil, or_false] at claimed
  rcases claimed with ⟨rfl, rfl⟩ | ⟨rfl, rfl⟩ | ⟨rfl, rfl⟩
  · rw [Resource.extension?_append (by decide) (by decide)]
    cbv
  · rw [Resource.extension?_append (by decide) (by decide)]
    cbv
  · rw [Resource.extension?_append (by decide) (by decide)]
    cbv

theorem loaderFor_of_baseFile {search : Search} {environment : Environment} {loader : Loader}
    {location : String}
    (base : search.BaseFile Loader.standard environment loader location) :
    loaderFor Loader.standard location = some loader := by
  cases base with
  | inDirectory _ _ _ _ _ claimed => exact loaderFor_standard claimed
  | explicit _ _ _ found => exact found

theorem loaderFor_of_profileFile {search : Search} {environment : Environment}
    {profile : String} {loader : Loader} {location : String}
    (specific : search.ProfileFile Loader.standard environment profile loader location) :
    loaderFor Loader.standard location = some loader := by
  cases specific with
  | inDirectory _ _ _ _ _ claimed => exact loaderFor_standard claimed

/-- What a search with the standard loaders looks at is read by the loader that claims the
extension of the location. -/
theorem loaderFor_of_mem_probes {search : Search} {environment : Environment}
    {profile : Option String} {earlier : List String} {probe : Probe}
    (member : .ok probe ∈ search.probes Loader.standard environment profile earlier) :
    loaderFor Loader.standard probe.location = some probe.loader := by
  rcases Search.file_of_mem_probes member with ⟨base, _⟩ | ⟨_, _, _, _, _, specific⟩
  · exact loaderFor_of_baseFile base
  · exact loaderFor_of_profileFile specific

end Assembly
end LayeredConfig
