import LayeredConfig.Module.Selection
import LayeredConfig.Proofs.Assembly.Documents
import LayeredConfig.Proofs.Placeholder.Joining
import LayeredConfig.Proofs.Text.CommaList
import Mathlib

namespace LayeredConfig

open Property

/-!
# Lists that are resolved entry by entry

A list written as one text is cut at its commas before placeholders are resolved,
so that each entry is resolved by itself.  What is read this way is compared with
the list that the resolved text spells.  Where the commas of the text stand
between its placeholders the two lists hold the same items, and they are one list
exactly when no entry resolves to more or less than one item.
-/

/-! ## Entries and the text that lists them -/

namespace Placeholder

open Text

variable {lookup : Lookup} {mode : Mode}

/-- The commas of the value stand outside its placeholders: cutting it at the commas cuts none
of its segments but the plain ones. -/
def CommasApart (value : String) : Prop :=
  segments value.toList = separated (splitAt ',' value.toList)

instance (value : String) : Decidable (CommasApart value) :=
  inferInstanceAs (Decidable (segments value.toList = separated (splitAt ',' value.toList)))

/-- So it is when each placeholder ends before the next comma. -/
theorem commasApart_of_closed {value : String}
    (closed : ∀ piece ∈ splitAt ',' value.toList, Closed piece) : CommasApart value :=
  segments_eq_separated closed

theorem unmarked_of_blank {blanks : List Char} (white : ∀ c ∈ blanks, isBlank c = true) :
    Unmarked blanks where
  dollar := not_mem_of_blank (by decide) white
  opening := not_mem_of_blank (by decide) white
  closing := not_mem_of_blank (by decide) white

/-- What a text lists once it is resolved. -/
def Lists (lookup : Lookup) (mode : Mode) (cs : List Char) (listed : List (List Char)) : Prop :=
  ∃ out, Resolves lookup mode [] (segments cs) out ∧ items out = listed

/-- Blanks around a text add nothing to what it lists. -/
theorem lists_trimBoth_iff {cs : List Char} {listed : List (List Char)} :
    Lists lookup mode (trimBoth cs) listed ↔ Lists lookup mode cs listed := by
  obtain ⟨before, after, split, white, whiteAfter⟩ := exists_trimBoth cs
  have around : segments cs = segments (before ++ trimBoth cs ++ after) := congrArg segments split
  unfold Lists
  simp only [around,
    resolves_surrounded_iff (unmarked_of_blank white) (unmarked_of_blank whiteAfter)]
  constructor
  · rintro ⟨core, resolved, rfl⟩
    exact ⟨_, ⟨core, resolved, rfl⟩, items_append_blanks white whiteAfter core⟩
  · rintro ⟨_, ⟨core, resolved, rfl⟩, rfl⟩
    exact ⟨core, resolved, (items_append_blanks white whiteAfter core).symm⟩

theorem lists_nil_iff {listed : List (List Char)} : Lists lookup mode [] listed ↔ [] = listed := by
  have unmarked : Unmarked [] := unmarked_of_blank (by simp)
  unfold Lists
  simp only [resolves_unmarked_iff unmarked, exists_eq_left, items_nil]

/-- What texts list one after the other, each resolved by itself. -/
def ListsTogether (lookup : Lookup) (mode : Mode) (texts listed : List (List Char)) : Prop :=
  ∃ outs, List.Forall₂ (fun text => Resolves lookup mode [] (segments text)) texts outs ∧
    outs.flatMap items = listed

theorem listsTogether_cons_iff {text : List Char} {texts listed : List (List Char)} :
    ListsTogether lookup mode (text :: texts) listed ↔
      ∃ first rest, Lists lookup mode text first ∧ ListsTogether lookup mode texts rest ∧
        first ++ rest = listed := by
  constructor
  · rintro ⟨_, _ | ⟨resolved, others⟩, rfl⟩
    exact ⟨_, _, ⟨_, resolved, rfl⟩, ⟨_, others, rfl⟩, rfl⟩
  · rintro ⟨_, _, ⟨out, resolved, rfl⟩, ⟨outs, others, rfl⟩, rfl⟩
    exact ⟨out :: outs, .cons resolved others, rfl⟩

/-- The pieces of a text list the same as its items, which are trimmed and not empty. -/
theorem listsTogether_pieces_iff {pieces listed : List (List Char)} :
    ListsTogether lookup mode ((pieces.map trimBoth).filter fun item => !item.isEmpty) listed ↔
      ListsTogether lookup mode pieces listed := by
  induction pieces generalizing listed with
  | nil => rfl
  | cons piece others ih =>
      have trimmed : ∀ first, Lists lookup mode piece first ↔
          Lists lookup mode (trimBoth piece) first := fun _ => lists_trimBoth_iff.symm
      rw [List.map_cons, listsTogether_cons_iff]
      simp only [trimmed]
      by_cases empty : trimBoth piece = []
      · rw [List.filter_cons_of_neg (by simp [empty]), ih, empty]
        simp [lists_nil_iff]
      · rw [List.filter_cons_of_pos (by simpa using empty), listsTogether_cons_iff]
        simp only [ih]

/-- Where commas stand between placeholders, the text lists what its items list. -/
theorem lists_iff_listsTogether {cs : List Char}
    (apart : segments cs = separated (splitAt ',' cs)) {listed : List (List Char)} :
    Lists lookup mode cs listed ↔ ListsTogether lookup mode (items cs) listed := by
  rw [items, listsTogether_pieces_iff]
  unfold Lists ListsTogether
  simp only [apart, resolves_separated_iff]
  constructor
  · rintro ⟨_, ⟨outs, resolved, rfl⟩, rfl⟩
    exact ⟨outs, resolved, (items_intercalate outs).symm⟩
  · rintro ⟨outs, resolved, rfl⟩
    exact ⟨_, ⟨outs, resolved, rfl⟩, items_intercalate outs⟩

theorem exists_resolve_iff {value : String} {listed : List (List Char)} :
    (∃ text, resolve lookup mode value = .ok text ∧ items text.toList = listed) ↔
      Lists lookup mode value.toList listed := by
  simp only [resolve_eq_ok_iff]
  constructor
  · rintro ⟨text, resolved, same⟩
    exact ⟨_, resolved, same⟩
  · rintro ⟨out, resolved, same⟩
    refine ⟨String.ofList out, ?_, ?_⟩
    · rwa [String.toList_ofList]
    · rwa [String.toList_ofList]

theorem exists_mapM_resolve_iff {texts listed : List (List Char)} :
    (∃ names, (texts.map String.ofList).mapM (resolve lookup mode) = .ok names ∧
      names.flatMap (items ∘ String.toList) = listed) ↔ ListsTogether lookup mode texts listed := by
  simp only [Traversal.mapM_eq_ok_iff, List.forall₂_map_left_iff, resolve_eq_ok_iff,
    String.toList_ofList]
  constructor
  · rintro ⟨names, resolved, same⟩
    refine ⟨names.map String.toList, List.forall₂_map_right_iff.mpr resolved, ?_⟩
    rwa [List.flatMap_map]
  · rintro ⟨outs, resolved, same⟩
    refine ⟨outs.map String.ofList, List.forall₂_map_right_iff.mpr ?_, ?_⟩
    · simpa only [String.toList_ofList] using resolved
    · simpa only [List.flatMap_map, Function.comp_apply, String.toList_ofList] using same

/-- Where commas stand between placeholders, the value can be resolved exactly when its entries
can, one by one, and then both list the same items. -/
theorem resolve_lists_iff {value : String} (apart : CommasApart value)
    {listed : List (List Char)} :
    (∃ text, resolve lookup mode value = .ok text ∧ items text.toList = listed) ↔
      ∃ names, (commaList value).mapM (resolve lookup mode) = .ok names ∧
        names.flatMap (items ∘ String.toList) = listed := by
  rw [exists_resolve_iff, lists_iff_listsTogether apart, ← exists_mapM_resolve_iff, commaList]

/-- What is read entry by entry, against the list that the resolved value spells. -/
structure AgreesWithResolved (resolve : String → Except Error String) (value : String)
    (read : Except Error (List String)) : Prop where
  /-- The entries are read when the value can be resolved, and only then. -/
  exists_iff : (∃ names, read = .ok names) ↔ ∃ text, resolve value = .ok text
  /-- The resolved value spells what the entries list together. -/
  joined : ∀ {names text}, read = .ok names → resolve value = .ok text →
    commaList text = names.flatMap commaList
  /-- It spells the entries themselves when each of them is one item, and only then. -/
  eq_iff : ∀ {names text}, read = .ok names → resolve value = .ok text →
    (names = commaList text ↔ ∀ name ∈ names, commaList name = [name])

theorem agreesWithResolved_of_joined {resolve : String → Except Error String} {value : String}
    {read : Except Error (List String)}
    (exists_iff : (∃ names, read = .ok names) ↔ ∃ text, resolve value = .ok text)
    (joined : ∀ {names text}, read = .ok names → resolve value = .ok text →
      commaList text = names.flatMap commaList) : AgreesWithResolved resolve value read where
  exists_iff := exists_iff
  joined := joined
  eq_iff := by
    intro names text got resolved
    rw [joined got resolved, eq_flatMap_commaList_iff]

theorem agreesWithResolved_entries {value : String} (apart : CommasApart value) :
    AgreesWithResolved (resolve lookup mode) value
      ((commaList value).mapM (resolve lookup mode)) := by
  apply agreesWithResolved_of_joined
  · constructor
    · rintro ⟨names, read⟩
      rcases (resolve_lists_iff apart).mpr ⟨names, read, rfl⟩ with ⟨text, resolved, _⟩
      exact ⟨text, resolved⟩
    · rintro ⟨text, resolved⟩
      rcases (resolve_lists_iff apart).mp ⟨text, resolved, rfl⟩ with ⟨names, read, _⟩
      exact ⟨names, read⟩
  · intro names text read resolved
    rcases (resolve_lists_iff apart).mp ⟨text, resolved, rfl⟩ with ⟨others, again, same⟩
    cases read.symm.trans again
    rw [commaList, ← same, List.map_flatMap]
    rfl

/-- Trimming what was read and dropping what is blank changes nothing about its items. -/
theorem AgreesWithResolved.named {resolve : String → Except Error String} {value : String}
    {read : Except Error (List String)} (agrees : AgreesWithResolved resolve value read) :
    AgreesWithResolved resolve value (read.map Module.Selection.named) := by
  have tidy : ∀ names,
      (Module.Selection.named names).flatMap commaList = names.flatMap commaList := by
    intro names
    induction names with
    | nil => rfl
    | cons name others ih =>
        rw [List.flatMap_cons, ← commaList_trim name, ← ih, Module.Selection.named, List.map_cons]
        by_cases empty : trim name = ""
        · rw [List.filter_cons_of_neg (by simp [empty]), empty, commaList_empty, List.nil_append,
            Module.Selection.named]
        · rw [List.filter_cons_of_pos (by simpa using empty), List.flatMap_cons,
            Module.Selection.named]
  apply agreesWithResolved_of_joined
  · rw [← agrees.exists_iff]
    simp only [Traversal.map_eq_ok_iff]
    constructor
    · rintro ⟨_, names, got, rfl⟩
      exact ⟨names, got⟩
    · rintro ⟨names, got⟩
      exact ⟨_, names, got, rfl⟩
  · intro names text got resolved
    rcases Traversal.map_eq_ok_iff.mp got with ⟨raw, gotRaw, rfl⟩
    rw [tidy, agrees.joined gotRaw resolved]

end Placeholder

/-! ## Where lists are read -/

namespace Environment

open Text

/-- The list under the key is written as one value in the first source that has the list. -/
def WritesList (environment : Environment) (key value : String) : Prop :=
  ∃ before source after, environment.sources.layers = before ++ source :: after ∧
    (∀ layer ∈ before, layer.list? key = none) ∧ source.get? key = some value

theorem list?_of_get? {source : Source} {key value : String} (held : source.get? key = some value) :
    source.list? key = some (commaList value) := by
  rw [Source.list?, held]

theorem list?_of_writesList {environment : Environment} {key value : String}
    (writes : environment.WritesList key value) :
    environment.list? key = some (commaList value) := by
  rcases writes with ⟨before, source, after, split, silent, held⟩
  rw [list?, Sources.list?, split, List.findSome?_append, List.findSome?_eq_none_iff.mpr silent,
    Option.none_or, List.findSome?_cons, list?_of_get? held]

/-- The entries of a list of profiles, each resolved by itself. -/
def profileEntries (environment : Environment) (value : String) : Except Error (List String) :=
  (commaList value).mapM environment.resolveLenient

/-- The entries of a list of modules, each resolved by itself and then trimmed; blank ones are
dropped once more. -/
def moduleEntries (environment : Environment) (value : String) : Except Error (List String) :=
  ((commaList value).mapM environment.resolve).map Module.Selection.named

/-- A list of profiles is read entry by entry, from the environment and from a document alike,
and so is the list of the modules to leave out.  Where the commas of the value stand between
its placeholders, this reads the items that the resolved value spells, and reads them as they
are exactly when no entry resolves to several items or to none. -/
theorem lists_resolved_by_entry (environment : Environment) (value : String) :
    ((∀ key, environment.WritesList key value →
        environment.resolveList key = environment.profileEntries value) ∧
      (∀ document, Document.ofSource environment document.source = .ok document →
        (document.source.get? Keys.onProfile = some value →
          environment.profileEntries value = .ok document.scope) ∧
        (document.source.get? Keys.activeProfiles = some value →
          environment.profileEntries value = .ok document.active) ∧
        (document.source.get? Keys.includedProfiles = some value →
          environment.profileEntries value = .ok document.included)) ∧
      (∀ explicit, environment.WritesList Keys.excludedModules value →
        Module.Selection.mergeExclusions environment explicit =
          (environment.moduleEntries value).map fun modules =>
            Names.addAll [] (Module.Selection.named explicit ++ modules))) ∧
    (Placeholder.CommasApart value →
      Placeholder.AgreesWithResolved environment.resolveLenient value
          (environment.profileEntries value) ∧
        Placeholder.AgreesWithResolved environment.resolve value
          (environment.moduleEntries value)) := by
  refine ⟨⟨?_, ?_, ?_⟩, fun apart => ⟨?_, ?_⟩⟩
  · intro key writes
    rw [resolveList, list?_of_writesList writes]
    rfl
  · intro document read
    obtain ⟨-, scope, -, active, included⟩ := Document.ofSource_eq_ok_iff.mp read
    refine ⟨fun held => ?_, fun held => ?_, fun held => ?_⟩
    · rw [list?_of_get? held] at scope
      exact scope
    · rw [list?_of_get? held] at active
      exact active
    · rw [list?_of_get? held] at included
      exact included
  · intro explicit writes
    rw [Module.Selection.mergeExclusions, list?_of_writesList writes, Option.getD_some,
      moduleEntries]
    cases (commaList value).mapM environment.resolve <;> rfl
  · exact Placeholder.agreesWithResolved_entries apart
  · exact (Placeholder.agreesWithResolved_entries apart).named

/-- A layer in which three keys hold plain texts and two lists are written alike. -/
def listingLayer (value : String) : Source :=
  ((((((Source.named "layer").set "one" "a").set "pair" "a,b").set "blank" " ").set
    Keys.activeProfiles value).set Keys.excludedModules value)

def listing (value : String) : Environment :=
  initial.addLast (listingLayer value)

/-- The layer as a document of the environment that it makes up. -/
def listingDocument : Document where
  source := listingLayer "${one}, c"
  scope := []
  expressions := []
  active := ["a", "c"]
  included := []

/-- Entries that are one item each are read as the resolved value spells them. -/
theorem lists_resolved_by_entry_apart :
    Placeholder.CommasApart "${one}, c" ∧
      (listing "${one}, c").WritesList Keys.activeProfiles "${one}, c" ∧
      (listing "${one}, c").WritesList Keys.excludedModules "${one}, c" ∧
      Document.ofSource (listing "${one}, c") listingDocument.source = .ok listingDocument ∧
      (listing "${one}, c").resolveList Keys.activeProfiles = .ok ["a", "c"] ∧
      (listing "${one}, c").profileEntries "${one}, c" = .ok listingDocument.active ∧
      Module.Selection.mergeExclusions (listing "${one}, c") [] = .ok ["a", "c"] ∧
      Placeholder.AgreesWithResolved (listing "${one}, c").resolveLenient "${one}, c"
        (.ok ["a", "c"]) ∧
      Placeholder.AgreesWithResolved (listing "${one}, c").resolve "${one}, c"
        (.ok ["a", "c"]) := by
  have apart : Placeholder.CommasApart "${one}, c" := by
    have pieces : splitAt ',' "${one}, c".toList = ["${one}".toList, " c".toList] := by decide
    refine Placeholder.commasApart_of_closed ?_
    rw [pieces, List.forall_mem_cons, List.forall_mem_singleton]
    exact ⟨.reference rfl .nil, .plain (by decide) (.plain (by decide) .nil)⟩
  have profiles : (listing "${one}, c").WritesList Keys.activeProfiles "${one}, c" :=
    ⟨[], listingLayer "${one}, c", [], rfl, by simp, by cbv⟩
  have modules : (listing "${one}, c").WritesList Keys.excludedModules "${one}, c" :=
    ⟨[], listingLayer "${one}, c", [], rfl, by simp, by cbv⟩
  have entries : (listing "${one}, c").profileEntries "${one}, c" = .ok ["a", "c"] := by cbv
  have excluded : (listing "${one}, c").moduleEntries "${one}, c" = .ok ["a", "c"] := by cbv
  have made : Document.ofSource (listing "${one}, c") listingDocument.source =
      .ok listingDocument :=
    Document.ofSource_eq_ok_iff.mpr ⟨rfl, by cbv, by cbv, by cbv, by cbv⟩
  obtain ⟨⟨ofKey, ofDocument, ofModules⟩, agree⟩ :=
    lists_resolved_by_entry (listing "${one}, c") "${one}, c"
  obtain ⟨lenient, strict⟩ := agree apart
  rw [entries] at lenient
  rw [excluded] at strict
  refine ⟨apart, profiles, modules, made, ?_, ?_, ?_, lenient, strict⟩
  · rw [ofKey _ profiles, entries]
  · exact (ofDocument listingDocument made).2.1 (by cbv)
  · rw [ofModules [] modules, excluded]
    rfl

/-- A value that holds several items stays one entry, a placeholder with a comma in its fallback is
torn in two, and a blank entry stays: reading entry by entry is not reading what the resolved
value spells. -/
theorem lists_not_split_when_resolved :
    (listing "${pair}").resolveList Keys.activeProfiles = .ok ["a,b"] ∧
      ((listing "${pair}").resolveLenient "${pair}").map commaList = .ok ["a", "b"] ∧
      Module.Selection.mergeExclusions (listing "${pair}") [] = .ok ["a,b"] ∧
      ((listing "${pair}").resolve "${pair}").map commaList = .ok ["a", "b"] ∧
      (listing "${pair:c,d}").resolveList Keys.activeProfiles = .ok ["$\x7bpair:c", "d\x7d"] ∧
      ((listing "${pair:c,d}").resolveLenient "${pair:c,d}").map commaList = .ok ["a", "b"] ∧
      (listing "${blank}").resolveList Keys.activeProfiles = .ok [" "] ∧
      ((listing "${blank}").resolveLenient "${blank}").map commaList = .ok [] := by
  refine ⟨?_, ?_, ?_, ?_, ?_, ?_, ?_, ?_⟩ <;> cbv

end Environment
end LayeredConfig
