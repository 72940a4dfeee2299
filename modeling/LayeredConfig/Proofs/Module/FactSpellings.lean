import LayeredConfig.Proofs.Module.Consulting
import LayeredConfig.Proofs.Property.Words

namespace LayeredConfig
namespace Module

open Property Property.LineFormat Text

/-!
# Facts in a manifest and in a table

The facts of modules may be stated as entries of a manifest or as lines of a
table, all in words.  A table holds the names of modules and the keys of facts
side by side, so a module name must not look like the key of a fact: then no key
stands twice, and the table answers like the manifest.
-/

/-! ## What an entry states -/

/-- A word that can be the name of a module: it does not end like the key of a fact. -/
structure IsModuleName (text : String) : Prop extends IsWord text where
  apart : ∀ fact ∈ Fact.all, ¬ ('.' :: fact.toList) <:+ text.toList

instance (text : String) : Decidable (IsModuleName text) :=
  decidable_of_iff (IsWord text ∧ ∀ fact ∈ Fact.all, ¬ ('.' :: fact.toList) <:+ text.toList)
    ⟨fun named => ⟨named.1, named.2⟩, fun named => ⟨named.toIsWord, named.apart⟩⟩

/-- The key of a fact in a table. -/
def factKey (module fact : String) : String :=
  module ++ "." ++ fact

namespace Entry

/-- A fact with its text, if it is stated. -/
def stated (fact : String) (text : Option String) : List (String × String) :=
  text.toList.map fun value => (fact, value)

/-- The facts that an entry states, with their texts; numbers are written in decimal. -/
def statements (entry : Entry) : List (String × String) :=
  stated Fact.capabilities (listText entry.requires) ++
    stated Fact.applicationKind entry.applicationKind ++
    stated Fact.priority (entry.order.map toString) ++
    stated Fact.before (listText entry.before) ++ stated Fact.after (listText entry.after)

/-- What a table holds in place of an entry: the module itself and each fact that is stated. -/
def pairs (entry : Entry) : List (String × String) :=
  (entry.id, "") :: entry.statements.map fun pair => (factKey entry.id pair.1, pair.2)

/-- The entry is made of words, and what names a module can do so. -/
structure IsPlain (entry : Entry) : Prop where
  id : IsModuleName entry.id
  requires : ∀ name ∈ entry.requires, IsWord name
  before : ∀ name ∈ entry.before, IsModuleName name
  after : ∀ name ∈ entry.after, IsModuleName name
  applicationKind : ∀ kind ∈ entry.applicationKind, IsWord kind

instance (entry : Entry) : Decidable entry.IsPlain :=
  decidable_of_iff (IsModuleName entry.id ∧ (∀ name ∈ entry.requires, IsWord name) ∧
      (∀ name ∈ entry.before, IsModuleName name) ∧ (∀ name ∈ entry.after, IsModuleName name) ∧
      ∀ kind ∈ entry.applicationKind, IsWord kind)
    ⟨fun ⟨id, requires, before, after, kind⟩ => ⟨id, requires, before, after, kind⟩,
      fun plain => ⟨plain.id, plain.requires, plain.before, plain.after, plain.applicationKind⟩⟩

/-- The names that a stated list is read as, each once. -/
def named (names : List String) : Option (List String) :=
  if names = [] then none else some (Names.addAll [] names)

theorem listText_eq_joined (names : List String) : listText names = joined names := by
  cases names with
  | nil => rfl
  | cons name rest => rfl

theorem named_eq_map {names : List String} (words : ∀ name ∈ names, IsWord name) :
    named names = (joined names).map fun value => Names.addAll [] (commaList value) := by
  rw [← listText_eq_joined]
  cases listed : listText names with
  | none =>
      have empty : names = [] := by simpa [listText] using listed
      rw [named, if_pos empty, Option.map_none]
  | some text =>
      have visible : names ≠ [] := by
        rintro rfl
        cases listed
      rw [named, if_neg visible, Option.map_some, commaList_of_listText words listed]

theorem mem_stated_iff {fact other value : String} {text : Option String} :
    (other, value) ∈ stated fact text ↔ other = fact ∧ text = some value := by
  cases text with
  | none => simp [stated]
  | some known => simp [stated, eq_comm]

theorem read_of_not_mem {entry : Entry} {fact : String} (unknown : fact ∉ Fact.all) :
    entry.read fact = none := by
  simp only [Fact.all, List.mem_cons, List.not_mem_nil, or_false, not_or] at unknown
  rcases unknown with ⟨capabilities, kind, priority, before, after⟩
  rw [read, if_neg capabilities, if_neg before, if_neg after, if_neg priority, if_neg kind]

/-- An entry states a fact when it is read from it. -/
theorem mem_statements_iff {entry : Entry} {fact value : String} :
    (fact, value) ∈ entry.statements ↔ entry.read fact = some value := by
  by_cases known : fact ∈ Fact.all
  · simp only [Fact.all, List.mem_cons, List.not_mem_nil, or_false] at known
    rcases known with rfl | rfl | rfl | rfl | rfl
    all_goals
      simp [statements, mem_stated_iff, listText_eq_joined, read, Fact.capabilities,
        Fact.applicationKind, Fact.priority, Fact.before, Fact.after]
  · rw [read_of_not_mem known]
    simp only [Fact.all, List.mem_cons, List.not_mem_nil, or_false, not_or] at known
    rcases known with ⟨capabilities, kind, priority, before, after⟩
    simp [statements, mem_stated_iff, capabilities, kind, priority, before, after]

theorem mem_all_of_mem_statements {entry : Entry} {fact value : String}
    (stated : (fact, value) ∈ entry.statements) : fact ∈ Fact.all := by
  by_contra unknown
  rw [mem_statements_iff, read_of_not_mem unknown] at stated
  cases stated

theorem nodup_facts (entry : Entry) : (entry.statements.map Prod.fst).Nodup := by
  have once : Fact.all.Nodup := by decide
  have each : ∀ fact text, ((stated fact text).map Prod.fst).Sublist [fact] := by
    intro fact text
    cases text with
    | none => exact List.nil_sublist _
    | some value => exact List.Sublist.refl _
  refine once.sublist ?_
  rw [statements, List.map_append, List.map_append, List.map_append, List.map_append]
  exact ((((each _ _).append (each _ _)).append (each _ _)).append (each _ _)).append (each _ _)

end Entry

/-! ## Keys -/

theorem toList_factKey (module fact : String) :
    (factKey module fact).toList = module.toList ++ '.' :: fact.toList := by
  have dot : ".".toList = ['.'] := by decide
  rw [factKey, String.toList_append, String.toList_append, dot, List.append_assoc,
    List.singleton_append]

theorem factKey_inj {module other fact otherFact : String} (known : fact ∈ Fact.all)
    (alsoKnown : otherFact ∈ Fact.all) (same : factKey module fact = factKey other otherFact) :
    module = other ∧ fact = otherFact := by
  have dotless : ∀ fact ∈ Fact.all, '.' ∉ fact.toList := by decide
  have lists := congrArg String.toList same
  rw [toList_factKey, toList_factKey] at lists
  rcases append_cons_inj_of_not_mem lists (dotless fact known) (dotless otherFact alsoKnown) with
    ⟨modules, facts⟩
  exact ⟨String.toList_inj.mp modules, String.toList_inj.mp facts⟩

/-- The key of a fact names no module. -/
theorem IsModuleName.ne_factKey {name : String} (named : IsModuleName name) {fact : String}
    (known : fact ∈ Fact.all) (module : String) : name ≠ factKey module fact := by
  rintro rfl
  apply named.apart fact known
  rw [toList_factKey]
  exact List.suffix_append _ _

namespace Entry

variable {entry : Entry}

/-- The key that is the name of a module stands in the lines of its entry. -/
theorem mem_keys_pairs_iff {module : String} (named : IsModuleName module) :
    module ∈ entry.pairs.map Prod.fst ↔ entry.id = module := by
  rw [pairs, List.map_cons, List.mem_cons, List.map_map, List.mem_map]
  constructor
  · rintro (same | ⟨stated, listed, same⟩)
    · exact same.symm
    · exact absurd same.symm (named.ne_factKey (mem_all_of_mem_statements listed) entry.id)
  · exact fun same => .inl same.symm

/-- What stands under the key of a fact is what the entry of the module states. -/
theorem mem_pairs_factKey_iff (plain : entry.IsPlain) {module fact value : String}
    (known : fact ∈ Fact.all) :
    (factKey module fact, value) ∈ entry.pairs ↔
      entry.id = module ∧ entry.read fact = some value := by
  rw [pairs, List.mem_cons, List.mem_map, ← mem_statements_iff]
  constructor
  · rintro (same | ⟨⟨other, text⟩, stated, same⟩)
    · exact absurd (Prod.mk.inj same).1.symm (plain.id.ne_factKey known module)
    · rcases Prod.mk.inj same with ⟨sameKey, rfl⟩
      rcases factKey_inj (mem_all_of_mem_statements stated) known sameKey with ⟨modules, rfl⟩
      exact ⟨modules, stated⟩
  · rintro ⟨rfl, stated⟩
    exact .inr ⟨(fact, value), stated, rfl⟩

theorem nodup_keys_pairs (plain : entry.IsPlain) : (entry.pairs.map Prod.fst).Nodup := by
  rw [pairs, List.map_cons, List.nodup_cons, List.map_map]
  constructor
  · intro member
    rcases List.mem_map.mp member with ⟨stated, listed, same⟩
    exact plain.id.ne_factKey (mem_all_of_mem_statements listed) entry.id same.symm
  · have keys : entry.statements.map (Prod.fst ∘ fun pair => (factKey entry.id pair.1, pair.2)) =
        (entry.statements.map Prod.fst).map (factKey entry.id) := by
      rw [List.map_map]
      rfl
    rw [keys]
    refine (nodup_facts entry).map_on fun fact listed other alsoListed same => ?_
    rcases List.mem_map.mp listed with ⟨stated, inside, rfl⟩
    rcases List.mem_map.mp alsoListed with ⟨otherStated, alsoInside, rfl⟩
    exact (factKey_inj (mem_all_of_mem_statements inside)
      (mem_all_of_mem_statements alsoInside) same).2

end Entry

/-- No key stands twice in the lines of entries of different modules. -/
theorem nodup_keys {entries : List Entry} (distinct : (entries.map Entry.id).Nodup)
    (plain : ∀ entry ∈ entries, entry.IsPlain) :
    ((entries.flatMap Entry.pairs).map Prod.fst).Nodup := by
  rw [List.map_flatMap, List.nodup_flatMap]
  refine ⟨fun entry member => Entry.nodup_keys_pairs (plain entry member), ?_⟩
  refine (List.pairwise_map.mp distinct).imp_of_mem fun {entry other} member also different => ?_
  intro key (here : key ∈ entry.pairs.map Prod.fst) (there : key ∈ other.pairs.map Prod.fst)
  rw [Entry.pairs, List.map_cons, List.mem_cons] at here
  rcases here with rfl | fact
  · exact different ((Entry.mem_keys_pairs_iff (plain entry member).id).mp there).symm
  · rw [List.map_map] at fact
    rcases List.mem_map.mp fact with ⟨stated, listed, rfl⟩
    rcases List.mem_map.mp there with ⟨⟨_, value⟩, pair, rfl⟩
    exact different ((Entry.mem_pairs_factKey_iff (plain other also)
      (Entry.mem_all_of_mem_statements listed)).mp pair).1.symm

/-! ## Lines of entries -/

theorem isWordCharacter_of_mem_factKey {module fact : String} (word : IsWord module)
    (known : fact ∈ Fact.all) {c : Char} (member : c ∈ (factKey module fact).toList) :
    isWordCharacter c = true := by
  have facts : ∀ fact ∈ Fact.all, fact.toList.all isWordCharacter = true := by decide
  rw [toList_factKey, List.mem_append, List.mem_cons] at member
  rcases member with inModule | rfl | inFact
  · exact word.plain c inModule
  · decide
  · exact List.all_eq_true.mp (facts fact known) c inFact

namespace Entry

variable {entry : Entry}

theorem isWordCharacter_of_statement (plain : entry.IsPlain) {fact value : String}
    (stated : (fact, value) ∈ entry.statements) :
    ∀ c ∈ value.toList, isWordCharacter c = true ∨ c = ',' := by
  intro c member
  simp only [statements, List.mem_append, mem_stated_iff, or_assoc] at stated
  rcases stated with ⟨_, requires⟩ | ⟨_, kind⟩ | ⟨_, number⟩ | ⟨_, before⟩ | ⟨_, after⟩
  · exact isWordCharacter_of_mem_listText plain.requires requires member
  · exact .inl ((plain.applicationKind value kind).plain c member)
  · rcases Option.map_eq_some_iff.mp number with ⟨_, _, rfl⟩
    exact .inl (isWordCharacter_of_mem_int member)
  · exact isWordCharacter_of_mem_listText (fun name listed => (plain.before name listed).toIsWord)
      before member
  · exact isWordCharacter_of_mem_listText (fun name listed => (plain.after name listed).toIsWord)
      after member

theorem isPlain_of_mem_pairs (plain : entry.IsPlain) {pair : String × String}
    (member : pair ∈ entry.pairs) : LineFormat.IsPlain pair := by
  rw [pairs, List.mem_cons, List.mem_map] at member
  rcases member with rfl | ⟨⟨fact, value⟩, stated, rfl⟩
  · exact ⟨plain.id.plain, fun c inside => absurd inside List.not_mem_nil⟩
  · exact ⟨fun c inside => isWordCharacter_of_mem_factKey plain.id.toIsWord
      (mem_all_of_mem_statements stated) inside, isWordCharacter_of_statement plain stated⟩

end Entry

/-! ## Both spellings -/

section Spellings

variable {entries : List Entry} {lines : List (String × String)}

theorem table_ofTable (text : String) : (Metadata.ofTable text).table = parse text :=
  KeyedList.ofList_entries (parse text)

section Manifest

variable (distinct : (entries.map Entry.id).Nodup)

include distinct

theorem entries_ofEntries :
    (Manifest.ofEntries entries).entries = entries.map fun entry => (entry.id, entry) := by
  refine KeyedList.entries_ofList ?_
  rw [List.map_map]
  exact distinct

theorem get?_ofEntries_iff {module : String} {entry : Entry} :
    (Manifest.ofEntries entries).get? module = some entry ↔ entry ∈ entries ∧ entry.id = module := by
  rw [KeyedList.get?_eq_some_iff, entries_ofEntries distinct, List.mem_map]
  constructor
  · rintro ⟨other, listed, same⟩
    rcases Prod.mk.inj same with ⟨sameId, rfl⟩
    exact ⟨listed, sameId⟩
  · rintro ⟨listed, rfl⟩
    exact ⟨entry, listed, rfl⟩

theorem knows_manifest_iff {module : String} :
    (Metadata.ofManifest (Manifest.ofEntries entries)).knows module = true ↔
      ∃ entry ∈ entries, entry.id = module := by
  have fallback : (Metadata.ofManifest (Manifest.ofEntries entries)).knows module =
      (Manifest.ofEntries entries).contains module := rfl
  rw [fallback, KeyedList.contains_iff_mem_keys, KeyedList.keys, entries_ofEntries distinct,
    List.map_map, List.mem_map]
  rfl

theorem read_manifest_iff {module fact value : String} :
    (Metadata.ofManifest (Manifest.ofEntries entries)).read module fact = some value ↔
      ∃ entry ∈ entries, entry.id = module ∧ entry.read fact = some value := by
  have fallback : (Metadata.ofManifest (Manifest.ofEntries entries)).read module fact =
      ((Manifest.ofEntries entries).get? module).bind fun entry => entry.read fact := rfl
  rw [fallback, Option.bind_eq_some_iff]
  simp only [get?_ofEntries_iff distinct, and_assoc]

/-- What a module refers to in a fact that lists module names is a module name. -/
theorem isModuleName_of_mem_readSet (fact : String) (names : Entry → List String)
    (states : ∀ entry : Entry, entry.read fact = listText (names entry))
    (named : ∀ entry ∈ entries, ∀ name ∈ names entry, IsModuleName name) {module name : String}
    (member : name ∈
      ((Metadata.ofManifest (Manifest.ofEntries entries)).readSet module fact).getD []) :
    IsModuleName name := by
  rw [Metadata.readSet] at member
  cases read : (Metadata.ofManifest (Manifest.ofEntries entries)).read module fact with
  | none =>
      rw [read] at member
      cases member
  | some text =>
      rcases (read_manifest_iff distinct).mp read with ⟨entry, known, _, stated⟩
      rw [states] at stated
      have listed : commaList text = names entry :=
        commaList_of_listText (fun name inside => (named entry known name inside).toIsWord) stated
      rw [read, Option.map_some, Option.getD_some, Names.mem_addAll, listed] at member
      exact named entry known name (member.resolve_left List.not_mem_nil)

end Manifest

section Table

variable (distinct : (entries.map Entry.id).Nodup) (plain : ∀ entry ∈ entries, entry.IsPlain)
  (written : lines.Perm (entries.flatMap Entry.pairs))

include distinct plain written

/-- The table holds the lines of the entries and nothing else. -/
theorem entries_table : (Metadata.ofTable (tableText lines)).table.entries = lines := by
  have each : ∀ pair ∈ lines, IsPlain pair := by
    intro pair member
    rcases List.mem_flatMap.mp (written.mem_iff.mp member) with ⟨entry, listed, inside⟩
    exact Entry.isPlain_of_mem_pairs (plain entry listed) inside
  have once : (lines.map Prod.fst).Nodup :=
    (written.map Prod.fst).nodup_iff.mpr (nodup_keys distinct plain)
  rw [table_ofTable, parse, readPairs_tableText each, KeyedList.entries_ofList once]

theorem contains_table_iff {module : String} (named : IsModuleName module) :
    (Metadata.ofTable (tableText lines)).table.contains module = true ↔
      ∃ entry ∈ entries, entry.id = module := by
  rw [KeyedList.contains_iff_mem_keys, KeyedList.keys, entries_table distinct plain written,
    (written.map Prod.fst).mem_iff, List.map_flatMap, List.mem_flatMap]
  simp only [Entry.mem_keys_pairs_iff named]

theorem get?_table_iff {module fact value : String} (known : fact ∈ Fact.all) :
    (Metadata.ofTable (tableText lines)).table.get? (factKey module fact) = some value ↔
      ∃ entry ∈ entries, entry.id = module ∧ entry.read fact = some value := by
  rw [KeyedList.get?_eq_some_iff, entries_table distinct plain written, written.mem_iff,
    List.mem_flatMap]
  constructor
  · rintro ⟨entry, listed, inside⟩
    exact ⟨entry, listed, (Entry.mem_pairs_factKey_iff (plain entry listed) known).mp inside⟩
  · rintro ⟨entry, listed, stated⟩
    exact ⟨entry, listed, (Entry.mem_pairs_factKey_iff (plain entry listed) known).mpr stated⟩

theorem read_table_iff {module fact value : String} (named : IsModuleName module)
    (known : fact ∈ Fact.all) :
    (Metadata.ofTable (tableText lines)).read module fact = some value ↔
      ∃ entry ∈ entries, entry.id = module ∧ entry.read fact = some value := by
  have inside := contains_table_iff distinct plain written named
  rw [Metadata.read]
  split
  · exact get?_table_iff distinct plain written known
  · next absent =>
      refine iff_of_false (fun read => by cases read) ?_
      rintro ⟨entry, listed, same, _⟩
      exact absent (inside.mpr ⟨entry, listed, same⟩)

/-- The metadata of the manifest and of the table agree about all module names. -/
theorem agree_of_spellings :
    AgreeWithin IsModuleName (Metadata.ofManifest (Manifest.ofEntries entries))
      (Metadata.ofTable (tableText lines)) where
  knows := by
    intro module named
    have none : (Metadata.ofTable (tableText lines)).manifest = none := rfl
    rw [Bool.eq_iff_iff, knows_manifest_iff distinct,
      ← contains_table_iff distinct plain written named, Metadata.knows, none, Option.any_none,
      Bool.or_false]
  read := by
    intro module named fact known
    apply Option.ext
    intro value
    rw [read_manifest_iff distinct, read_table_iff distinct plain written named known]
  referred := by
    intro module _ name member
    rcases List.mem_append.mp member with before | after
    · exact isModuleName_of_mem_readSet distinct Fact.before Entry.before
        (fun entry => (Entry.listText_eq_joined entry.before).symm)
        (fun entry known => (plain entry known).before) before
    · exact isModuleName_of_mem_readSet distinct Fact.after Entry.after
        (fun entry => (Entry.listText_eq_joined entry.after).symm)
        (fun entry known => (plain entry known).after) after

/-- What is read from the table is what the entry states: its lists, each name once, and its
number, if that fits 32 bits. -/
theorem facts_read_back {entry : Entry} (known : entry ∈ entries) :
    (Metadata.ofTable (tableText lines)).readSet entry.id Fact.capabilities =
        Entry.named entry.requires ∧
      (Metadata.ofTable (tableText lines)).readSet entry.id Fact.before =
        Entry.named entry.before ∧
      (Metadata.ofTable (tableText lines)).readSet entry.id Fact.after =
        Entry.named entry.after ∧
      (Metadata.ofTable (tableText lines)).read entry.id Fact.applicationKind =
        entry.applicationKind ∧
      ((∀ number ∈ entry.order, -2 ^ 31 ≤ number ∧ number < 2 ^ 31) →
        (Metadata.ofTable (tableText lines)).readInteger entry.id Fact.priority =
          .ok entry.order) := by
  have words := plain entry known
  have read : ∀ fact ∈ Fact.all,
      (Metadata.ofTable (tableText lines)).read entry.id fact = entry.read fact := by
    intro fact asked
    apply Option.ext
    intro value
    rw [read_table_iff distinct plain written words.id asked]
    constructor
    · rintro ⟨other, also, same, stated⟩
      rwa [List.inj_on_of_nodup_map distinct also known same] at stated
    · exact fun stated => ⟨entry, known, rfl, stated⟩
  have readSet : ∀ {fact : String} {names : List String}, fact ∈ Fact.all →
      entry.read fact = Entry.joined names → (∀ name ∈ names, IsWord name) →
      (Metadata.ofTable (tableText lines)).readSet entry.id fact = Entry.named names := by
    intro fact names asked stated all
    rw [Metadata.readSet, read fact asked, stated, Entry.named_eq_map all]
  refine ⟨readSet (by decide) rfl words.requires,
    readSet (by decide) rfl fun name listed => (words.before name listed).toIsWord,
    readSet (by decide) rfl fun name listed => (words.after name listed).toIsWord,
    read _ (by decide), fun fits => ?_⟩
  have stated : entry.read Fact.priority = entry.order.map toString := rfl
  rw [Metadata.readInteger, read _ (by decide), stated]
  cases order : entry.order with
  | none => rfl
  | some number =>
      rcases fits number order with ⟨above, below⟩
      have trimmed : trim (toString number) = toString number :=
        trim_of_word fun c member => isWordCharacter_of_mem_int member
      simp only [Option.map_some, trimmed, readInt32_toString above below]

end Table

/-! ### Main result -/

/-- The manifest and the table give the same answers about every module name, put modules in the
same order and let them pass the same built-in filters. -/
theorem manifest_and_table_agree (distinct : (entries.map Entry.id).Nodup)
    (plain : ∀ entry ∈ entries, entry.IsPlain)
    (written : lines.Perm (entries.flatMap Entry.pairs)) :
    (∀ module, IsModuleName module →
      (Metadata.ofManifest (Manifest.ofEntries entries)).knows module =
          (Metadata.ofTable (tableText lines)).knows module ∧
        ∀ fact ∈ Fact.all,
          (Metadata.ofManifest (Manifest.ofEntries entries)).read module fact =
              (Metadata.ofTable (tableText lines)).read module fact ∧
            (Metadata.ofManifest (Manifest.ofEntries entries)).readSet module fact =
              (Metadata.ofTable (tableText lines)).readSet module fact ∧
            (Metadata.ofManifest (Manifest.ofEntries entries)).readInteger module fact =
              (Metadata.ofTable (tableText lines)).readInteger module fact) ∧
      (∀ modules : List String, (∀ module ∈ modules, IsModuleName module) →
        order (Metadata.ofManifest (Manifest.ofEntries entries)) modules =
          order (Metadata.ofTable (tableText lines)) modules) ∧
      ∀ (builtIn : Filter.BuiltIn) (slots : List (Option String)),
        (∀ slot ∈ slots, ∀ module ∈ slot, IsModuleName module) →
        builtIn.filter.verdicts slots (Metadata.ofManifest (Manifest.ofEntries entries)) =
          builtIn.filter.verdicts slots (Metadata.ofTable (tableText lines)) := by
  have agree := agree_of_spellings distinct plain written
  refine ⟨fun module named => ⟨agree.knows module named, fun fact asked => ⟨?_, ?_, ?_⟩⟩,
    fun modules named => agree.order named, fun builtIn slots named => agree.verdicts builtIn named⟩
  · exact agree.read module named fact asked
  · exact agree.readSet named asked
  · exact agree.readInteger named asked

/-- A module with a dotted name, a negative number and lists, and one of which little is known. -/
def webAndLog : List Entry :=
  [{ id := "web.server", requires := ["net", "tls_1"], before := [], after := ["log-file", "web"],
     order := some (-5), applicationKind := some "servlet" },
   { id := "log-file", requires := [], before := ["web.server"], after := [],
     order := none, applicationKind := none }]

/-- The lines of the entries, mixed. -/
def webAndLogLines : List (String × String) :=
  [("web.server.AutoConfigureOrder", "-5"), ("log-file", ""),
   ("web.server.AutoConfigureAfter", "log-file,web"),
   ("web.server.ConditionalOnApplicationKind", "servlet"),
   ("log-file.AutoConfigureBefore", "web.server"), ("web.server", ""),
   ("web.server.ConditionalOnCapability", "net,tls_1")]

/-- Both spellings tell the number and put the modules in the same order. -/
theorem manifest_and_table_agree_mixed :
    (∀ entry ∈ webAndLog, entry.IsPlain) ∧
      webAndLogLines.Perm (webAndLog.flatMap Entry.pairs) ∧
      (Metadata.ofTable (tableText webAndLogLines)).readInteger "web.server" Fact.priority =
        .ok (some (-5)) ∧
      order (Metadata.ofTable (tableText webAndLogLines)) ["web.server", "web", "log-file"] =
        order (Metadata.ofManifest (Manifest.ofEntries webAndLog))
          ["web.server", "web", "log-file"] := by
  have plain : ∀ entry ∈ webAndLog, entry.IsPlain := by decide
  have written : webAndLogLines.Perm (webAndLog.flatMap Entry.pairs) := by decide
  rcases manifest_and_table_agree (by decide) plain written with ⟨answers, orders, _⟩
  rcases (answers "web.server" (by decide)).2 Fact.priority (by decide) with ⟨_, _, number⟩
  exact ⟨plain, written, number.symm.trans (by decide), (orders _ (by decide)).symm⟩

end Spellings

end Module
end LayeredConfig
