import LayeredConfig.Reading
import LayeredConfig.Yaml.Token

namespace LayeredConfig
namespace Yaml

/-!
The trees that tokens spell, one for each document.

In a tree references, anchors and tags stand as they are written.  A missing
node is a plain scalar without text.
-/

/-- The anchor and the tag before a node. -/
structure Decoration where
  anchor : Option String
  tag : Option (String × Tag)

namespace Decoration

def none : Decoration where
  anchor := Option.none
  tag := Option.none

end Decoration

inductive Tree where
  | reference (name : String)
  | scalar (decoration : Decoration) (style : ScalarStyle) (text : String)
  | sequence (decoration : Decoration) (items : List Tree)
  | mapping (decoration : Decoration) (entries : List (Tree × Tree))

namespace Tree

/-- A node that is missing. -/
def blank : Tree :=
  .scalar Decoration.none .plain ""

def decorate (decoration : Decoration) : Tree → Tree
  | reference name => reference name
  | scalar _ style text => scalar decoration style text
  | sequence _ items => sequence decoration items
  | mapping _ entries => mapping decoration entries

/-- Where a node stands. -/
inductive Place where
  /-- In a flow collection. -/
  | flow
  /-- An entry of a block sequence or the root. -/
  | block
  /-- A key or a value of a block mapping, where a sequence need not be indented. -/
  | field
  deriving DecidableEq

/-- The tokens that follow a missing entry of a block sequence. -/
def endsEntry : Token → Bool
  | .blockEntry => true
  | .blockEnd => true
  | _ => false

/-- The tokens that follow a missing key or value of a block mapping. -/
def endsField : Token → Bool
  | .key => true
  | .value => true
  | .blockEnd => true
  | _ => false

/-- The tokens that follow a missing entry of a sequence that is not indented. -/
def endsDash : Token → Bool
  | .blockEntry => true
  | token => endsField token

/-- The tokens that follow a missing key in a flow collection that `closing` ends. -/
def endsFlowKey (closing : Token) (token : Token) : Bool :=
  token = .value || token = .flowEntry || token = closing

/-- The tokens that follow a missing value in a flow collection that `closing` ends. -/
def endsFlowValue (closing : Token) (token : Token) : Bool :=
  token = .flowEntry || token = closing

/-- The tokens that follow a document without content. -/
def endsDocument : Token → Bool
  | .version _ _ => true
  | .tagDirective _ _ => true
  | .documentStart => true
  | .documentEnd => true
  | _ => false

mutual

/-- Read a node with what stands before it. -/
def readNode (place : Place) (input : List Token) : Except Fault (Reading Token Tree input) :=
  match input with
  | .reference name :: rest => .ok ⟨.reference name, rest, by simp⟩
  | .anchor name :: .tag handle suffix :: rest =>
      (readDecorated place ⟨some name, some (handle, suffix)⟩ (.tag handle suffix) rest).map
        fun read => read.widen (by simp)
  | .tag handle suffix :: .anchor name :: rest =>
      (readDecorated place ⟨some name, some (handle, suffix)⟩ (.anchor name) rest).map
        fun read => read.widen (by simp)
  | .anchor name :: rest => readDecorated place ⟨some name, none⟩ (.anchor name) rest
  | .tag handle suffix :: rest =>
      readDecorated place ⟨none, some (handle, suffix)⟩ (.tag handle suffix) rest
  | bare =>
      match readContent place bare with
      | .error fault => .error fault
      | .ok none => .error .nodeExpected
      | .ok (some read) => .ok read
termination_by (input.length, 3)

/-- Read the node after its decoration, of which `mark` is the last token. -/
def readDecorated (place : Place) (decoration : Decoration) (mark : Token) (rest : List Token) :
    Except Fault (Reading Token Tree (mark :: rest)) :=
  match readContent place rest with
  | .error fault => .error fault
  | .ok none => .ok ⟨Tree.blank.decorate decoration, rest, by simp⟩
  | .ok (some read) => .ok ((read.map (Tree.decorate decoration)).widen (by simp))
termination_by (rest.length, 3)

/-- Read a scalar or a collection, if the next token begins one. -/
def readContent (place : Place) (input : List Token) :
    Except Fault (Option (Reading Token Tree input)) :=
  match input with
  | .scalar style text :: rest =>
      .ok (some ⟨.scalar Decoration.none style text, rest, by simp⟩)
  | .flowSequence :: rest =>
      (readFlowItems true rest).map fun read =>
        some ((read.map (Tree.sequence Decoration.none)).widen (by simp))
  | .flowMapping :: rest =>
      (readFlowEntries true rest).map fun read =>
        some ((read.map (Tree.mapping Decoration.none)).widen (by simp))
  | .blockSequence :: rest =>
      if place = .flow then .ok none
      else
        (readBlockItems rest).map fun read =>
          some ((read.map (Tree.sequence Decoration.none)).widen (by simp))
  | .blockMapping :: rest =>
      if place = .flow then .ok none
      else
        (readBlockEntries rest).map fun read =>
          some ((read.map (Tree.mapping Decoration.none)).widen (by simp))
  | .blockEntry :: rest =>
      if place ≠ .field then .ok none
      else
        (readDashes rest).map fun read =>
          some ((read.map (Tree.sequence Decoration.none)).widen (by simp))
  | _ => .ok none
termination_by (input.length, 2)

/-- Read the node after a mark; it is missing before a token that `ends` accepts. -/
def readAfter (ends : Token → Bool) (place : Place) (mark : Token) (rest : List Token) :
    Except Fault (Reading Token Tree (mark :: rest)) :=
  if rest.head?.all ends then .ok ⟨Tree.blank, rest, by simp⟩
  else (readNode place rest).map fun read => read.widen (by simp)
termination_by (rest.length, 4)

/-- Read the entries of a block sequence up to its end. -/
def readBlockItems (input : List Token) : Except Fault (Reading Token (List Tree) input) :=
  match input with
  | .blockEnd :: rest => .ok ⟨[], rest, by simp⟩
  | .blockEntry :: rest =>
      match readAfter endsEntry .block .blockEntry rest with
      | .error fault => .error fault
      | .ok item =>
          have := item.shorter
          match readBlockItems item.rest with
          | .error fault => .error fault
          | .ok more =>
              .ok ⟨item.result :: more.result, more.rest, Nat.lt_trans more.shorter item.shorter⟩
  | _ => .error .entryExpected
termination_by (input.length, 1)

/-- Read the entries of a sequence that is not indented, after its first dash. -/
def readDashes (rest : List Token) :
    Except Fault (Reading Token (List Tree) (.blockEntry :: rest)) :=
  match readAfter endsDash .block .blockEntry rest with
  | .error fault => .error fault
  | .ok item =>
      match follows : item.rest with
      | .blockEntry :: after =>
          have : after.length < rest.length := by
            have bound := item.shorter
            rw [follows] at bound
            exact Nat.lt_of_succ_lt_succ bound
          match readDashes after with
          | .error fault => .error fault
          | .ok more =>
              have shorter : more.rest.length < item.rest.length := by
                rw [follows]
                exact more.shorter
              .ok ⟨item.result :: more.result, more.rest, Nat.lt_trans shorter item.shorter⟩
      | _ => .ok ⟨[item.result], item.rest, item.shorter⟩
termination_by (rest.length, 5)

/-- Read the entries of a block mapping up to its end. -/
def readBlockEntries (input : List Token) :
    Except Fault (Reading Token (List (Tree × Tree)) input) :=
  match input with
  | .blockEnd :: rest => .ok ⟨[], rest, by simp⟩
  | .key :: rest =>
      match readAfter endsField .field .key rest with
      | .error fault => .error fault
      | .ok key =>
          match readValue endsField .field key with
          | .error fault => .error fault
          | .ok entry =>
              have := entry.shorter
              match readBlockEntries entry.rest with
              | .error fault => .error fault
              | .ok more =>
                  .ok ⟨entry.result :: more.result, more.rest,
                    Nat.lt_trans more.shorter entry.shorter⟩
  | _ => .error .entryExpected
termination_by (input.length, 1)

/-- Read the value after a key; it is missing unless a colon follows. -/
def readValue (ends : Token → Bool) (place : Place) {input : List Token}
    (key : Reading Token Tree input) : Except Fault (Reading Token (Tree × Tree) input) :=
  match follows : key.rest with
  | .value :: rest =>
      have := key.tail_shorter follows
      match readAfter ends place .value rest with
      | .error fault => .error fault
      | .ok value =>
          have shorter : value.rest.length < key.rest.length := by
            rw [follows]
            exact value.shorter
          .ok ⟨(key.result, value.result), value.rest, Nat.lt_trans shorter key.shorter⟩
  | _ => .ok (key.map fun result => (result, Tree.blank))
termination_by (input.length, 0)

/-- Read the items of a flow sequence up to its end, each but the first after a comma. -/
def readFlowItems (first : Bool) (input : List Token) :
    Except Fault (Reading Token (List Tree) input) :=
  match input with
  | .flowSequenceEnd :: rest => .ok ⟨[], rest, by simp⟩
  | .flowEntry :: .flowSequenceEnd :: rest =>
      if first then .error .nodeExpected else .ok ⟨[], rest, by simp only [List.length_cons]; omega⟩
  | .flowEntry :: rest =>
      if first then .error .nodeExpected
      else (readFlowItem rest).map fun read => read.widen (by simp)
  | item => if first then readFlowItem item else .error .entryExpected
termination_by (input.length, 5)

/-- Read an item of a flow sequence and those that follow.  A key makes a mapping of one
entry; when that key is missing, the token after its mark is passed over. -/
def readFlowItem (input : List Token) : Except Fault (Reading Token (List Tree) input) :=
  match input with
  | .key :: rest =>
      match readPairKey rest with
      | .error fault => .error fault
      | .ok key =>
          match readValue (endsFlowValue .flowSequenceEnd) .flow key with
          | .error fault => .error fault
          | .ok entry =>
              have := entry.shorter
              match readFlowItems false entry.rest with
              | .error fault => .error fault
              | .ok more =>
                  .ok ⟨.mapping Decoration.none [entry.result] :: more.result, more.rest,
                    Nat.lt_trans more.shorter entry.shorter⟩
  | node =>
      match readNode .flow node with
      | .error fault => .error fault
      | .ok item =>
          have := item.shorter
          match readFlowItems false item.rest with
          | .error fault => .error fault
          | .ok more =>
              .ok ⟨item.result :: more.result, more.rest, Nat.lt_trans more.shorter item.shorter⟩
termination_by (input.length, 4)

/-- Read the key of a mapping of one entry. -/
def readPairKey (rest : List Token) : Except Fault (Reading Token Tree (.key :: rest)) :=
  match rest with
  | token :: after =>
      if endsFlowKey .flowSequenceEnd token then
        .ok ⟨Tree.blank, after, by simp only [List.length_cons]; omega⟩
      else (readNode .flow (token :: after)).map fun read => read.widen (by simp)
  | [] => .error .nodeExpected
termination_by (rest.length, 4)

/-- Read the entries of a flow mapping up to its end, each but the first after a comma. -/
def readFlowEntries (first : Bool) (input : List Token) :
    Except Fault (Reading Token (List (Tree × Tree)) input) :=
  match input with
  | .flowMappingEnd :: rest => .ok ⟨[], rest, by simp⟩
  | .flowEntry :: .flowMappingEnd :: rest =>
      if first then .error .nodeExpected else .ok ⟨[], rest, by simp only [List.length_cons]; omega⟩
  | .flowEntry :: rest =>
      if first then .error .nodeExpected
      else (readFlowField rest).map fun read => read.widen (by simp)
  | entry => if first then readFlowField entry else .error .entryExpected
termination_by (input.length, 5)

/-- Read an entry of a flow mapping and those that follow; an entry without a mark before its
key has no value. -/
def readFlowField (input : List Token) :
    Except Fault (Reading Token (List (Tree × Tree)) input) :=
  match input with
  | .key :: rest =>
      match readAfter (endsFlowKey .flowMappingEnd) .flow .key rest with
      | .error fault => .error fault
      | .ok key =>
          match readValue (endsFlowValue .flowMappingEnd) .flow key with
          | .error fault => .error fault
          | .ok entry =>
              have := entry.shorter
              match readFlowEntries false entry.rest with
              | .error fault => .error fault
              | .ok more =>
                  .ok ⟨entry.result :: more.result, more.rest,
                    Nat.lt_trans more.shorter entry.shorter⟩
  | node =>
      match readNode .flow node with
      | .error fault => .error fault
      | .ok key =>
          have := key.shorter
          match readFlowEntries false key.rest with
          | .error fault => .error fault
          | .ok more =>
              .ok ⟨(key.result, Tree.blank) :: more.result, more.rest,
                Nat.lt_trans more.shorter key.shorter⟩
termination_by (input.length, 4)

end

end Tree

/-- A document with the meanings that its directives give to tag handles. -/
structure RawDocument where
  handles : List (String × Tag)
  root : Tree

namespace RawDocument

/-- Read a document that begins with directives or its mark. -/
def readMarked (versioned : Bool) (handles : List (String × Tag)) (input : List Token) :
    Except Fault (Reading Token RawDocument input) :=
  match input with
  | .version major minor :: rest =>
      if versioned ∨ major ≠ 1 ∨ (minor ≠ 1 ∧ minor ≠ 2) then .error .directive
      else (readMarked true handles rest).map fun read => read.widen (by simp)
  | .tagDirective handle meaning :: rest =>
      if handles.any (fun known => known.1 = handle) then .error .directive
      else (readMarked versioned ((handle, meaning) :: handles) rest).map
        fun read => read.widen (by simp)
  | .documentStart :: rest =>
      (Tree.readAfter Tree.endsDocument .block .documentStart rest).map fun read =>
        read.map fun root => ⟨handles, root⟩
  | _ => .error .documentStartExpected

/-- Read the first document, which needs no mark. -/
def readFirst (input : List Token) : Except Fault (Reading Token RawDocument input) :=
  if input.head?.any (fun token => Tree.endsDocument token && token ≠ .documentEnd) then
    readMarked false [] input
  else (Tree.readNode .block input).map fun read => read.map fun root => ⟨[], root⟩

/-- Read the documents after the first one. -/
def readFurther (input : List Token) : Except Fault (List RawDocument) :=
  match started : input.dropWhile (· = .documentEnd) with
  | [] => .ok []
  | token :: rest =>
      match readMarked false [] (token :: rest) with
      | .error fault => .error fault
      | .ok read =>
          have : read.rest.length < input.length := by
            have bound := (List.dropWhile_suffix (l := input) (· = Token.documentEnd)).length_le
            rw [started] at bound
            exact Nat.lt_of_lt_of_le read.shorter bound
          (readFurther read.rest).map fun more => read.result :: more
termination_by input.length

/-- The documents that tokens spell. -/
def ofTokens (input : List Token) : Except Fault (List RawDocument) :=
  match input with
  | [] => .ok []
  | token :: rest =>
      match readFirst (token :: rest) with
      | .error fault => .error fault
      | .ok read => (readFurther read.rest).map fun more => read.result :: more

end RawDocument

end Yaml
end LayeredConfig
