import LayeredConfig.Yaml.Token.Stream
import LayeredConfig.Yaml.Tree

namespace LayeredConfig
namespace Yaml

/-!
Documents: trees with the meaning of their tags and with numbered anchors.

An anchor takes as its number the count of anchor names before it.  A reference
stands for the last node in the document that has the number which its name had
last; so a name that is used again can share its number with a later one.
-/

inductive Node where
  | reference (number : Nat)
  | scalar (tag : Option Tag) (style : ScalarStyle) (text : String)
  | sequence (tag : Option Tag) (items : List Node)
  | mapping (tag : Option Tag) (entries : List (Node × Node))

namespace Node

/-- What a missing document holds. -/
def blank : Node :=
  .scalar none .plain ""

/-- The number of marks and scalars that make up a node. -/
def size : Node → Nat
  | reference _ => 1
  | scalar _ _ _ => 1
  | sequence _ items => sizeItems items + 2
  | mapping _ entries => sizeEntries entries + 2
where
  sizeItems : List Node → Nat
    | [] => 0
    | item :: rest => size item + sizeItems rest
  sizeEntries : List (Node × Node) → Nat
    | [] => 0
    | (key, value) :: rest => size key + size value + sizeEntries rest

end Node

/-- A node with an anchor. -/
structure Anchored where
  number : Nat
  /-- The number of anchors before this one. -/
  position : Nat
  node : Node

/-- The anchors met so far. -/
structure Anchors where
  /-- The number that each name had last. -/
  numbers : List (String × Nat)
  count : Nat
  nodes : List Anchored

namespace Anchors

def none : Anchors where
  numbers := []
  count := 0
  nodes := []

/-- Give a number to the anchor of a node that starts here. -/
def enter (anchors : Anchors) : Option String → Anchors
  | Option.none => anchors
  | some name =>
      { anchors with
        numbers := (name, anchors.numbers.length) ::
          anchors.numbers.filter (fun known => known.1 ≠ name)
        count := anchors.count + 1 }

/-- Keep the node of an anchor that was entered when `before` were known. -/
def keep (anchors before : Anchors) (anchor : Option String) (node : Node) : Anchors :=
  if anchor.isNone then anchors
  else { anchors with nodes := ⟨before.numbers.length, before.count, node⟩ :: anchors.nodes }

/-- The node that a number stands for. -/
def target? (anchors : Anchors) (number : Nat) : Option Node :=
  let candidates := anchors.nodes.filter (fun anchored => anchored.number = number)
  let last := candidates.foldl (fun most anchored => max most anchored.position) 0
  (candidates.find? (fun anchored => anchored.position = last)).map Anchored.node

end Anchors

structure Document where
  root : Node
  anchors : Anchors

namespace Document

/-- The meaning of a tag handle. -/
def meaning? (handles : List (String × Tag)) (handle : String) : Option Tag :=
  ((handles ++ [("!", Tag.ofText "!"), ("!!", Tag.core "")]).find?
    (fun known => known.1 = handle)).map Prod.snd

/-- The meaning of a tag; a tag without handle stands for itself. -/
def readTag (handles : List (String × Tag)) :
    Option (String × Tag) → Except Fault (Option Tag)
  | none => .ok none
  | some ("", suffix) => .ok (some suffix)
  | some (handle, suffix) =>
      match meaning? handles handle with
      | none => .error .tag
      | some meaning => .ok (some (meaning.append suffix))

mutual

/-- Number the anchors of a tree and give its tags their meaning. -/
def ofTree (handles : List (String × Tag)) (anchors : Anchors) :
    Tree → Except Fault (Node × Anchors)
  | .reference name =>
      match anchors.numbers.find? (fun known => known.1 = name) with
      | none => .error .unknownAnchor
      | some known => .ok (.reference known.2, anchors)
  | .scalar decoration style text => do
      let tag ← readTag handles decoration.tag
      let node := Node.scalar tag style text
      return (node, (anchors.enter decoration.anchor).keep anchors decoration.anchor node)
  | .sequence decoration items => do
      let tag ← readTag handles decoration.tag
      let (nodes, after) ← ofItems handles (anchors.enter decoration.anchor) items
      let node := Node.sequence tag nodes
      return (node, after.keep anchors decoration.anchor node)
  | .mapping decoration entries => do
      let tag ← readTag handles decoration.tag
      let (nodes, after) ← ofEntries handles (anchors.enter decoration.anchor) entries
      let node := Node.mapping tag nodes
      return (node, after.keep anchors decoration.anchor node)

def ofItems (handles : List (String × Tag)) (anchors : Anchors) :
    List Tree → Except Fault (List Node × Anchors)
  | [] => .ok ([], anchors)
  | item :: rest => do
      let (node, after) ← ofTree handles anchors item
      let (more, final) ← ofItems handles after rest
      return (node :: more, final)

def ofEntries (handles : List (String × Tag)) (anchors : Anchors) :
    List (Tree × Tree) → Except Fault (List (Node × Node) × Anchors)
  | [] => .ok ([], anchors)
  | (key, value) :: rest => do
      let (keyNode, afterKey) ← ofTree handles anchors key
      let (valueNode, after) ← ofTree handles afterKey value
      let (more, final) ← ofEntries handles after rest
      return ((keyNode, valueNode) :: more, final)

end

def ofRaw (raw : RawDocument) : Except Fault Document :=
  (ofTree raw.handles Anchors.none raw.root).map fun (root, anchors) => ⟨root, anchors⟩

/-- The documents of a text. -/
def parseAll (text : String) : Except Fault (List Document) := do
  let raw ← RawDocument.ofTokens (← tokens text)
  raw.mapM ofRaw

/-- The one document of a text; a text without document holds a missing node. -/
def parseOne (text : String) : Except Fault Document := do
  match ← parseAll text with
  | [] => return ⟨Node.blank, Anchors.none⟩
  | [document] => return document
  | _ => throw .severalDocuments

/-- The node itself or the one that it refers to. -/
def resolve (document : Document) : Node → Except Fault Node
  | .reference number =>
      match document.anchors.target? number with
      | none => .error .unknownAnchor
      | some node => .ok node
  | node => .ok node

end Document
end Yaml
end LayeredConfig
