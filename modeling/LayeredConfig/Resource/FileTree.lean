import LayeredConfig.Error
import LayeredConfig.Resource.Path

namespace LayeredConfig
namespace Resource

/-!
Trees of directories and files, and looking up paths in them.
-/

inductive FileTree where
  | file (bytes : ByteArray)
  | directory (entries : List (String × FileTree))

namespace FileTree

def isDirectory : FileTree → Bool
  | file _ => false
  | directory _ => true

def child? (tree : FileTree) (name : String) : Option FileTree :=
  match tree with
  | file _ => none
  | directory entries => (entries.find? (fun entry => entry.1 = name)).map Prod.snd

/-- Follow the names of a path from `here`, which lies below the trees `above`.  Every name
but the last must be that of a directory; the root lies below itself. -/
def follow (above : List FileTree) (here : FileTree) : List String → Option FileTree
  | [] => some here
  | name :: rest =>
      if !here.isDirectory then none
      else if name = "" || name = "." then follow above here rest
      else if name = ".." then
        match above with
        | [] => follow [] here rest
        | parent :: more => follow more parent rest
      else
        match here.child? name with
        | none => none
        | some child => follow (here :: above) child rest

mutual

/-- Put a tree at the end of a path, whose missing directories are made. -/
def graft (tree grafted : FileTree) : List String → FileTree
  | [] => grafted
  | name :: rest =>
      match tree with
      | file _ => directory [(name, graft (directory []) grafted rest)]
      | directory entries => directory (graftEntry entries grafted name rest)

def graftEntry (entries : List (String × FileTree)) (grafted : FileTree) (name : String)
    (rest : List String) : List (String × FileTree) :=
  match entries with
  | [] => [(name, graft (directory []) grafted rest)]
  | (known, tree) :: more =>
      if known = name then (known, graft tree grafted rest) :: more
      else (known, tree) :: graftEntry more grafted name rest

end

mutual

/-- The contents of all files of a tree. -/
def contents : FileTree → List ByteArray
  | file bytes => [bytes]
  | directory entries => contentsOf entries

def contentsOf : List (String × FileTree) → List ByteArray
  | [] => []
  | (_, tree) :: rest => contents tree ++ contentsOf rest

end

theorem contents_subset_of_mem {entries : List (String × FileTree)} {name : String}
    {tree : FileTree} (member : (name, tree) ∈ entries) : tree.contents ⊆ contentsOf entries := by
  induction entries with
  | nil => cases member
  | cons head tail ih =>
      obtain ⟨known, other⟩ := head
      rcases List.mem_cons.1 member with same | later
      · cases same
        exact List.subset_append_left _ _
      · exact List.Subset.trans (ih later) (List.subset_append_right _ _)

theorem contents_subset_of_child {tree child : FileTree} {name : String}
    (found : tree.child? name = some child) : child.contents ⊆ tree.contents := by
  cases tree with
  | file bytes => simp [child?] at found
  | directory entries =>
      simp only [child?, Option.map_eq_some_iff] at found
      obtain ⟨⟨known, other⟩, present, rfl⟩ := found
      exact contents_subset_of_mem (List.mem_of_find?_eq_some present)

/-- What a path leads to holds no other files than the trees it starts from. -/
theorem contents_subset_of_follow {root : FileTree} {path : List String} :
    ∀ {above : List FileTree} {here found : FileTree},
      (∀ tree ∈ above, tree.contents ⊆ root.contents) → here.contents ⊆ root.contents →
      follow above here path = some found → found.contents ⊆ root.contents := by
  induction path with
  | nil =>
      intro above here found _ inside reached
      simp only [follow, Option.some.injEq] at reached
      exact reached ▸ inside
  | cons name rest ih =>
      intro above here found outside inside reached
      unfold follow at reached
      split at reached
      · cases reached
      · split at reached
        · exact ih outside inside reached
        · split at reached
          · cases above with
            | nil => exact ih outside inside reached
            | cons parent more =>
                exact ih (fun tree member => outside tree (List.mem_cons_of_mem _ member))
                  (outside parent (by simp)) reached
          · split at reached
            · cases reached
            · next child present =>
                refine ih ?_ (List.Subset.trans (contents_subset_of_child present) inside) reached
                intro tree member
                rcases List.mem_cons.1 member with rfl | later
                · exact inside
                · exact outside tree later

end FileTree

/-- A tree of files with a directory in which relative paths start. -/
structure FileSystem where
  root : FileTree
  workingDirectory : List String

namespace FileSystem

/-- What a path leads to; one of more than 4095 bytes leads nowhere. -/
def find? (system : FileSystem) (path : String) : Option FileTree :=
  if 4095 < path.utf8ByteSize then none
  else if Path.isAbsolute path then FileTree.follow [] system.root (Path.names path)
  else FileTree.follow [] system.root (system.workingDirectory ++ Path.names path)

/-- The bytes of the file at a path. -/
def bytes? (system : FileSystem) (path : String) : Option ByteArray :=
  match system.find? path with
  | some (.file bytes) => some bytes
  | _ => none

theorem mem_contents_of_bytes? {system : FileSystem} {path : String} {bytes : ByteArray}
    (found : system.bytes? path = some bytes) : bytes ∈ system.root.contents := by
  unfold bytes? find? at found
  split at found
  · next content reached =>
      cases found
      have single : bytes ∈ (FileTree.file bytes).contents := by simp [FileTree.contents]
      split at reached
      · cases reached
      · split at reached
        all_goals
          exact FileTree.contents_subset_of_follow (by simp) (List.Subset.refl _) reached single
  · cases found

/-- The text of the file at a path. -/
def readText (system : FileSystem) (path : String) : Except Error String :=
  match (system.bytes? path).bind String.fromUTF8? with
  | some text => .ok text
  | none => .error (.unreadable path)

end FileSystem
end Resource
end LayeredConfig
