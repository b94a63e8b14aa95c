import Std.Data.ExtTreeMap

namespace TarGuard

-- The names that lead from the root to a node, the last of them first.
abbrev Location := List String

@[ext]
structure File where
  content : List UInt8
  mode : UInt32
  modified : Int
  deriving DecidableEq, Repr

inductive Node
  | file (f : File)
  | directory (mode : UInt32)
  | link (target : String)
  deriving DecidableEq, Repr

namespace Node

def isDirectory : Node → Bool
  | directory _ => true
  | _ => false

end Node

def IsFileName (s : String) : Prop :=
  s ≠ "" ∧ s ≠ "." ∧ s ≠ ".." ∧ '/' ∉ s.toList ∧ '\x00' ∉ s.toList ∧ s.utf8ByteSize ≤ 255

instance : DecidablePred IsFileName :=
  fun s => by unfold IsFileName; infer_instance

-- The nodes, the working directory, and the time that changes are stamped with. All nodes have
-- proper names and stand in directories.
@[ext]
structure FileSystem where
  nodes : Std.ExtTreeMap Location Node
  current : Location
  clock : Int
  root_isDirectory : nodes[([] : Location)]?.any Node.isDirectory
  parent_isDirectory (name : String) (loc : Location) :
    (name :: loc) ∈ nodes → nodes[loc]?.any Node.isDirectory
  isFileName (name : String) (parent : Location) : (name :: parent) ∈ nodes → IsFileName name
  current_isDirectory : nodes[current]?.any Node.isDirectory

namespace FileSystem

def node? (fs : FileSystem) (loc : Location) : Option Node :=
  fs.nodes[loc]?

def IsDirectory (fs : FileSystem) (loc : Location) : Prop :=
  (fs.node? loc).any Node.isDirectory

instance (fs : FileSystem) : DecidablePred fs.IsDirectory :=
  fun _ => inferInstanceAs (Decidable (Option.any _ _ = true))

theorem isDirectory_iff {fs : FileSystem} {loc : Location} :
    fs.IsDirectory loc ↔ ∃ mode, fs.node? loc = some (.directory mode) := by
  cases h : fs.node? loc with
  | none => simp [IsDirectory, h]
  | some node => cases node <;> simp [IsDirectory, h, Node.isDirectory]

def root (clock : Int) : FileSystem where
  nodes := (∅ : Std.ExtTreeMap Location Node).insert [] (.directory 0o755)
  current := []
  clock := clock
  root_isDirectory := by simp [Node.isDirectory]
  parent_isDirectory := by simp [Std.ExtTreeMap.mem_insert]
  isFileName := by simp [Std.ExtTreeMap.mem_insert]
  current_isDirectory := by simp [Node.isDirectory]

-- A node may stand at a location: its name is proper, its parent is there, and it does not replace
-- a directory by something else.
def Accepts (fs : FileSystem) : Location → Node → Prop
  | [], node => node.isDirectory
  | name :: loc, node =>
    IsFileName name ∧ fs.IsDirectory loc ∧ (fs.IsDirectory (name :: loc) → node.isDirectory)

instance (fs : FileSystem) (loc : Location) (node : Node) : Decidable (fs.Accepts loc node) := by
  cases loc <;> unfold Accepts <;> infer_instance

theorem any_insert {nodes : Std.ExtTreeMap Location Node} {loc new : Location} {node : Node}
    (h : nodes[loc]?.any Node.isDirectory) (hn : loc = new → node.isDirectory) :
    (nodes.insert new node)[loc]?.any Node.isDirectory := by
  rw [Std.ExtTreeMap.getElem?_insert]
  split
  · next he => exact hn (Std.LawfulEqOrd.eq_of_compare he).symm
  · exact h

theorem any_insert_of_accepts {fs : FileSystem} {loc new : Location} {node : Node}
    (ha : fs.Accepts new node) (h : fs.IsDirectory loc) :
    (fs.nodes.insert new node)[loc]?.any Node.isDirectory := by
  refine any_insert h ?_
  rintro rfl
  cases loc with
  | nil => exact ha
  | cons => exact ha.2.2 h

def put (fs : FileSystem) (loc : Location) (node : Node) : FileSystem :=
  if ha : fs.Accepts loc node then
    { fs with
      nodes := fs.nodes.insert loc node
      root_isDirectory := any_insert_of_accepts ha fs.root_isDirectory
      parent_isDirectory := by
        intro name l hm
        rcases Std.ExtTreeMap.mem_insert.mp hm with he | hm
        · cases Std.LawfulEqOrd.eq_of_compare he
          exact any_insert_of_accepts ha ha.2.1
        · exact any_insert_of_accepts ha (fs.parent_isDirectory name l hm)
      isFileName := by
        intro name l hm
        rcases Std.ExtTreeMap.mem_insert.mp hm with he | hm
        · cases Std.LawfulEqOrd.eq_of_compare he
          exact ha.1
        · exact fs.isFileName name l hm
      current_isDirectory := any_insert_of_accepts ha fs.current_isDirectory }
  else
    fs

def remove (fs : FileSystem) (loc : Location) : FileSystem :=
  if hd : fs.IsDirectory loc then
    fs
  else
    have keep {l : Location} (h : fs.IsDirectory l) :
        (fs.nodes.erase loc)[l]?.any Node.isDirectory := by
      rw [Std.ExtTreeMap.getElem?_erase]
      split
      · next he => exact absurd (Std.LawfulEqOrd.eq_of_compare he ▸ h) hd
      · exact h
    { fs with
      nodes := fs.nodes.erase loc
      root_isDirectory := keep fs.root_isDirectory
      parent_isDirectory := fun name l hm =>
        keep (fs.parent_isDirectory name l (Std.ExtTreeMap.mem_of_mem_erase hm))
      isFileName := fun name l hm => fs.isFileName name l (Std.ExtTreeMap.mem_of_mem_erase hm)
      current_isDirectory := keep fs.current_isDirectory }

def enter (fs : FileSystem) (loc : Location) : FileSystem :=
  if h : fs.IsDirectory loc then
    { fs with current := loc, current_isDirectory := by simpa [IsDirectory, node?] using h }
  else
    fs

theorem node?_put_self {fs : FileSystem} {loc : Location} {node : Node}
    (ha : fs.Accepts loc node) : (fs.put loc node).node? loc = some node := by
  simp [put, ha, node?]

theorem node?_put_of_ne {fs : FileSystem} {loc l : Location} {node : Node} (h : l ≠ loc) :
    (fs.put loc node).node? l = fs.node? l := by
  unfold put
  split
  · simp only [node?, Std.ExtTreeMap.getElem?_insert]
    split
    · next he => exact absurd (Std.LawfulEqOrd.eq_of_compare he).symm h
    · rfl
  · rfl

theorem node?_remove_self {fs : FileSystem} {loc : Location} (h : ¬ fs.IsDirectory loc) :
    (fs.remove loc).node? loc = none := by
  simp [remove, h, node?]

theorem node?_remove_of_ne {fs : FileSystem} {loc l : Location} (h : l ≠ loc) :
    (fs.remove loc).node? l = fs.node? l := by
  unfold remove
  split
  · rfl
  · simp only [node?, Std.ExtTreeMap.getElem?_erase]
    split
    · next he => exact absurd (Std.LawfulEqOrd.eq_of_compare he).symm h
    · rfl

def below (fs : FileSystem) (loc : Location) : List (List String × Node) :=
  (fs.nodes.toList.filterMap fun (l, node) =>
    if loc <:+ l ∧ l ≠ loc then some ((l.take (l.length - loc.length)).reverse, node) else none
  ).mergeSort fun a b => compare a.1 b.1 |>.isLE

end FileSystem
end TarGuard
