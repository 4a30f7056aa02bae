import ByoRedis.Lib.Double
import ByoRedis.Lib.CString
import ByoRedis.Container.HashTable
import ByoRedis.Container.Avl

/-!
# Container — the sorted set

`container/zset.{h,cc}`: one intrusive `ZNode` per member, indexed by name in
a hash map and by (score, name) in an AVL tree. The nodes of a set live in a
memory of its own: at one address the `ZNode` fields, the embedded tree node
(in `tree`) and the embedded hash node (whose `ptr` is the address). An
address is never given out twice.

As in the containers below, `none` is undefined behaviour, a failed `assert`
or a loop that does not end, with one exception: the comparisons (`zless`,
`hcmp`) and the searches read a node that has been freed as if it were still
there; only freeing it again is caught. A set in order reads no such node. After
`zset_clear` there are some in the hash table.
-/

namespace ByoRedis

open CString

/-- `struct ZNode`, without the embedded tree node; `hashCode` is
`hmap.hash_code`, `name` is `name` and `len`. -/
structure ZNode where
  hashCode : Nat := 0
  score : Double := ⟨0⟩
  name : Bytes := []
deriving DecidableEq

/-- `struct ZSet`, and the memory of its nodes: their contents, which
addresses are allocated, and the next address `malloc` gives out. -/
structure ZSet where
  root : Option Ptr := none
  hmap : HashMap Ptr
  tree : AvlMem := fun _ => {}
  node : Ptr → ZNode := fun _ => {}
  live : Ptr → Bool := fun _ => false
  next : Ptr := 0

/-- `ZSet zset;` -/
def ZSet.new : Option ZSet := HashMap.new.map (fun h => { hmap := h })

/-- `znode_new`. -/
def znodeNew (z : ZSet) (name : Bytes) (score : Double) : ZSet × Ptr :=
  ({ z with
      tree := avlInit z.tree z.next
      node := Function.update z.node z.next { hashCode := strHash name, score := score, name := name }
      live := Function.update z.live z.next true
      next := z.next + 1 }, z.next)

/-- `znode_del`: `free` of an address that is not allocated is undefined. -/
def znodeDel (z : ZSet) (p : Ptr) : Option ZSet :=
  if z.live p then some { z with live := Function.update z.live p false } else none

/-- `zless`: compare a node with a (score, name) tuple. -/
def zlessTuple (zl : ZNode) (score : Double) (name : Bytes) : Bool :=
  if zl.score.eq score = false then zl.score.lt score
  else
    match memcmp zl.name name (min zl.name.length name.length) with
    | .lt => true
    | .gt => false
    | .eq => decide (zl.name.length < name.length)

/-- `zless` on two nodes. -/
def zless (z : ZSet) (lhs rhs : Ptr) : Bool :=
  zlessTuple (z.node lhs) (z.node rhs).score (z.node rhs).name

/-- The tree search of `tree_insert`: the node to insert under and the link
to store into. -/
def ZSet.treeSearch (z : ZSet) (node : Ptr) (parent : Option Ptr) (fr : AvlFrom) (cur : Option Ptr) :
    Option (Option Ptr × AvlFrom) :=
  match cur with
  | none => some (parent, fr)
  | some p =>
    if zless z node p then z |>.treeSearch node (some p) (.left p) (z.tree p).left
    else z |>.treeSearch node (some p) (.right p) (z.tree p).right
partial_fixpoint

/-- `tree_insert`. -/
def treeInsert (z : ZSet) (node : Ptr) : Option ZSet := do
  let (parent, fr) ← z.treeSearch node none .root z.root
  -- attach the new node
  let m := (z.tree.store fr (some node)).setParent node parent
  let (m, root) ← m.avlFix node
  some { z with tree := m, root := some root }

/-- `zset_update`: give a node another score. -/
def zsetUpdate (z : ZSet) (node : Ptr) (score : Double) : Option ZSet :=
  if (z.node node).score.eq score then some z
  else do
    -- detach the tree node
    let (m, root) ← avlRemove z.tree node
    -- reinsert it
    treeInsert
      { z with
        root := root
        tree := avlInit m node
        node := Function.update z.node node { z.node node with score := score } } node

/-- `hcmp`. -/
def hcmp (z : ZSet) (name : Bytes) (p : Ptr) : Bool :=
  if (z.node p).name.length ≠ name.length then false
  else memcmp (z.node p).name name (z.node p).name.length == .eq

/-- `zset_lookup`: an empty tree is answered without the hash table. -/
def zsetLookup (z : ZSet) (name : Bytes) : Option (ZSet × Option Ptr) :=
  match z.root with
  | none => some (z, none)
  | some _ => do
    let (hmap, found) ← z.hmap.lookup (strHash name) (hcmp z name)
    some ({ z with hmap := hmap }, found.map HashNode.ptr)

/-- `zset_insert`: whether the name is new. -/
def zsetInsert (z : ZSet) (name : Bytes) (score : Double) : Option (ZSet × Bool) := do
  match ← zsetLookup z name with
  | (z, some node) =>
    let z ← zsetUpdate z node score
    some (z, false)
  | (z, none) =>
    let (z, node) := znodeNew z name score
    let hmap ← z.hmap.insert { ptr := node, hashCode := (z.node node).hashCode }
    let z ← treeInsert { z with hmap := hmap } node
    some (z, true)

/-- `zset_delete`, with its assertion that the hash table knows the node. -/
def zsetDelete (z : ZSet) (node : Ptr) : Option ZSet := do
  match ← z.hmap.remove (z.node node).hashCode (hcmp z (z.node node).name) with
  | (_, none) => none
  | (hmap, some _) =>
    let (m, root) ← avlRemove z.tree node
    znodeDel { z with hmap := hmap, tree := m, root := root } node

/-- The loop of `zset_seekge`. -/
def ZSet.seekgeLoop (z : ZSet) (score : Double) (name : Bytes) (found : Option Ptr)
    (cur : Option Ptr) : Option (Option Ptr) :=
  match cur with
  | none => some found
  | some p =>
    if zlessTuple (z.node p) score name then z |>.seekgeLoop score name found (z.tree p).right
    else z |>.seekgeLoop score name (some p) (z.tree p).left
partial_fixpoint

/-- `zset_seekge`: the first node that is not below the tuple. -/
def zsetSeekge (z : ZSet) (score : Double) (name : Bytes) : Option (Option Ptr) :=
  z.seekgeLoop score name none z.root

/-- `znode_offset`. In a set that fits in memory the numbers of the walk fit an
`int64_t` (`znodeOffset_int64`). -/
def znodeOffset (z : ZSet) (node : Option Ptr) (offset : Int) : Option (Option Ptr) :=
  match node with
  | none => some none
  | some p => avlOffset z.tree p 0 offset

/-- `tree_dispose`: free a subtree, kids first. -/
def ZSet.treeDispose (z : ZSet) (node : Option Ptr) : Option ZSet :=
  match node with
  | none => some z
  | some p => do
    let z ← z |>.treeDispose (z.tree p).left
    let z ← z |>.treeDispose (z.tree p).right
    znodeDel z p
partial_fixpoint

/-- `zset_clear`; the hash table keeps its nodes. -/
def zsetClear (z : ZSet) : Option ZSet :=
  (z.treeDispose z.root).map (fun z => { z with root := none })

end ByoRedis
