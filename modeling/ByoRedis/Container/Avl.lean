import ByoRedis.Container.Common

/-!
# Container — the intrusive AVL tree

`container/avl.{h,cc}` on an explicit memory: an address is mapped to the
`AVLNode` embedded in the object there, and every assignment through a
pointer is an update of that map. Dereferencing a null pointer and a failed
`assert` answer `none`, and so does a loop that never ends (the loops follow
pointers, so nothing but the shape of the memory stops them).

`cnt` wraps as a `uint32_t` does. `height` is kept without wrapping: a
balanced tree needs far more than `2^64` nodes before its height no longer
fits in 32 bits, so the difference cannot be observed.
-/

namespace ByoRedis

/-- `struct AVLNode`. -/
structure AVLNode where
  parent : Option Ptr := none
  left : Option Ptr := none
  right : Option Ptr := none
  height : Nat := 0
  cnt : Nat := 0
deriving DecidableEq

/-- The `AVLNode`s in memory. -/
abbrev AvlMem := Ptr → AVLNode

namespace AvlMem

def setParent (m : AvlMem) (p : Ptr) (v : Option Ptr) : AvlMem :=
  Function.update m p { m p with parent := v }

def setLeft (m : AvlMem) (p : Ptr) (v : Option Ptr) : AvlMem :=
  Function.update m p { m p with left := v }

def setRight (m : AvlMem) (p : Ptr) (v : Option Ptr) : AvlMem :=
  Function.update m p { m p with right := v }

/-- `if (p) { p->parent = v; }` -/
def setParentOf (m : AvlMem) : Option Ptr → Option Ptr → AvlMem
  | none, _ => m
  | some p, v => m.setParent p v

end AvlMem

/-- `avl_init`. -/
def avlInit (m : AvlMem) (node : Ptr) : AvlMem :=
  Function.update m node { height := 1, cnt := 1 }

/-- `avl_height`. -/
def avlHeight (m : AvlMem) : Option Ptr → Nat
  | none => 0
  | some p => (m p).height

/-- `avl_cnt`. -/
def avlCnt (m : AvlMem) : Option Ptr → Nat
  | none => 0
  | some p => (m p).cnt

/-- `avl_update`. -/
def avlUpdate (m : AvlMem) (node : Ptr) : AvlMem :=
  Function.update m node
    { m node with
      height := 1 + max (avlHeight m (m node).left) (avlHeight m (m node).right)
      cnt := (1 + avlCnt m (m node).left + avlCnt m (m node).right) % 2 ^ 32 }

/-- `rot_left`. -/
def rotLeft (m : AvlMem) (node : Ptr) : Option (AvlMem × Ptr) :=
  let parent := (m node).parent
  match (m node).right with
  | none => none
  | some newNode =>
    let inner := (m newNode).left
    -- node <-> inner
    let m := m.setRight node inner
    let m := m.setParentOf inner (some node)
    -- parent <- new_node
    let m := m.setParent newNode parent
    -- new_node <-> node
    let m := m.setLeft newNode (some node)
    let m := m.setParent node (some newNode)
    -- auxiliary data
    some (avlUpdate (avlUpdate m node) newNode, newNode)

/-- `rot_right`. -/
def rotRight (m : AvlMem) (node : Ptr) : Option (AvlMem × Ptr) :=
  let parent := (m node).parent
  match (m node).left with
  | none => none
  | some newNode =>
    let inner := (m newNode).right
    -- node <-> inner
    let m := m.setLeft node inner
    let m := m.setParentOf inner (some node)
    -- parent <- new_node
    let m := m.setParent newNode parent
    -- new_node <-> node
    let m := m.setRight newNode (some node)
    let m := m.setParent node (some newNode)
    -- auxiliary data
    some (avlUpdate (avlUpdate m node) newNode, newNode)

/-- `avl_fix_left`: the left subtree is taller by 2. -/
def avlFixLeft (m : AvlMem) (node : Ptr) : Option (AvlMem × Ptr) :=
  match (m node).left with
  | none => none
  | some left =>
    if avlHeight m (m left).left < avlHeight m (m left).right then
      match rotLeft m left with
      | none => none
      | some (m, sub) => rotRight (m.setLeft node (some sub)) node
    else rotRight m node

/-- `avl_fix_right`: the right subtree is taller by 2. -/
def avlFixRight (m : AvlMem) (node : Ptr) : Option (AvlMem × Ptr) :=
  match (m node).right with
  | none => none
  | some right =>
    if avlHeight m (m right).right < avlHeight m (m right).left then
      match rotRight m right with
      | none => none
      | some (m, sub) => rotLeft (m.setRight node (some sub)) node
    else rotLeft m node

/-- What `AVLNode **from` points to: a variable for the root, or a child field. -/
inductive AvlFrom where
  | root
  | left (p : Ptr)
  | right (p : Ptr)
deriving DecidableEq

/-- `from = parent->left == node ? &parent->left : &parent->right;` under
`if (parent)`. -/
def avlFrom (m : AvlMem) (parent : Option Ptr) (node : Ptr) : AvlFrom :=
  match parent with
  | none => .root
  | some p => if (m p).left = some node then .left p else .right p

/-- `*from = v;` as far as it is visible in memory. -/
def AvlMem.store (m : AvlMem) : AvlFrom → Option Ptr → AvlMem
  | .root, _ => m
  | .left p, v => m.setLeft p v
  | .right p, v => m.setRight p v

/-- The body of the loop of `avl_fix` on one node: its fields are brought up
to date, a difference of two is repaired, and the repaired subtree is stored
where the node was attached. -/
def avlFixNode (m : AvlMem) (node : Ptr) : Option (AvlMem × Ptr) :=
  let fr := avlFrom m (m node).parent node
  let m := avlUpdate m node
  let l := avlHeight m (m node).left
  let r := avlHeight m (m node).right
  if l = r + 2 then
    (avlFixLeft m node).map (fun (m, sub) => (m.store fr (some sub), sub))
  else if l + 2 = r then
    (avlFixRight m node).map (fun (m, sub) => (m.store fr (some sub), sub))
  else some (m, node)

/-- `avl_fix`: repair up to the root, which is returned. -/
def AvlMem.avlFix (m : AvlMem) (node : Ptr) : Option (AvlMem × Ptr) :=
  match avlFixNode m node with
  | none => none
  | some (m', sub) =>
    match (m node).parent with
    | none => some (m', sub)
    | some parent => m' |>.avlFix parent
partial_fixpoint

/-- `avl_del_easy`: detach a node with at most one child. -/
def avlDelEasy (m : AvlMem) (node : Ptr) : Option (AvlMem × Option Ptr) :=
  if (m node).left.isSome ∧ (m node).right.isSome then none
  else
    let child := if (m node).left.isSome then (m node).left else (m node).right
    let parent := (m node).parent
    let m := m.setParentOf child parent
    match parent with
    | none => some (m, child)
    | some p =>
      let m := m.store (avlFrom m parent node) child
      (m.avlFix p).map (fun (m, root) => (m, some root))

/-- `while (victim->left) { victim = victim->left; }` -/
def AvlMem.avlLeftmost (m : AvlMem) (victim : Ptr) : Option Ptr :=
  match (m victim).left with
  | none => some victim
  | some left => m |>.avlLeftmost left
partial_fixpoint

/-- The second half of `avl_remove`: `victim`, already detached, takes over
the fields and the place of `node`. -/
def avlTakeOver (m : AvlMem) (root : Option Ptr) (node victim : Ptr) : AvlMem × Option Ptr :=
  let m : AvlMem := Function.update m victim (m node)
  let m := m.setParentOf (m victim).left (some victim)
  let m := m.setParentOf (m victim).right (some victim)
  let parent := (m node).parent
  (m.store (avlFrom m parent node) (some victim),
    if parent.isSome then root else some victim)

/-- `avl_remove`: detach a node, answer the new root. -/
def avlRemove (m : AvlMem) (node : Ptr) : Option (AvlMem × Option Ptr) :=
  match (m node).left, (m node).right with
  | some _, some right =>
    match m.avlLeftmost right with
    | none => none
    | some victim =>
      match avlDelEasy m victim with
      | none => none
      | some (m, root) => some (avlTakeOver m root node victim)
  | _, _ => avlDelEasy m node

/-- `pos < offset && pos + avl_cnt(node->right) >= offset`; `int64` is what
becomes of the sum. -/
def avlInRight (int64 : Int → Option Int) (m : AvlMem) (node : Ptr) (pos offset : Int) :
    Option Bool :=
  if pos < offset then
    (int64 (pos + avlCnt m (m node).right)).map (fun last => decide (offset ≤ last))
  else some false

/-- `pos > offset && pos - avl_cnt(node->left) <= offset`. -/
def avlInLeft (int64 : Int → Option Int) (m : AvlMem) (node : Ptr) (pos offset : Int) :
    Option Bool :=
  if offset < pos then
    (int64 (pos - avlCnt m (m node).left)).map (fun first => decide (first ≤ offset))
  else some false

/-- `avl_offset`, from the node at rank difference `pos`. The additions of
`uint32_t` wrap; `int64` is what becomes of a number that is computed in
`int64_t`. -/
def AvlMem.avlOffsetWith (int64 : Int → Option Int) (m : AvlMem) (node : Ptr) (pos offset : Int) :
    Option (Option Ptr) :=
  if offset = pos then some (some node)
  else do
    if ← avlInRight int64 m node pos offset then
      -- the target is inside the right subtree
      let right ← (m node).right
      let pos ← int64 (pos + ((avlCnt m (m right).left + 1) % 2 ^ 32 : Nat))
      m |>.avlOffsetWith int64 right pos offset
    else if ← avlInLeft int64 m node pos offset then
      -- the target is inside the left subtree
      let left ← (m node).left
      let pos ← int64 (pos - ((avlCnt m (m left).right + 1) % 2 ^ 32 : Nat))
      m |>.avlOffsetWith int64 left pos offset
    else
      -- go to the parent
      match (m node).parent with
      | none => some none
      | some parent =>
        if (m parent).right = some node then do
          let pos ← int64 (pos - ((avlCnt m (m node).left + 1) % 2 ^ 32 : Nat))
          m |>.avlOffsetWith int64 parent pos offset
        else do
          let pos ← int64 (pos + ((avlCnt m (m node).right + 1) % 2 ^ 32 : Nat))
          m |>.avlOffsetWith int64 parent pos offset
partial_fixpoint

/-- `avl_offset` with numbers that do not overflow. -/
def avlOffset (m : AvlMem) (node : Ptr) (pos offset : Int) : Option (Option Ptr) :=
  m.avlOffsetWith some node pos offset

/-- `avl_offset` with an `int64_t` whose overflow is undefined. -/
def avlOffset64 (m : AvlMem) (node : Ptr) (pos offset : Int) : Option (Option Ptr) :=
  m.avlOffsetWith (fun n => if -2 ^ 63 ≤ n ∧ n < 2 ^ 63 then some n else none) node pos offset

end ByoRedis
