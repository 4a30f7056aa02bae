import ByoRedis.Container.AvlOps

/-!
# Container — AVL trees with exact counters

`cnt` is a `uint32_t`: it is the number of nodes as long as there are fewer
than `2^32` of them. For such trees, what `avl_remove` leaves behind, and where
`avl_offset` ends up. The walk of `avl_offset` climbs until the target is
within the subtree and then goes down to it; the induction is on the path
above, and then on the subtree.
-/

namespace ByoRedis

open BinaryTree AvlTree

/-- The tree is laid out in memory under the parent `par`, with exact heights
and counts. -/
def ExactCells (m : AvlMem) : Option Ptr → BinaryTree Ptr → Prop
  | _, .nil => True
  | par, .node p l r =>
    m p = { parent := par, left := rootPtr l, right := rootPtr r,
            height := (node p l r).height, cnt := (node p l r).numNodes } ∧
      ExactCells m (some p) l ∧ ExactCells m (some p) r

/-- A valid tree: links that agree, a root without a parent, exact heights and
counts, and heights of siblings that differ by at most one. -/
structure AvlExact (m : AvlMem) (root : Option Ptr) (t : BinaryTree Ptr) : Prop where
  root : rootPtr t = root
  cells : ExactCells m none t
  balanced : Balanced t
  nodup : (inorder t).Nodup
  small : (inorder t).length < 2 ^ 32

/-- No link of the node leads to `x`. -/
structure AVLNode.Avoids (n : AVLNode) (x : Ptr) : Prop where
  parent : n.parent ≠ some x
  left : n.left ≠ some x
  right : n.right ≠ some x

variable {m : AvlMem} {root par : Option Ptr} {t l r : BinaryTree Ptr} {p q x : Ptr}
  {c : List (Frame Ptr)}

theorem exactCells_iff (h : t.numNodes < 2 ^ 32) : ExactCells m par t ↔ Repr m par t := by
  induction t generalizing par with
  | nil => exact Iff.rfl
  | node p l r ihl ihr =>
    have hmod : (node p l r).numNodes % 2 ^ 32 = (node p l r).numNodes := Nat.mod_eq_of_lt h
    simp only [numNodes] at h
    rw [ExactCells, Repr, ihl (by omega), ihr (by omega), avlCell, hmod]

theorem avlExact_iff :
    AvlExact m root t ↔ AvlValid m root t ∧ (inorder t).length < 2 ^ 32 := by
  constructor
  · intro h
    have hcells := (exactCells_iff (by rw [numNodes_eq_length]; exact h.small)).mp h.cells
    exact ⟨⟨h.root, hcells, h.balanced, h.nodup⟩, h.small⟩
  · rintro ⟨h, hsmall⟩
    have hcells := (exactCells_iff (by rw [numNodes_eq_length]; exact hsmall)).mpr h.repr
    exact ⟨h.root, hcells, h.balanced, h.nodup, hsmall⟩

/-- The links of a tree lead to its nodes. -/
theorem Repr.avoids (h : Repr m par t) (hpar : par ≠ some x) (hx : x ∉ inorder t) :
    ∀ p ∈ inorder t, (m p).Avoids x := by
  induction t generalizing par with
  | nil => simp
  | node a l r ihl ihr =>
    obtain ⟨ha, hl, hr⟩ := h
    simp only [inorder_node, List.mem_append, List.mem_cons, not_or] at hx
    have hax : some a ≠ some x := fun he => hx.2.1 (Option.some.inj he).symm
    intro p hp
    simp only [inorder_node, List.mem_append, List.mem_cons] at hp
    rcases hp with hp | rfl | hp
    · exact ihl hl hax hx.1 p hp
    · rw [ha]
      exact ⟨hpar, fun he => hx.1 (rootPtr_mem he), fun he => hx.2.2 (rootPtr_mem he)⟩
    · exact ihr hr hax hx.2.2 p hp

/-! ## Deletion -/

/-- **AVL deletion.** `avl_remove` of a node of a valid tree ends and answers
the root of a valid tree with the other nodes in their order. No link leads to
the node any more, and no node outside of the tree was written. -/
theorem avl_deletion (m : AvlMem) (root : Option Ptr) (t : BinaryTree Ptr) (x : Ptr)
    (h : AvlExact m root t) (hx : x ∈ inorder t) :
    ∃ m' root' t', avlRemove m x = some (m', root') ∧ AvlExact m' root' t' ∧
      inorder t' = (inorder t).erase x ∧ (root' = none ↔ inorder t = [x]) ∧
      root' ≠ some x ∧ (∀ p ∈ inorder t', (m' p).Avoids x) ∧
      ∀ p ∉ inorder t, m' p = m p := by
  obtain ⟨hvalid, hsmall⟩ := avlExact_iff.mp h
  obtain ⟨c, l, r, rfl⟩ := exists_plug_of_mem hx
  obtain ⟨m', root', hrun, hvalid', hframe⟩ := avlRemove_spec hvalid
  have hold : inorder (plug c (node x l r)) =
      (before c ++ inorder l) ++ x :: (inorder r ++ after c) := by
    simp [inorder_plug]
  have hnot : x ∉ before c ++ inorder l := by
    intro hmem
    have hnd := h.nodup
    rw [hold, List.nodup_append] at hnd
    exact hnd.2.2 x hmem x List.mem_cons_self rfl
  have herase : inorder (fixUp c (join l r)) = (inorder (plug c (node x l r))).erase x := by
    rw [hold, List.erase_append_right _ hnot, List.erase_cons_head, inorder_fixUp_join]
    simp
  have hgone : x ∉ inorder (fixUp c (join l r)) := by
    rw [herase]
    exact h.nodup.not_mem_erase
  have hlen : (inorder (fixUp c (join l r))).length < 2 ^ 32 := by
    rw [herase]
    exact lt_of_le_of_lt List.length_erase_le hsmall
  refine ⟨m', root', _, hrun, avlExact_iff.mpr ⟨hvalid', hlen⟩, herase, ?_, ?_,
    hvalid'.repr.avoids (by simp) hgone, hframe⟩
  · have hroot : root' = none ↔ inorder (fixUp c (join l r)) = [] := by
      rw [← hvalid'.root]
      cases fixUp c (join l r) <;> simp [rootPtr]
    rw [hroot, herase]
    constructor
    · intro hnil
      have hone := List.length_erase_of_mem hx
      rw [hnil, List.length_nil] at hone
      have hpos := List.length_pos_of_mem hx
      obtain ⟨y, hy⟩ := List.length_eq_one_iff.mp
        (show (inorder (plug c (node x l r))).length = 1 by omega)
      rw [hy, List.mem_singleton] at hx
      rw [hy, hx]
    · intro hone
      rw [hone, List.erase_cons_head]
  · intro he
    rw [← hvalid'.root] at he
    exact hgone (rootPtr_mem he)

/-- The memory of a tree of three nodes with the root 2. -/
def threeNodes : AvlMem := fun p =>
  if p = 2 then { left := some 1, right := some 3, height := 2, cnt := 3 }
  else { parent := some 2, height := 1, cnt := 1 }

theorem threeNodes_exact :
    AvlExact threeNodes (some 2) (node 2 (node 1 .nil .nil) (node 3 .nil .nil)) := by
  refine ⟨rfl, ⟨rfl, ⟨rfl, trivial, trivial⟩, rfl, trivial, trivial⟩, ?_, by decide, by decide⟩
  simp [AvlTree.Balanced]

/-- The root of three nodes is removed. -/
theorem avl_deletion_root : ∃ m' root' t',
    avlRemove threeNodes 2 = some (m', root') ∧ AvlExact m' root' t' ∧ inorder t' = [1, 3] := by
  obtain ⟨m', root', t', hrun, h', hin, -⟩ :=
    avl_deletion threeNodes (some 2) _ 2 threeNodes_exact (by decide)
  exact ⟨m', root', t', hrun, h', hin.trans (by decide)⟩

/-! ## One step of `avl_offset` -/

section Walk

/-- Numbers of the size `bound` are computed as they are. -/
def ExactUpTo (bound : Nat) (int64 : Int → Option Int) : Prop :=
  ∀ n : Int, n.natAbs ≤ bound → int64 n = some n

theorem exactUpTo_some (bound : Nat) : ExactUpTo bound some := fun _ _ => rfl

theorem exactUpTo_int64 {bound : Nat} (h : bound < 2 ^ 63) :
    ExactUpTo bound (fun n => if -2 ^ 63 ≤ n ∧ n < 2 ^ 63 then some n else none) :=
  fun _ hn => if_pos (by omega)

variable {int64 : Int → Option Int} {pos offset : Int}

theorem avlOffset_here (h : offset = pos) : m.avlOffsetWith int64 p pos offset = some (some p) := by
  rw [AvlMem.avlOffsetWith.eq_def, if_pos h]

/-- The target is inside the right subtree. -/
theorem avlOffset_right (hlt : pos < offset) (hle : offset ≤ pos + avlCnt m (m p).right)
    (hq : (m p).right = some q)
    (h64 : int64 (pos + avlCnt m (m p).right) = some (pos + avlCnt m (m p).right))
    (h64' : int64 (pos + ((avlCnt m (m q).left + 1) % 2 ^ 32 : Nat)) =
      some (pos + ((avlCnt m (m q).left + 1) % 2 ^ 32 : Nat))) :
    m.avlOffsetWith int64 p pos offset =
      m.avlOffsetWith int64 q (pos + ((avlCnt m (m q).left + 1) % 2 ^ 32 : Nat)) offset := by
  have hin : avlInRight int64 m p pos offset = some true := by
    rw [avlInRight, if_pos hlt, h64, Option.map_some, decide_eq_true hle]
  rw [AvlMem.avlOffsetWith.eq_def, if_neg (by omega)]
  simp only [hin, hq, h64', Option.bind_eq_bind, Option.bind_some, if_true]

/-- The target is inside the left subtree. -/
theorem avlOffset_left (hlt : offset < pos) (hle : pos - avlCnt m (m p).left ≤ offset)
    (hq : (m p).left = some q)
    (h64 : int64 (pos - avlCnt m (m p).left) = some (pos - avlCnt m (m p).left))
    (h64' : int64 (pos - ((avlCnt m (m q).right + 1) % 2 ^ 32 : Nat)) =
      some (pos - ((avlCnt m (m q).right + 1) % 2 ^ 32 : Nat))) :
    m.avlOffsetWith int64 p pos offset =
      m.avlOffsetWith int64 q (pos - ((avlCnt m (m q).right + 1) % 2 ^ 32 : Nat)) offset := by
  have hnot : avlInRight int64 m p pos offset = some false := by
    rw [avlInRight, if_neg (by omega)]
  have hin : avlInLeft int64 m p pos offset = some true := by
    rw [avlInLeft, if_pos hlt, h64, Option.map_some, decide_eq_true hle]
  rw [AvlMem.avlOffsetWith.eq_def, if_neg (by omega)]
  simp only [hnot, hin, hq, h64', Option.bind_eq_bind, Option.bind_some, if_true,
    Bool.false_eq_true, if_false]

/-- The target is outside of the subtree. -/
theorem avlOffset_parent
    (hout : pos < offset ∧ pos + avlCnt m (m p).right < offset ∨
      offset < pos ∧ offset < pos - avlCnt m (m p).left)
    (h64 : int64 (pos + avlCnt m (m p).right) = some (pos + avlCnt m (m p).right))
    (h64' : int64 (pos - avlCnt m (m p).left) = some (pos - avlCnt m (m p).left)) :
    m.avlOffsetWith int64 p pos offset =
      match (m p).parent with
      | none => some none
      | some q =>
        (int64 (if (m q).right = some p then pos - ((avlCnt m (m p).left + 1) % 2 ^ 32 : Nat)
          else pos + ((avlCnt m (m p).right + 1) % 2 ^ 32 : Nat))).bind
          (fun pos => m.avlOffsetWith int64 q pos offset) := by
  have hright : avlInRight int64 m p pos offset = some false := by
    rw [avlInRight]
    split
    · rw [h64, Option.map_some, decide_eq_false (by omega)]
    · rfl
  have hleft : avlInLeft int64 m p pos offset = some false := by
    rw [avlInLeft]
    split
    · rw [h64', Option.map_some, decide_eq_false (by omega)]
    · rfl
  rw [AvlMem.avlOffsetWith.eq_def, if_neg (by omega)]
  simp only [hright, hleft, Option.bind_eq_bind, Option.bind_some, Bool.false_eq_true, if_false]
  cases (m p).parent with
  | none => rfl
  | some q =>
    simp only
    split <;> rfl

/-! ## The walk in an exact tree -/

/-- The node at a rank, if there is one. -/
def atRank (xs : List Ptr) (i : Int) : Option Ptr := if 0 ≤ i then xs[i.toNat]? else none

theorem atRank_append_left {xs ys : List Ptr} {i : Int} (h : i < xs.length) :
    atRank (xs ++ ys) i = atRank xs i := by
  by_cases hi : 0 ≤ i
  · rw [atRank, atRank, if_pos hi, if_pos hi, List.getElem?_append_left (by omega)]
  · rw [atRank, atRank, if_neg hi, if_neg hi]

theorem atRank_append_right {xs ys : List Ptr} {i : Int} (h : xs.length ≤ i) :
    atRank (xs ++ ys) i = atRank ys (i - xs.length) := by
  have hsub : (i - xs.length).toNat = i.toNat - xs.length := by omega
  rw [atRank, atRank, if_pos (by omega), if_pos (by omega),
    List.getElem?_append_right (by omega), hsub]

theorem atRank_of_out {xs : List Ptr} {i : Int} (h : i < 0 ∨ xs.length ≤ i) : atRank xs i = none := by
  rw [atRank]
  split
  · rw [List.getElem?_eq_none (by omega)]
  · rfl

theorem atRank_node_self : atRank (inorder (node p l r)) l.numNodes = some p := by
  rw [inorder_node, numNodes_eq_length, atRank_append_right (Int.le_refl _), Int.sub_self]
  rfl

theorem atRank_node_left {i : Int} (h : i < l.numNodes) :
    atRank (inorder (node p l r)) i = atRank (inorder l) i := by
  rw [numNodes_eq_length] at h
  rw [inorder_node, atRank_append_left h]

theorem atRank_node_right {i : Int} (h : l.numNodes < i) :
    atRank (inorder (node p l r)) i = atRank (inorder r) (i - l.numNodes - 1) := by
  rw [numNodes_eq_length] at h ⊢
  have hone : (([p] : List Ptr).length : Int) ≤ i - (inorder l).length := by
    rw [List.length_singleton]
    omega
  rw [inorder_node, atRank_append_right (by omega), ← List.singleton_append,
    atRank_append_right hone]
  rfl

/-- The counters at a node of a tree with fewer than `2^32` nodes. -/
theorem Linked.cnts (h : Linked m par p l r) (hsize : (node p l r).numNodes < 2 ^ 32) :
    avlCnt m (m p).left = l.numNodes ∧ avlCnt m (m p).right = r.numNodes := by
  simp only [numNodes] at hsize
  rw [h.left, h.right, h.reprL.cnt_eq, h.reprR.cnt_eq]
  exact ⟨Nat.mod_eq_of_lt (by omega), Nat.mod_eq_of_lt (by omega)⟩

/-- A target within the subtree is found by going down. -/
theorem avlOffset_down_exact (hexact : ExactUpTo (2 ^ 34) int64)
    (ht : t = node p l r) (hr : Repr m par t) (hsize : t.numNodes < 2 ^ 32)
    (hlo : -2 ^ 33 ≤ pos - l.numNodes) (hhi : pos + r.numNodes ≤ 2 ^ 33)
    (hleft : -l.numNodes ≤ offset - pos) (hright : offset - pos ≤ r.numNodes) :
    m.avlOffsetWith int64 p pos offset =
      some (atRank (inorder t) (l.numNodes + (offset - pos))) := by
  induction t generalizing par p l r pos with
  | nil => cases ht
  | node p l r ihl ihr =>
    cases ht
    obtain ⟨hcl, hcr⟩ := hr.linked.cnts hsize
    obtain ⟨hp, hl, hr⟩ := hr
    simp only [numNodes] at hsize
    by_cases heq : offset = pos
    · rw [avlOffset_here heq, heq, Int.sub_self, Int.add_zero, atRank_node_self]
    by_cases hlt : pos < offset
    · cases hr' : r with
      | nil =>
        rw [hr', numNodes] at hright
        omega
      | node q rl rr =>
        have hq : (m p).right = some q := by rw [hp, hr']; rfl
        have hn : r.numNodes = rl.numNodes + rr.numNodes + 1 := by rw [hr', numNodes]
        obtain ⟨hcq, -⟩ := (hr' ▸ hr).linked.cnts (by rw [numNodes]; omega)
        have hmod : (avlCnt m (m q).left + 1) % 2 ^ 32 = rl.numNodes + 1 := by
          rw [hcq]
          exact Nat.mod_eq_of_lt (by omega)
        rw [avlOffset_right hlt (by rw [hcr]; omega) hq (hexact _ (by omega))
            (hexact _ (by omega)), hmod,
          ihr hr' hr (by omega) (by omega) (by omega) (by omega) (by omega), ← hr',
          atRank_node_right (by omega)]
        congr 2
        omega
    · cases hl' : l with
      | nil =>
        rw [hl', numNodes] at hleft
        omega
      | node q ll lr =>
        have hq : (m p).left = some q := by rw [hp, hl']; rfl
        have hn : l.numNodes = ll.numNodes + lr.numNodes + 1 := by rw [hl', numNodes]
        obtain ⟨-, hcq⟩ := (hl' ▸ hl).linked.cnts (by rw [numNodes]; omega)
        have hmod : (avlCnt m (m q).right + 1) % 2 ^ 32 = lr.numNodes + 1 := by
          rw [hcq]
          exact Nat.mod_eq_of_lt (by omega)
        rw [avlOffset_left (by omega) (by rw [hcl]; omega) hq (hexact _ (by omega))
            (hexact _ (by omega)), hmod,
          ihl hl' hl (by omega) (by omega) (by omega) (by omega) (by omega), ← hl',
          atRank_node_left (by omega)]
        congr 2
        omega

/-- The ranks of a subtree within the whole tree. -/
theorem atRank_plug {i : Int} (h0 : 0 ≤ i) (h : i < t.numNodes) :
    atRank (inorder (plug c t)) ((before c).length + i) = atRank (inorder t) i := by
  rw [numNodes_eq_length] at h
  rw [inorder_plug, atRank_append_left (by rw [List.length_append]; omega),
    atRank_append_right (by omega), add_sub_cancel_left]

/-- **`avl_offset`**, from a node of a tree with fewer than `2^32` nodes. -/
theorem avlOffset_exact (hexact : ExactUpTo (2 ^ 34) int64)
    (h : Repr m none (plug c (node p l r))) (hnd : (inorder (plug c (node p l r))).Nodup)
    (hsize : (inorder (plug c (node p l r))).length < 2 ^ 32)
    (hlo : -2 ^ 33 ≤ pos - (before c).length - l.numNodes)
    (hhi : pos + r.numNodes + (after c).length ≤ 2 ^ 33) :
    m.avlOffsetWith int64 p pos offset =
      some (atRank (inorder (plug c (node p l r)))
        ((before c).length + (l.numNodes + (offset - pos)))) := by
  induction c generalizing p l r pos with
  | nil =>
    have hn : (node p l r).numNodes < 2 ^ 32 := by rw [numNodes_eq_length]; exact hsize
    obtain ⟨hcl, hcr⟩ := Linked.cnts (Repr.linked h) hn
    have hlen : (inorder (node p l r)).length = l.numNodes + r.numNodes + 1 := by
      rw [← numNodes_eq_length, numNodes]
    simp only [before, after, List.length_nil] at hlo hhi ⊢
    by_cases hwin : -l.numNodes ≤ offset - pos ∧ offset - pos ≤ r.numNodes
    · rw [avlOffset_down_exact hexact rfl h hn (by omega) (by omega) hwin.1 hwin.2, Nat.cast_zero,
        Int.zero_add]
      rfl
    · -- at the root: there is no such rank
      have hpar : (m p).parent = none := by rw [Repr.linked h |>.parent]
      rw [avlOffset_parent (by rw [hcl, hcr]; omega) (hexact _ (by omega))
        (hexact _ (by omega)), hpar]
      simp only
      rw [atRank_of_out]
      show _ ∨ ((inorder (node p l r)).length : Int) ≤ _
      rw [hlen]
      omega
  | cons f fs ih =>
    have hlen : (inorder (plug (f :: fs) (node p l r))).length =
        (before (f :: fs)).length + (l.numNodes + r.numNodes + 1) + (after (f :: fs)).length := by
      rw [inorder_plug, List.length_append, List.length_append, ← numNodes_eq_length, numNodes]
    have hsub : Repr m (ctxPtr (f :: fs)) (node p l r) := (repr_plug.mp h).1
    obtain ⟨hcl, hcr⟩ := hsub.linked.cnts (by rw [numNodes]; omega)
    by_cases hwin : -l.numNodes ≤ offset - pos ∧ offset - pos ≤ r.numNodes
    · rw [avlOffset_down_exact hexact rfl hsub (by rw [numNodes]; omega) (by omega) (by omega) hwin.1
        hwin.2, atRank_plug (by omega) (by rw [numNodes]; omega)]
    · rw [avlOffset_parent (by rw [hcl, hcr]; omega) (hexact _ (by omega))
        (hexact _ (by omega)), hsub.linked.parent, hcl, hcr]
      cases f with
      | left q r' =>
        have hq : Repr m (ctxPtr fs) (node q (node p l r) r') := (repr_plug (c := fs)).mp h |>.1
        have hndq : (inorder (node q (node p l r) r')).Nodup := (nodup_plug (c := fs) hnd).1
        have hne : ¬ (m q).right = some p := by
          rw [hq.linked.right]
          intro he
          rw [inorder_node, List.nodup_append] at hndq
          exact hndq.2.2 p (by simp) p (List.mem_cons_of_mem _ (rootPtr_mem he)) rfl
        have hmod : (r.numNodes + 1) % 2 ^ 32 = r.numNodes + 1 := Nat.mod_eq_of_lt (by omega)
        simp only [before, after, List.length_cons, List.length_append,
          ← numNodes_eq_length] at hlo hhi hlen
        simp only [ctxPtr, Frame.val, if_neg hne, hmod]
        rw [hexact _ (by omega), Option.bind_some,
          ih h hnd hsize (by rw [numNodes]; omega) (by omega)]
        simp only [before, numNodes]
        congr 2
        omega
      | right q l' =>
        have hq : Repr m (ctxPtr fs) (node q l' (node p l r)) := (repr_plug (c := fs)).mp h |>.1
        have heq : (m q).right = some p := hq.linked.right
        have hmod : (l.numNodes + 1) % 2 ^ 32 = l.numNodes + 1 := Nat.mod_eq_of_lt (by omega)
        simp only [before, after, List.length_cons, List.length_nil, List.length_append,
          ← numNodes_eq_length] at hlo hhi hlen
        simp only [ctxPtr, Frame.val, if_pos heq, hmod]
        rw [hexact _ (by omega), Option.bind_some,
          ih h hnd hsize (by omega) (by rw [numNodes]; omega)]
        simp only [before, List.length_append, List.length_cons, List.length_nil,
          ← numNodes_eq_length]
        congr 2
        omega

/-- **`avl_offset`** by ranks, for whatever arithmetic is exact up to `2^34`. -/
theorem avlOffsetWith_rank (hexact : ExactUpTo (2 ^ 34) int64)
    (h : AvlValid m root t) (hsize : (inorder t).length < 2 ^ 32) {i : Nat}
    (hx : (inorder t)[i]? = some x) (k : Int) :
    m.avlOffsetWith int64 x 0 k = some (atRank (inorder t) (i + k)) := by
  obtain ⟨c, l, r, rfl⟩ := exists_plug_of_mem (List.mem_of_getElem? hx)
  have hin : inorder (plug c (node x l r)) =
      (before c ++ inorder l) ++ x :: (inorder r ++ after c) := by
    simp [inorder_plug]
  -- the rank is that of the place in which the node was found
  have hi : i = (before c).length + l.numNodes := by
    have hself : (inorder (plug c (node x l r)))[(before c).length + l.numNodes]? = some x := by
      rw [hin, numNodes_eq_length, List.getElem?_append_right (by simp)]
      simp
    have hlt := (List.getElem?_eq_some_iff.mp hx).1
    exact (List.getElem?_inj hlt h.nodup).mp (hx.trans hself.symm)
  have hlen : (before c).length + l.numNodes + (r.numNodes + (after c).length + 1) < 2 ^ 32 := by
    rw [hin] at hsize
    simp only [List.length_append, List.length_cons, ← numNodes_eq_length] at hsize
    omega
  rw [avlOffset_exact hexact h.repr h.nodup hsize (by omega) (by omega), hi]
  congr 2
  omega

end Walk

/-- **Rank offset.** In a valid tree, from the node of rank `i` and for every
offset, `avl_offset` ends at the node of rank `i + k`, or with a null pointer
if there is none. No `int64_t` overflows on the way, and of the sums of a count
and one in `uint32_t` none can. -/
theorem avl_rank_offset (m : AvlMem) (root : Option Ptr) (t : BinaryTree Ptr) (x : Ptr) (i : Nat)
    (h : AvlExact m root t) (hx : (inorder t)[i]? = some x) (k : Int) :
    avlOffset64 m x 0 k =
        some (if 0 ≤ i + k then (inorder t)[(i + k).toNat]? else none) ∧
      ∀ p ∈ inorder t, avlCnt m (m p).left + 1 < 2 ^ 32 ∧ avlCnt m (m p).right + 1 < 2 ^ 32 := by
  obtain ⟨hvalid, hsmall⟩ := avlExact_iff.mp h
  constructor
  · exact avlOffsetWith_rank (exactUpTo_int64 (by decide)) hvalid hsmall hx k
  · intro p hp
    obtain ⟨c, l, r, rfl⟩ := exists_plug_of_mem hp
    have hlen : l.numNodes + r.numNodes + 1 ≤ (inorder (plug c (node p l r))).length := by
      rw [inorder_plug, List.length_append, List.length_append, ← numNodes_eq_length, numNodes]
      omega
    obtain ⟨hcl, hcr⟩ := (repr_plug.mp hvalid.repr).1.linked.cnts (by rw [numNodes]; omega)
    omega

/-- From the first of three nodes to the last one, and as far back as possible. -/
theorem avl_rank_offset_first :
    avlOffset64 threeNodes 1 0 2 = some (some 3) ∧ avlOffset64 threeNodes 1 0 (-2 ^ 63) = some none :=
  ⟨(avl_rank_offset threeNodes _ _ 1 0 threeNodes_exact rfl 2).1,
    (avl_rank_offset threeNodes _ _ 1 0 threeNodes_exact rfl (-2 ^ 63)).1⟩

end ByoRedis
