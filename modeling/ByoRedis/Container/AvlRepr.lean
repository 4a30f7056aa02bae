import ByoRedis.Lib.AvlTreeOps
import ByoRedis.Container.Avl

/-!
# Container — the memory of an AVL tree and the tree it represents

`Repr m par t`: the nodes of `t` are laid out in `m` with agreeing parent and
child links, exact `height` and (modulo `2^32`) exact `cnt`, under a parent
`par`. `Linked` is the same at a node whose own two counters are stale, which
is the state in which every function of `avl.cc` that repairs a node finds
it. The rotations are proved against `rotL` and `rotR` here; each lemma also
says that nothing outside the subtree is written.
-/

namespace ByoRedis

open BinaryTree AvlTree

/-- The pointer to a subtree. -/
def rootPtr : BinaryTree Ptr → Option Ptr
  | .nil => none
  | .node p _ _ => some p

/-- What the memory holds at the node `p` of a tree with subtrees `l`, `r`. -/
def avlCell (par : Option Ptr) (p : Ptr) (l r : BinaryTree Ptr) : AVLNode :=
  { parent := par, left := rootPtr l, right := rootPtr r, height := (node p l r).height,
    cnt := (node p l r).numNodes % 2 ^ 32 }

/-- The tree is laid out in memory under the parent `par`. -/
def Repr (m : AvlMem) : Option Ptr → BinaryTree Ptr → Prop
  | _, .nil => True
  | par, .node p l r => m p = avlCell par p l r ∧ Repr m (some p) l ∧ Repr m (some p) r

/-- The links at `p` agree with the subtrees below it, which are laid out;
the counters of `p` itself may be stale. -/
structure Linked (m : AvlMem) (par : Option Ptr) (p : Ptr) (l r : BinaryTree Ptr) : Prop where
  parent : (m p).parent = par
  left : (m p).left = rootPtr l
  right : (m p).right = rootPtr r
  reprL : Repr m (some p) l
  reprR : Repr m (some p) r

variable {m m' : AvlMem} {par : Option Ptr} {p q : Ptr} {l r t : BinaryTree Ptr}

theorem Repr.linked (h : Repr m par (node p l r)) : Linked m par p l r := by
  obtain ⟨hp, hl, hr⟩ := h
  exact ⟨by rw [hp]; rfl, by rw [hp]; rfl, by rw [hp]; rfl, hl, hr⟩

/-- Only the nodes of the tree matter. -/
theorem Repr.congr (h : Repr m par t) (hm : ∀ x ∈ inorder t, m' x = m x) : Repr m' par t := by
  induction t generalizing par with
  | nil => trivial
  | node p l r ihl ihr =>
    obtain ⟨hp, hl, hr⟩ := h
    refine ⟨?_, ihl hl ?_, ihr hr ?_⟩
    · rw [hm p (by simp), hp]
    · intro x hx
      exact hm x (by simp [hx])
    · intro x hx
      exact hm x (by simp [hx])

theorem Repr.height_eq (h : Repr m par t) : avlHeight m (rootPtr t) = t.height := by
  cases t with
  | nil => rfl
  | node p l r =>
    show (m p).height = _
    rw [h.1]
    rfl

theorem Repr.cnt_eq (h : Repr m par t) : avlCnt m (rootPtr t) = t.numNodes % 2 ^ 32 := by
  cases t with
  | nil => rfl
  | node p l r =>
    show (m p).cnt = _
    rw [h.1]
    rfl

theorem rootPtr_mem (h : rootPtr t = some p) : p ∈ inorder t := by
  cases t with
  | nil => simp [rootPtr] at h
  | node a l r =>
    simp only [rootPtr, Option.some.injEq] at h
    simp [h]

/-- A subtree moves to another parent when the parent field of its root is
written and nothing else of it is. -/
theorem Repr.reparent {par' : Option Ptr} (h : Repr m par t) (hnd : (inorder t).Nodup)
    (hroot : ∀ x, rootPtr t = some x → m' x = { m x with parent := par' })
    (hm : ∀ x ∈ inorder t, rootPtr t ≠ some x → m' x = m x) : Repr m' par' t := by
  cases t with
  | nil => trivial
  | node p l r =>
    obtain ⟨hp, hl, hr⟩ := h
    simp only [inorder_node, List.nodup_append, List.nodup_cons, List.mem_cons] at hnd
    refine ⟨?_, hl.congr ?_, hr.congr ?_⟩
    · rw [hroot p rfl, hp]
      rfl
    · intro x hx
      apply hm x (by simp [hx])
      intro he
      have hxp : p = x := Option.some.inj he
      exact hnd.2.2 x hx p (.inl rfl) hxp.symm
    · intro x hx
      apply hm x (by simp [hx])
      intro he
      have hxp : p = x := Option.some.inj he
      exact hnd.2.1.1 (hxp ▸ hx)

/-! ## Field updates -/

theorem setParent_ne (h : q ≠ p) (v : Option Ptr) : m.setParent p v q = m q :=
  Function.update_of_ne h _ _

theorem setLeft_ne (h : q ≠ p) (v : Option Ptr) : m.setLeft p v q = m q :=
  Function.update_of_ne h _ _

theorem setRight_ne (h : q ≠ p) (v : Option Ptr) : m.setRight p v q = m q :=
  Function.update_of_ne h _ _

@[simp] theorem setParent_self (v : Option Ptr) :
    m.setParent p v p = { m p with parent := v } := Function.update_self _ _ _

@[simp] theorem setLeft_self (v : Option Ptr) :
    m.setLeft p v p = { m p with left := v } := Function.update_self _ _ _

@[simp] theorem setRight_self (v : Option Ptr) :
    m.setRight p v p = { m p with right := v } := Function.update_self _ _ _

theorem setParentOf_ne {o : Option Ptr} (h : o ≠ some q) (v : Option Ptr) :
    m.setParentOf o v q = m q := by
  cases o with
  | none => rfl
  | some p =>
    apply setParent_ne
    intro he
    exact h (by rw [he])

theorem avlUpdate_ne (h : q ≠ p) : avlUpdate m p q = m q := Function.update_of_ne h _ _

/-- `avl_update` at a node whose links are right makes its counters exact. -/
theorem Linked.update (h : Linked m par p l r) (hl : p ∉ inorder l) (hr : p ∉ inorder r) :
    Repr (avlUpdate m p) par (node p l r) := by
  have hne : ∀ {t : BinaryTree Ptr}, p ∉ inorder t → ∀ x ∈ inorder t, avlUpdate m p x = m x := by
    intro t ht x hx
    apply avlUpdate_ne
    intro he
    exact ht (he ▸ hx)
  refine ⟨?_, h.reprL.congr (hne hl), h.reprR.congr (hne hr)⟩
  have hcell : avlUpdate m p p =
      { parent := (m p).parent, left := (m p).left, right := (m p).right,
        height := 1 + max (avlHeight m (m p).left) (avlHeight m (m p).right),
        cnt := (1 + avlCnt m (m p).left + avlCnt m (m p).right) % 2 ^ 32 } :=
    Function.update_self _ _ _
  rw [hcell, h.left, h.right, h.reprL.height_eq, h.reprR.height_eq, h.reprL.cnt_eq,
    h.reprR.cnt_eq, h.parent, avlCell]
  simp only [height, numNodes, AVLNode.mk.injEq, true_and]
  omega

/-! ## Rotations -/

/-- `rot_left` at a node with a right child, whatever its own counters say. -/
theorem rotLeft_spec {rl rr : BinaryTree Ptr} (h : Linked m par p l (node q rl rr))
    (hnd : (inorder (node p l (node q rl rr))).Nodup) :
    ∃ m', rotLeft m p = some (m', q) ∧ Repr m' par (rotL (node p l (node q rl rr))) ∧
      ∀ x ∉ inorder (node p l (node q rl rr)), m' x = m x := by
  obtain ⟨hq, hrl, hrr⟩ := h.reprR
  simp only [inorder_node, List.nodup_append, List.nodup_cons, List.mem_append,
    List.mem_cons] at hnd
  have hpq : p ≠ q := by grind
  have hroot : ∀ x, rootPtr rl = some x → x ≠ p ∧ x ≠ q := by
    intro x hx
    have := rootPtr_mem hx
    grind
  -- the memory after the five writes of links
  let m₁ := m.setRight p (rootPtr rl)
  let m₂ := m₁.setParentOf (rootPtr rl) (some p)
  let m₃ := m₂.setParent q par
  let m₄ := m₃.setLeft q (some p)
  let m₅ := m₄.setParent p (some q)
  have hout : ∀ x, x ≠ p → x ≠ q → rootPtr rl ≠ some x → m₅ x = m x := by
    intro x hxp hxq hxr
    simp only [m₅, m₄, m₃, m₂, m₁, setParent_ne hxp, setLeft_ne hxq, setParent_ne hxq,
      setParentOf_ne hxr, setRight_ne hxp]
  have hinner : ∀ x, rootPtr rl = some x → m₅ x = { m x with parent := some p } := by
    intro x hx
    obtain ⟨hxp, hxq⟩ := hroot x hx
    simp only [m₅, m₄, m₃, m₂, m₁, setParent_ne hxp, setLeft_ne hxq, setParent_ne hxq, hx,
      AvlMem.setParentOf, setParent_self, setRight_ne hxp]
  have hcp : m₅ p = { m p with right := rootPtr rl, parent := some q } := by
    have hrp : rootPtr rl ≠ some p := fun he => (hroot p he).1 rfl
    simp only [m₅, m₄, m₃, m₂, m₁, setParent_self, setLeft_ne hpq, setParent_ne hpq,
      setParentOf_ne hrp, setRight_self]
  have hcq : m₅ q = { m q with parent := par, left := some p } := by
    have hrq : rootPtr rl ≠ some q := fun he => (hroot q he).2 rfl
    simp only [m₅, m₄, m₃, m₂, m₁, setParent_ne hpq.symm, setLeft_self, setParent_self,
      setParentOf_ne hrq, setRight_ne hpq.symm]
  have hrun : rotLeft m p = some (avlUpdate (avlUpdate m₅ p) q, q) := by
    have hr : (m p).right = some q := h.right
    simp only [rotLeft, hr, h.parent, hq, avlCell, m₅, m₄, m₃, m₂, m₁]
  have hlp : Linked m₅ (some q) p l rl := by
    refine ⟨by rw [hcp], by rw [hcp]; exact h.left, by rw [hcp], ?_, ?_⟩
    · apply h.reprL.congr
      intro x hx
      apply hout x <;> grind [rootPtr_mem]
    · apply hrl.reparent (by grind) hinner
      intro x hx hxr
      apply hout x _ _ hxr <;> grind
  have hup := hlp.update (by grind) (by grind)
  have hlq : Linked (avlUpdate m₅ p) par q (node p l rl) rr := by
    have hqp : avlUpdate m₅ p q = m₅ q := avlUpdate_ne hpq.symm
    refine ⟨by rw [hqp, hcq], by rw [hqp, hcq]; rfl, by rw [hqp, hcq, hq]; rfl, hup, ?_⟩
    apply hrr.congr
    intro x hx
    rw [avlUpdate_ne (by grind)]
    apply hout x <;> grind [rootPtr_mem]
  refine ⟨_, hrun, hlq.update (by grind [inorder_node]) (by grind), ?_⟩
  intro x hx
  simp only [inorder_node, List.mem_append, List.mem_cons, not_or] at hx
  rw [avlUpdate_ne (by grind), avlUpdate_ne (by grind)]
  apply hout x <;> grind [rootPtr_mem]

/-- `rot_right` at a node with a left child. -/
theorem rotRight_spec {ll lr : BinaryTree Ptr} (h : Linked m par p (node q ll lr) r)
    (hnd : (inorder (node p (node q ll lr) r)).Nodup) :
    ∃ m', rotRight m p = some (m', q) ∧ Repr m' par (rotR (node p (node q ll lr) r)) ∧
      ∀ x ∉ inorder (node p (node q ll lr) r), m' x = m x := by
  obtain ⟨hq, hll, hlr⟩ := h.reprL
  simp only [inorder_node, List.nodup_append, List.nodup_cons, List.mem_append,
    List.mem_cons] at hnd
  have hpq : p ≠ q := by grind
  have hroot : ∀ x, rootPtr lr = some x → x ≠ p ∧ x ≠ q := by
    intro x hx
    have := rootPtr_mem hx
    grind
  let m₁ := m.setLeft p (rootPtr lr)
  let m₂ := m₁.setParentOf (rootPtr lr) (some p)
  let m₃ := m₂.setParent q par
  let m₄ := m₃.setRight q (some p)
  let m₅ := m₄.setParent p (some q)
  have hout : ∀ x, x ≠ p → x ≠ q → rootPtr lr ≠ some x → m₅ x = m x := by
    intro x hxp hxq hxr
    simp only [m₅, m₄, m₃, m₂, m₁, setParent_ne hxp, setRight_ne hxq, setParent_ne hxq,
      setParentOf_ne hxr, setLeft_ne hxp]
  have hinner : ∀ x, rootPtr lr = some x → m₅ x = { m x with parent := some p } := by
    intro x hx
    obtain ⟨hxp, hxq⟩ := hroot x hx
    simp only [m₅, m₄, m₃, m₂, m₁, setParent_ne hxp, setRight_ne hxq, setParent_ne hxq, hx,
      AvlMem.setParentOf, setParent_self, setLeft_ne hxp]
  have hcp : m₅ p = { m p with left := rootPtr lr, parent := some q } := by
    have hrp : rootPtr lr ≠ some p := fun he => (hroot p he).1 rfl
    simp only [m₅, m₄, m₃, m₂, m₁, setParent_self, setRight_ne hpq, setParent_ne hpq,
      setParentOf_ne hrp, setLeft_self]
  have hcq : m₅ q = { m q with parent := par, right := some p } := by
    have hrq : rootPtr lr ≠ some q := fun he => (hroot q he).2 rfl
    simp only [m₅, m₄, m₃, m₂, m₁, setParent_ne hpq.symm, setRight_self, setParent_self,
      setParentOf_ne hrq, setLeft_ne hpq.symm]
  have hrun : rotRight m p = some (avlUpdate (avlUpdate m₅ p) q, q) := by
    have hl : (m p).left = some q := h.left
    simp only [rotRight, hl, h.parent, hq, avlCell, m₅, m₄, m₃, m₂, m₁]
  have hlp : Linked m₅ (some q) p lr r := by
    refine ⟨by rw [hcp], by rw [hcp], by rw [hcp]; exact h.right, ?_, ?_⟩
    · apply hlr.reparent (by grind) hinner
      intro x hx hxr
      apply hout x _ _ hxr <;> grind
    · apply h.reprR.congr
      intro x hx
      apply hout x <;> grind [rootPtr_mem]
  have hup := hlp.update (by grind) (by grind)
  have hlq : Linked (avlUpdate m₅ p) par q ll (node p lr r) := by
    have hqp : avlUpdate m₅ p q = m₅ q := avlUpdate_ne hpq.symm
    refine ⟨by rw [hqp, hcq], by rw [hqp, hcq, hq]; rfl, by rw [hqp, hcq]; rfl, ?_, hup⟩
    apply hll.congr
    intro x hx
    rw [avlUpdate_ne (by grind)]
    apply hout x <;> grind [rootPtr_mem]
  refine ⟨_, hrun, hlq.update (by grind) (by grind [inorder_node]), ?_⟩
  intro x hx
  simp only [inorder_node, List.mem_append, List.mem_cons, not_or] at hx
  rw [avlUpdate_ne (by grind), avlUpdate_ne (by grind)]
  apply hout x <;> grind [rootPtr_mem]

/-! ## Repairing one node -/

/-- What a repair of the subtree at `p` leaves: the new subtree `t` under the
old parent, its root, and everything outside the old nodes untouched. -/
structure Repaired (m : AvlMem) (par : Option Ptr) (old t : BinaryTree Ptr) (m' : AvlMem)
    (sub : Ptr) : Prop where
  root : rootPtr t = some sub
  repr : Repr m' par t
  frame : ∀ x ∉ inorder old, m' x = m x

theorem avlFixLeft_spec (h : Repr m par (node p l r)) (hnd : (inorder (node p l r)).Nodup)
    (hh : l.height = r.height + 2) :
    ∃ m' sub, avlFixLeft m p = some (m', sub) ∧
      Repaired m par (node p l r) (fixLeft p l r) m' sub := by
  cases l with
  | nil => simp at hh
  | node q ll lr =>
    have hp := h.linked
    obtain ⟨hq, hll, hlr⟩ := hp.reprL
    have hleft : (m p).left = some q := hp.left
    have hhl : avlHeight m (m q).left = ll.height := by rw [hq]; exact hll.height_eq
    have hhr : avlHeight m (m q).right = lr.height := by rw [hq]; exact hlr.height_eq
    by_cases hc : ll.height < lr.height
    · cases lr with
      | nil => simp at hc
      | node c x y =>
        have hndq : (inorder (node q ll (node c x y))).Nodup := by
          simp only [inorder_node] at hnd ⊢
          exact (List.nodup_append.mp hnd).1
        obtain ⟨m₁, hrot, hrepr, hframe⟩ := rotLeft_spec hp.reprL.linked hndq
        have hpout : p ∉ inorder (node q ll (node c x y)) := by
          simp only [inorder_node, List.nodup_append, List.nodup_cons] at hnd ⊢
          grind
        -- the rotated child is stored back, then the node itself is rotated
        have hl₂ : Linked (m₁.setLeft p (some c)) par p (rotL (node q ll (node c x y))) r := by
          have hmp : m₁ p = m p := hframe p hpout
          refine ⟨by rw [setLeft_self, hmp]; exact hp.parent, by rw [setLeft_self]; rfl,
            by rw [setLeft_self, hmp]; exact hp.right, ?_, ?_⟩
          · apply hrepr.congr
            intro z hz
            rw [inorder_rotL] at hz
            exact setLeft_ne (by rintro rfl; exact hpout hz) _
          · apply hp.reprR.congr
            intro z hz
            simp only [inorder_node, List.nodup_append, List.nodup_cons, List.mem_append,
              List.mem_cons] at hnd
            rw [setLeft_ne (by grind)]
            exact hframe z (by simp only [inorder_node, List.mem_append, List.mem_cons]; grind)
        have hnd₂ : (inorder (node p (rotL (node q ll (node c x y))) r)).Nodup := by
          rw [inorder_node, inorder_rotL]
          exact hnd
        obtain ⟨m₂, hrot₂, hrepr₂, hframe₂⟩ := rotRight_spec hl₂ hnd₂
        have hfix : fixLeft p (node q ll (node c x y)) r =
            rotR (node p (rotL (node q ll (node c x y))) r) := by
          simp only [fixLeft, if_pos hc]
        refine ⟨m₂, c, ?_, ?_⟩
        · simp only [avlFixLeft, hleft, hhl, hhr, if_pos hc, hrot, hrot₂]
        · rw [hfix]
          refine ⟨rfl, hrepr₂, ?_⟩
          intro z hz
          have hz' : z ∉ inorder (node p (rotL (node q ll (node c x y))) r) := by
            rw [inorder_node, inorder_rotL]
            exact hz
          rw [hframe₂ z hz']
          simp only [inorder_node, List.mem_append, List.mem_cons, not_or] at hz
          rw [setLeft_ne (by grind)]
          exact hframe z (by simp only [inorder_node, List.mem_append, List.mem_cons]; grind)
    · obtain ⟨m₁, hrot, hrepr, hframe⟩ := rotRight_spec hp hnd
      have hfix : fixLeft p (node q ll lr) r = rotR (node p (node q ll lr) r) := by
        simp only [fixLeft, if_neg hc]
      refine ⟨m₁, q, ?_, ?_⟩
      · simp only [avlFixLeft, hleft, hhl, hhr, if_neg hc, hrot]
      · rw [hfix]
        exact ⟨rfl, hrepr, hframe⟩

theorem avlFixRight_spec (h : Repr m par (node p l r)) (hnd : (inorder (node p l r)).Nodup)
    (hh : l.height + 2 = r.height) :
    ∃ m' sub, avlFixRight m p = some (m', sub) ∧
      Repaired m par (node p l r) (fixRight p l r) m' sub := by
  cases r with
  | nil => simp at hh
  | node q rl rr =>
    have hp := h.linked
    obtain ⟨hq, hrl, hrr⟩ := hp.reprR
    have hright : (m p).right = some q := hp.right
    have hhl : avlHeight m (m q).left = rl.height := by rw [hq]; exact hrl.height_eq
    have hhr : avlHeight m (m q).right = rr.height := by rw [hq]; exact hrr.height_eq
    by_cases hc : rr.height < rl.height
    · cases rl with
      | nil => simp at hc
      | node c x y =>
        have hndq : (inorder (node q (node c x y) rr)).Nodup := by
          simp only [inorder_node, List.nodup_append, List.nodup_cons] at hnd ⊢
          grind
        obtain ⟨m₁, hrot, hrepr, hframe⟩ := rotRight_spec hp.reprR.linked hndq
        have hpout : p ∉ inorder (node q (node c x y) rr) := by
          simp only [inorder_node, List.nodup_append, List.nodup_cons] at hnd ⊢
          grind
        have hl₂ : Linked (m₁.setRight p (some c)) par p l (rotR (node q (node c x y) rr)) := by
          have hmp : m₁ p = m p := hframe p hpout
          refine ⟨by rw [setRight_self, hmp]; exact hp.parent,
            by rw [setRight_self, hmp]; exact hp.left, by rw [setRight_self]; rfl, ?_, ?_⟩
          · apply hp.reprL.congr
            intro z hz
            simp only [inorder_node, List.nodup_append, List.nodup_cons, List.mem_append,
              List.mem_cons] at hnd
            rw [setRight_ne (by grind)]
            exact hframe z (by simp only [inorder_node, List.mem_append, List.mem_cons]; grind)
          · apply hrepr.congr
            intro z hz
            rw [inorder_rotR] at hz
            exact setRight_ne (by rintro rfl; exact hpout hz) _
        have hnd₂ : (inorder (node p l (rotR (node q (node c x y) rr)))).Nodup := by
          rw [inorder_node, inorder_rotR]
          exact hnd
        obtain ⟨m₂, hrot₂, hrepr₂, hframe₂⟩ := rotLeft_spec hl₂ hnd₂
        have hfix : fixRight p l (node q (node c x y) rr) =
            rotL (node p l (rotR (node q (node c x y) rr))) := by
          simp only [fixRight, if_pos hc]
        refine ⟨m₂, c, ?_, ?_⟩
        · simp only [avlFixRight, hright, hhl, hhr, if_pos hc, hrot, hrot₂]
        · rw [hfix]
          refine ⟨rfl, hrepr₂, ?_⟩
          intro z hz
          have hz' : z ∉ inorder (node p l (rotR (node q (node c x y) rr))) := by
            rw [inorder_node, inorder_rotR]
            exact hz
          rw [hframe₂ z hz']
          simp only [inorder_node, List.mem_append, List.mem_cons, not_or] at hz
          rw [setRight_ne (by grind)]
          exact hframe z (by simp only [inorder_node, List.mem_append, List.mem_cons]; grind)
    · obtain ⟨m₁, hrot, hrepr, hframe⟩ := rotLeft_spec hp hnd
      have hfix : fixRight p l (node q rl rr) = rotL (node p l (node q rl rr)) := by
        simp only [fixRight, if_neg hc]
      refine ⟨m₁, q, ?_, ?_⟩
      · simp only [avlFixRight, hright, hhl, hhr, if_neg hc, hrot]
      · rw [hfix]
        exact ⟨rfl, hrepr, hframe⟩

/-- The body of the loop of `avl_fix`: the subtree is rebalanced; the memory
is that of the repair, with the new root stored where the node hung (which
changes nothing when it already hangs there). -/
theorem avlFixNode_spec (h : Linked m par p l r) (hnd : (inorder (node p l r)).Nodup) :
    ∃ m₁ m' sub, avlFixNode m p = some (m', sub) ∧
      Repaired m par (node p l r) (rebalance p l r) m₁ sub ∧
      (m' = m₁.store (avlFrom m par p) (some sub) ∨ (m' = m₁ ∧ sub = p)) := by
  have hnd' := hnd
  simp only [inorder_node, List.nodup_append, List.nodup_cons] at hnd'
  have hup : Repr (avlUpdate m p) par (node p l r) := h.update (by grind) (by grind)
  have hframe : ∀ x ∉ inorder (node p l r), avlUpdate m p x = m x := by
    intro x hx
    apply avlUpdate_ne
    rintro rfl
    exact hx (by simp)
  have hl : avlHeight (avlUpdate m p) ((avlUpdate m p) p).left = l.height := by
    rw [hup.linked.left]
    exact hup.linked.reprL.height_eq
  have hr : avlHeight (avlUpdate m p) ((avlUpdate m p) p).right = r.height := by
    rw [hup.linked.right]
    exact hup.linked.reprR.height_eq
  by_cases h1 : l.height = r.height + 2
  · obtain ⟨m₁, sub, hrun, hrep⟩ := avlFixLeft_spec hup hnd h1
    refine ⟨m₁, _, sub, ?_, ⟨?_, ?_, ?_⟩, .inl rfl⟩
    · simp only [avlFixNode, hl, hr, if_pos h1, hrun, Option.map_some, h.parent]
    · rw [rebalance, if_pos h1]; exact hrep.root
    · rw [rebalance, if_pos h1]; exact hrep.repr
    · intro x hx
      rw [hrep.frame x hx, hframe x hx]
  · by_cases h2 : l.height + 2 = r.height
    · obtain ⟨m₁, sub, hrun, hrep⟩ := avlFixRight_spec hup hnd h2
      refine ⟨m₁, _, sub, ?_, ⟨?_, ?_, ?_⟩, .inl rfl⟩
      · simp only [avlFixNode, hl, hr, if_neg h1, if_pos h2, hrun, Option.map_some, h.parent]
      · rw [rebalance, if_neg h1, if_pos h2]; exact hrep.root
      · rw [rebalance, if_neg h1, if_pos h2]; exact hrep.repr
      · intro x hx
        rw [hrep.frame x hx, hframe x hx]
    · refine ⟨avlUpdate m p, _, p, ?_, ⟨?_, ?_, hframe⟩, .inr ⟨rfl, rfl⟩⟩
      · simp only [avlFixNode, hl, hr, if_neg h1, if_neg h2]
      · rw [rebalance, if_neg h1, if_neg h2]; rfl
      · rw [rebalance, if_neg h1, if_neg h2]; exact hup

end ByoRedis
