import ByoRedis.Container.AvlRepr

/-!
# Container — insertion and deletion in the AVL tree

The walk of `avl_fix` from a node to the root, along the context of that
node. `CtxCells` says that the context is laid out with exact counters;
`CtxLinks` forgets the counters, which is what holds while the walk is on its
way. On top of the walk: `avl_del_easy` and `avl_remove`.
-/

namespace ByoRedis

open BinaryTree AvlTree

variable {m m' : AvlMem} {par : Option Ptr} {p q v : Ptr} {l r t t' : BinaryTree Ptr}
  {c fs : List (Frame Ptr)} {f : Frame Ptr} {k : Option Ptr}

/-! ## Contexts in memory -/

/-- The parent of the subtree in the hole. -/
def ctxPtr : List (Frame Ptr) → Option Ptr
  | [] => none
  | f :: _ => some f.val

/-- The nodes of the context. -/
def ctxNodes (c : List (Frame Ptr)) : List Ptr := before c ++ after c

/-- The context is laid out, with exact counters, around the subtree `t`. -/
def CtxCells (m : AvlMem) : BinaryTree Ptr → List (Frame Ptr) → Prop
  | _, [] => True
  | t, .left q r :: fs =>
    m q = avlCell (ctxPtr fs) q t r ∧ Repr m (some q) r ∧ CtxCells m (node q t r) fs
  | t, .right q l :: fs =>
    m q = avlCell (ctxPtr fs) q l t ∧ Repr m (some q) l ∧ CtxCells m (node q l t) fs

/-- The links of the context agree, with the pointer `k` in the hole; the
counters of its nodes may be stale. -/
def CtxLinks (m : AvlMem) : Option Ptr → List (Frame Ptr) → Prop
  | _, [] => True
  | k, .left q r :: fs =>
    (m q).parent = ctxPtr fs ∧ (m q).left = k ∧ (m q).right = rootPtr r ∧
      Repr m (some q) r ∧ CtxLinks m (some q) fs
  | k, .right q l :: fs =>
    (m q).parent = ctxPtr fs ∧ (m q).left = rootPtr l ∧ (m q).right = k ∧
      Repr m (some q) l ∧ CtxLinks m (some q) fs

/-- A tree is laid out if and only if the subtree and its context are. -/
theorem repr_plug : Repr m none (plug c t) ↔ Repr m (ctxPtr c) t ∧ CtxCells m t c := by
  induction c generalizing t with
  | nil => exact ⟨fun h => ⟨h, trivial⟩, fun h => h.1⟩
  | cons f fs ih =>
    rw [plug, ih]
    cases f with
    | left q r =>
      constructor
      · rintro ⟨⟨h1, h2, h3⟩, h4⟩
        exact ⟨h2, h1, h3, h4⟩
      · rintro ⟨h2, h1, h3, h4⟩
        exact ⟨⟨h1, h2, h3⟩, h4⟩
    | right q l =>
      constructor
      · rintro ⟨⟨h1, h2, h3⟩, h4⟩
        exact ⟨h3, h1, h2, h4⟩
      · rintro ⟨h3, h1, h2, h4⟩
        exact ⟨⟨h1, h2, h3⟩, h4⟩

theorem CtxCells.links (h : CtxCells m t c) : CtxLinks m (rootPtr t) c := by
  induction c generalizing t with
  | nil => trivial
  | cons f fs ih =>
    cases f with
    | left q r =>
      obtain ⟨h1, h2, h3⟩ := h
      exact ⟨by rw [h1]; rfl, by rw [h1]; rfl, by rw [h1]; rfl, h2, ih h3⟩
    | right q l =>
      obtain ⟨h1, h2, h3⟩ := h
      exact ⟨by rw [h1]; rfl, by rw [h1]; rfl, by rw [h1]; rfl, h2, ih h3⟩

theorem mem_ctxNodes_left {r : BinaryTree Ptr} {x : Ptr} :
    x ∈ ctxNodes (.left q r :: fs) ↔ x = q ∨ x ∈ inorder r ∨ x ∈ ctxNodes fs := by
  simp only [ctxNodes, before, after, List.mem_append, List.mem_cons]
  tauto

theorem mem_ctxNodes_right {l : BinaryTree Ptr} {x : Ptr} :
    x ∈ ctxNodes (.right q l :: fs) ↔ x = q ∨ x ∈ inorder l ∨ x ∈ ctxNodes fs := by
  simp only [ctxNodes, before, after, List.mem_append, List.mem_cons, List.not_mem_nil, or_false]
  tauto

theorem mem_inorder_plug {x : Ptr} : x ∈ inorder (plug c t) ↔ x ∈ inorder t ∨ x ∈ ctxNodes c := by
  simp only [inorder_plug, ctxNodes, List.mem_append]
  tauto

/-- Only the nodes of the context matter. -/
theorem CtxLinks.congr (h : CtxLinks m k c) (hm : ∀ x ∈ ctxNodes c, m' x = m x) :
    CtxLinks m' k c := by
  induction c generalizing k with
  | nil => trivial
  | cons f fs ih =>
    cases f with
    | left q r =>
      simp only [mem_ctxNodes_left] at hm
      obtain ⟨h1, h2, h3, h4, h5⟩ := h
      have hq := hm q (.inl rfl)
      exact ⟨by rw [hq, h1], by rw [hq, h2], by rw [hq, h3],
        h4.congr (fun x hx => hm x (.inr (.inl hx))),
        ih h5 (fun x hx => hm x (.inr (.inr hx)))⟩
    | right q l =>
      simp only [mem_ctxNodes_right] at hm
      obtain ⟨h1, h2, h3, h4, h5⟩ := h
      have hq := hm q (.inl rfl)
      exact ⟨by rw [hq, h1], by rw [hq, h2], by rw [hq, h3],
        h4.congr (fun x hx => hm x (.inr (.inl hx))),
        ih h5 (fun x hx => hm x (.inr (.inr hx)))⟩

/-- The counters of a context see only the root, the height and the number
of nodes of the subtree in its hole. -/
theorem CtxCells.congr (h : CtxCells m t c) (hm : ∀ x ∈ ctxNodes c, m' x = m x)
    (hroot : rootPtr t' = rootPtr t) (hh : t'.height = t.height)
    (hn : t'.numNodes = t.numNodes) : CtxCells m' t' c := by
  induction c generalizing t t' with
  | nil => trivial
  | cons f fs ih =>
    cases f with
    | left q r =>
      simp only [mem_ctxNodes_left] at hm
      obtain ⟨h1, h2, h3⟩ := h
      refine ⟨?_, h2.congr (fun x hx => hm x (.inr (.inl hx))), ?_⟩
      · rw [hm q (.inl rfl), h1]
        simp [avlCell, hroot, hh, hn]
      · exact ih h3 (fun x hx => hm x (.inr (.inr hx))) rfl (by simp [hh]) (by simp [hn])
    | right q l =>
      simp only [mem_ctxNodes_right] at hm
      obtain ⟨h1, h2, h3⟩ := h
      refine ⟨?_, h2.congr (fun x hx => hm x (.inr (.inl hx))), ?_⟩
      · rw [hm q (.inl rfl), h1]
        simp [avlCell, hroot, hh, hn]
      · exact ih h3 (fun x hx => hm x (.inr (.inr hx))) rfl (by simp [hh]) (by simp [hn])

/-- The nodes of a tree without repetitions: those of the subtree and of the
context are distinct, and apart. -/
theorem nodup_plug (h : (inorder (plug c t)).Nodup) :
    (inorder t).Nodup ∧ (ctxNodes c).Nodup ∧ ∀ x ∈ inorder t, x ∉ ctxNodes c := by
  rw [inorder_plug] at h
  simp only [ctxNodes, List.nodup_append, List.mem_append] at h ⊢
  grind

theorem ctxPtr_mem {x : Ptr} (h : ctxPtr c = some x) : x ∈ ctxNodes c := by
  cases c with
  | nil => simp [ctxPtr] at h
  | cons f fs =>
    simp only [ctxPtr, Option.some.injEq] at h
    subst h
    cases f with
    | left q r => exact mem_ctxNodes_left.mpr (.inl rfl)
    | right q l => exact mem_ctxNodes_right.mpr (.inl rfl)

/-! ## The hole of a context -/

/-- The link in which the subtree of the hole hangs. -/
def ctxFrom : List (Frame Ptr) → AvlFrom
  | [] => .root
  | .left q _ :: _ => .left q
  | .right q _ :: _ => .right q

/-- `from` refers to the hole. -/
theorem CtxLinks.avlFrom_eq (h : CtxLinks m (some p) c) (hp : p ∉ ctxNodes c) :
    avlFrom m (ctxPtr c) p = ctxFrom c := by
  cases c with
  | nil => rfl
  | cons f fs =>
    cases f with
    | left q r =>
      obtain ⟨-, h2, -⟩ := h
      simp [avlFrom, ctxPtr, ctxFrom, Frame.val, h2]
    | right q l =>
      obtain ⟨-, h2, -⟩ := h
      have hne : rootPtr l ≠ some p := by
        intro he
        exact hp (mem_ctxNodes_right.mpr (.inr (.inl (rootPtr_mem he))))
      simp [avlFrom, ctxPtr, ctxFrom, Frame.val, h2, hne]

/-- A store into the hole changes a field of the innermost frame only. -/
theorem store_hole_ne {x : Ptr} (hx : ctxPtr c ≠ some x) (k : Option Ptr) :
    m.store (ctxFrom c) k x = m x := by
  cases c with
  | nil => rfl
  | cons f fs =>
    have hxf : x ≠ f.val := fun he => hx (congrArg some he.symm)
    cases f with
    | left q r => exact setLeft_ne hxf k
    | right q l => exact setRight_ne hxf k

/-- The node of the innermost frame is in no other place of the context. -/
theorem frame_apart (hnd : (ctxNodes (f :: fs)).Nodup) :
    f.val ∉ ctxNodes fs ∧ f.val ∉ inorder f.sibling := by
  cases f with
  | left q r =>
    simp only [ctxNodes, before, after, List.nodup_append, List.nodup_cons, List.mem_append,
      List.mem_cons] at hnd
    simp only [ctxNodes, Frame.val, Frame.sibling, List.mem_append]
    grind
  | right q l =>
    simp only [ctxNodes, before, after, List.nodup_append, List.nodup_cons, List.mem_append,
      List.mem_cons, List.not_mem_nil, or_false] at hnd
    simp only [ctxNodes, Frame.val, Frame.sibling, List.mem_append]
    grind

/-- What a store into the hole leaves as it was. -/
theorem store_hole_rest (hnd : (ctxNodes (f :: fs)).Nodup) (k : Option Ptr) :
    (∀ x ∈ ctxNodes fs, m.store (ctxFrom (f :: fs)) k x = m x) ∧
      ∀ x ∈ inorder f.sibling, m.store (ctxFrom (f :: fs)) k x = m x := by
  obtain ⟨hfs, hsib⟩ := frame_apart hnd
  have hne : ∀ x, x ≠ f.val → m.store (ctxFrom (f :: fs)) k x = m x := by
    intro x hx
    apply store_hole_ne
    intro he
    exact hx (Option.some.inj he).symm
  exact ⟨fun x hx => hne x (fun he => hfs (he ▸ hx)), fun x hx => hne x (fun he => hsib (he ▸ hx))⟩

/-- A pointer is stored into the hole of a context. -/
theorem CtxLinks.store_hole (h : CtxLinks m k c) (hnd : (ctxNodes c).Nodup) (k' : Option Ptr) :
    CtxLinks (m.store (ctxFrom c) k') k' c := by
  cases c with
  | nil => trivial
  | cons f fs =>
    obtain ⟨hrest, hsib⟩ := store_hole_rest (m := m) hnd k'
    cases f with
    | left q r =>
      obtain ⟨h1, h2, h3, h4, h5⟩ := h
      refine ⟨?_, ?_, ?_, h4.congr hsib, h5.congr hrest⟩ <;> rw [ctxFrom, AvlMem.store, setLeft_self]
      · exact h1
      · exact h3
    | right q l =>
      obtain ⟨h1, h2, h3, h4, h5⟩ := h
      refine ⟨?_, ?_, ?_, h4.congr hsib, h5.congr hrest⟩ <;> rw [ctxFrom, AvlMem.store, setRight_self]
      · exact h1
      · exact h2

/-- The root of a subtree of the same size is stored into the hole of a
context with exact counters. -/
theorem CtxCells.store_hole (h : CtxCells m t c) (hnd : (ctxNodes c).Nodup)
    (hh : t'.height = t.height) (hn : t'.numNodes = t.numNodes) :
    CtxCells (m.store (ctxFrom c) (rootPtr t')) t' c := by
  cases c with
  | nil => trivial
  | cons f fs =>
    obtain ⟨hrest, hsib⟩ := store_hole_rest (m := m) hnd (rootPtr t')
    cases f with
    | left q r =>
      obtain ⟨h1, h2, h3⟩ := h
      refine ⟨?_, h2.congr hsib, h3.congr hrest rfl (by simp [hh]) (by simp [hn])⟩
      rw [ctxFrom, AvlMem.store, setLeft_self, h1]
      simp [avlCell, hh, hn]
    | right q l =>
      obtain ⟨h1, h2, h3⟩ := h
      refine ⟨?_, h2.congr hsib, h3.congr hrest rfl (by simp [hh]) (by simp [hn])⟩
      rw [ctxFrom, AvlMem.store, setRight_self, h1]
      simp [avlCell, hh, hn]

/-- The innermost frame around a laid-out subtree is linked to it. -/
theorem CtxLinks.linked (h : CtxLinks m (rootPtr t) (f :: fs)) (ht : Repr m (some f.val) t) :
    Linked m (ctxPtr fs) f.val (f.lft t) (f.rgt t) ∧ CtxLinks m (some f.val) fs := by
  cases f with
  | left q r =>
    obtain ⟨h1, h2, h3, h4, h5⟩ := h
    exact ⟨⟨h1, h2, h3, ht, h4⟩, h5⟩
  | right q l =>
    obtain ⟨h1, h2, h3, h4, h5⟩ := h
    exact ⟨⟨h1, h2, h3, h4, ht⟩, h5⟩

/-! ## The walk to the root -/

/-- One round of `avl_fix`: the subtree at `p` is rebalanced and hangs in
the context again. -/
theorem avlFixNode_ctx (h : Linked m (ctxPtr c) p l r) (hc : CtxLinks m (some p) c)
    (hnd : (inorder (plug c (node p l r))).Nodup) :
    ∃ m' sub, avlFixNode m p = some (m', sub) ∧ rootPtr (rebalance p l r) = some sub ∧
      Repr m' (ctxPtr c) (rebalance p l r) ∧ CtxLinks m' (some sub) c ∧
      ∀ x ∉ inorder (plug c (node p l r)), m' x = m x := by
  obtain ⟨hndt, hndc, hapart⟩ := nodup_plug hnd
  obtain ⟨m₁, m', sub, hrun, hrep, hm'⟩ := avlFixNode_spec h hndt
  have hpc : p ∉ ctxNodes c := hapart p (by simp)
  have hsame : ∀ x ∈ ctxNodes c, m₁ x = m x := by
    intro x hx
    apply hrep.frame
    intro ht
    exact hapart x ht hx
  have hc₁ : CtxLinks m₁ (some p) c := hc.congr hsame
  rcases hm' with hm' | ⟨rfl, rfl⟩
  · rw [hc.avlFrom_eq hpc] at hm'
    refine ⟨m', sub, hrun, hrep.root, ?_, ?_, ?_⟩
    · apply hrep.repr.congr
      intro x hx
      rw [inorder_rebalance] at hx
      rw [hm']
      apply store_hole_ne
      intro he
      exact hapart x hx (ctxPtr_mem he)
    · rw [hm']
      exact hc₁.store_hole hndc (some sub)
    · intro x hx
      rw [mem_inorder_plug, not_or] at hx
      rw [hm', store_hole_ne (fun he => hx.2 (ctxPtr_mem he)), hrep.frame x hx.1]
  · refine ⟨_, _, hrun, hrep.root, hrep.repr, hc₁, ?_⟩
    intro x hx
    rw [mem_inorder_plug, not_or] at hx
    exact hrep.frame x hx.1

/-- **`avl_fix`** from a node whose links are right: the whole path is
repaired. -/
theorem avlFix_spec (h : Linked m (ctxPtr c) p l r) (hc : CtxLinks m (some p) c)
    (hnd : (inorder (plug c (node p l r))).Nodup) :
    ∃ m' root, m.avlFix p = some (m', root) ∧
      Repaired m none (plug c (node p l r)) (fixUp c (rebalance p l r)) m' root := by
  induction c generalizing m p l r with
  | nil =>
    obtain ⟨m', sub, hrun, hroot, hrepr, -, hframe⟩ := avlFixNode_ctx h hc hnd
    refine ⟨m', sub, ?_, hroot, hrepr, hframe⟩
    rw [AvlMem.avlFix, hrun]
    simp only [h.parent, ctxPtr]
  | cons f fs ih =>
    obtain ⟨m₁, sub, hrun, hroot, hrepr, hc₁, hframe⟩ := avlFixNode_ctx h hc hnd
    rw [← hroot] at hc₁
    obtain ⟨hlink, hcfs⟩ := hc₁.linked hrepr
    have hin : inorder (plug fs (node f.val (f.lft (rebalance p l r)) (f.rgt (rebalance p l r))))
        = inorder (plug (f :: fs) (node p l r)) := by
      rw [← Frame.plug_eq, ← plug, inorder_plug, inorder_plug, inorder_rebalance]
    obtain ⟨m', root, hrun', hrep⟩ := ih hlink hcfs (by rw [hin]; exact hnd)
    refine ⟨m', root, ?_, ?_, ?_, ?_⟩
    · rw [AvlMem.avlFix, hrun]
      simp only [h.parent, ctxPtr]
      exact hrun'
    · rw [fixUp, Frame.fix_eq]
      exact hrep.root
    · rw [fixUp, Frame.fix_eq]
      exact hrep.repr
    · intro x hx
      rw [hrep.frame x (by rw [hin]; exact hx), hframe x hx]

/-! ## Deletion -/

/-- What a finished update of the tree leaves behind. -/
structure Rebuilt (m : AvlMem) (old : BinaryTree Ptr) (m' : AvlMem) (root : Option Ptr)
    (t : BinaryTree Ptr) : Prop where
  root : rootPtr t = root
  repr : Repr m' none t
  frame : ∀ x ∉ inorder old, m' x = m x

/-- `avl_del_easy`: the only child `t` of `p` takes its place, and the path
above is repaired. -/
theorem avlDelEasy_spec (h : Repr m none (plug c (node p l r)))
    (hnd : (inorder (plug c (node p l r))).Nodup)
    (ht : (l = .nil ∧ t = r) ∨ (r = .nil ∧ t = l)) :
    ∃ m' root, avlDelEasy m p = some (m', root) ∧
      Rebuilt m (plug c (node p l r)) m' root (fixUp c t) := by
  obtain ⟨hsub, hcells⟩ := repr_plug.mp h
  have hp := hsub.linked
  have hlinks : CtxLinks m (some p) c := hcells.links
  obtain ⟨hndt, hndc, hapart⟩ := nodup_plug hnd
  have hpc : p ∉ ctxNodes c := hapart p (by simp)
  -- the child the code picks is the root of `t`
  have hcond : ¬ ((m p).left.isSome ∧ (m p).right.isSome) := by
    rw [hp.left, hp.right]
    rcases ht with ⟨rfl, -⟩ | ⟨rfl, -⟩ <;> simp [rootPtr]
  have hchild : (if (m p).left.isSome then (m p).left else (m p).right) = rootPtr t := by
    rw [hp.left, hp.right]
    rcases ht with ⟨rfl, rfl⟩ | ⟨rfl, rfl⟩
    · rfl
    · cases t <;> rfl
  have hreprt : Repr m (some p) t := by
    rcases ht with ⟨rfl, rfl⟩ | ⟨rfl, rfl⟩
    · exact hp.reprR
    · exact hp.reprL
  have hint : ∀ x ∈ inorder t, x ∈ inorder (node p l r) ∧ x ≠ p := by
    simp only [inorder_node, List.nodup_append, List.nodup_cons] at hndt
    intro x hx
    rcases ht with ⟨rfl, rfl⟩ | ⟨rfl, rfl⟩ <;> simp only [inorder_node, inorder_nil] at * <;> grind
  have hndt' : (inorder t).Nodup := by
    simp only [inorder_node, List.nodup_append, List.nodup_cons] at hndt
    rcases ht with ⟨rfl, rfl⟩ | ⟨rfl, rfl⟩
    · exact hndt.2.1.2
    · exact hndt.1
  let m₁ := m.setParentOf (rootPtr t) (ctxPtr c)
  have hm₁ : ∀ x, rootPtr t ≠ some x → m₁ x = m x := fun x hx => setParentOf_ne hx _
  have hrepr₁ : Repr m₁ (ctxPtr c) t := by
    apply hreprt.reparent hndt'
    · intro x hx
      simp only [m₁, hx, AvlMem.setParentOf, setParent_self]
    · intro x _ hx
      exact hm₁ x hx
  have hc₁ : CtxLinks m₁ (some p) c := by
    apply hlinks.congr
    intro x hx
    apply hm₁
    intro he
    exact hapart x (hint x (rootPtr_mem he)).1 hx
  have hout₁ : ∀ x ∉ inorder (plug c (node p l r)), m₁ x = m x := by
    intro x hx
    rw [mem_inorder_plug, not_or] at hx
    apply hm₁
    intro he
    exact hx.1 (hint x (rootPtr_mem he)).1
  cases c with
  | nil =>
    refine ⟨m₁, rootPtr t, ?_, rfl, hrepr₁, hout₁⟩
    have hpar : (m p).parent = none := hp.parent
    simp only [avlDelEasy, if_neg hcond, hchild, hpar, m₁, ctxPtr]
  | cons f fs =>
    let m₂ := m₁.store (ctxFrom (f :: fs)) (rootPtr t)
    have hm₂ : ∀ x ∉ ctxNodes (f :: fs), m₂ x = m₁ x := by
      intro x hx
      exact store_hole_ne (fun he => hx (ctxPtr_mem he)) _
    have hc₂ : CtxLinks m₂ (rootPtr t) (f :: fs) := hc₁.store_hole hndc _
    have hrepr₂ : Repr m₂ (some f.val) t :=
      hrepr₁.congr (fun x hx => hm₂ x (hapart x (hint x hx).1))
    obtain ⟨hlink, hcfs⟩ := hc₂.linked hrepr₂
    have hin : inorder (plug fs (node f.val (f.lft t) (f.rgt t))) = inorder (plug (f :: fs) t) := by
      rw [← Frame.plug_eq, ← plug]
    have hnd₂ : (inorder (plug (f :: fs) t)).Nodup := by
      rw [inorder_plug] at hnd ⊢
      simp only [inorder_node, List.nodup_append, List.nodup_cons, List.mem_append,
        List.mem_cons] at hnd ⊢
      rcases ht with ⟨rfl, rfl⟩ | ⟨rfl, rfl⟩ <;> grind
    obtain ⟨m', root, hrun, hrep⟩ := avlFix_spec hlink hcfs (by rw [hin]; exact hnd₂)
    refine ⟨m', some root, ?_, ?_, ?_, ?_⟩
    · have hpar : (m p).parent = some f.val := hp.parent
      simp only [avlDelEasy, if_neg hcond, hchild, hpar]
      rw [show avlFrom (m.setParentOf (rootPtr t) (some f.val)) (some f.val) p = _ from
        hc₁.avlFrom_eq hpc]
      show Option.map _ (m₂.avlFix f.val) = _
      rw [hrun]
      rfl
    · rw [fixUp, Frame.fix_eq]
      exact hrep.root
    · rw [fixUp, Frame.fix_eq]
      exact hrep.repr
    · intro x hx
      have hx' := hx
      rw [mem_inorder_plug, not_or] at hx'
      rw [hrep.frame x, hm₂ x hx'.2, hout₁ x hx]
      rw [hin, mem_inorder_plug, not_or]
      exact ⟨fun hxt => hx'.1 (hint x hxt).1, hx'.2⟩

/-- The search for the successor ends at the leftmost node. -/
theorem avlLeftmost_spec (h : Repr m par (node p l r)) :
    m.avlLeftmost p = some (takeLeftmost p l r).1 := by
  induction l generalizing par p r with
  | nil =>
    have hl : (m p).left = none := h.linked.left
    rw [AvlMem.avlLeftmost]
    simp only [hl, takeLeftmost]
  | node q ll lr ihl _ =>
    have hl : (m p).left = some q := h.linked.left
    rw [AvlMem.avlLeftmost]
    simp only [hl, takeLeftmost]
    exact ihl h.linked.reprL

/-- Which pointer is at the root does not depend on a subtree deep inside. -/
theorem rootPtr_plug_cons (f : Frame Ptr) (fs : List (Frame Ptr)) (t t' : BinaryTree Ptr) :
    rootPtr (plug (f :: fs) t) = rootPtr (plug (f :: fs) t') := by
  induction fs generalizing f t t' with
  | nil => cases f <;> rfl
  | cons g gs ih => exact ih g (f.plug t) (f.plug t')

/-- The second half of `avl_remove`: a detached node `v` takes the place of
`p`, wherever the repair has moved `p` to. -/
theorem avlTakeOver_spec (h : Repr m none (plug c (node p l r)))
    (hnd : (inorder (plug c (node p l r))).Nodup) (hv : v ∉ inorder (plug c (node p l r))) :
    Rebuilt m (plug c (node v l r)) (avlTakeOver m (rootPtr (plug c (node p l r))) p v).1
      (avlTakeOver m (rootPtr (plug c (node p l r))) p v).2 (plug c (node v l r)) := by
  obtain ⟨⟨hp, hl, hr⟩, hcells⟩ := repr_plug.mp h
  obtain ⟨hndt, hndc, hapart⟩ := nodup_plug hnd
  rw [mem_inorder_plug, not_or] at hv
  obtain ⟨hvt, hvc⟩ := hv
  simp only [inorder_node, List.nodup_append, List.nodup_cons, List.mem_append, List.mem_cons,
    not_or] at hndt hvt hapart
  have hrl : ∀ x, rootPtr l = some x → x ∈ inorder l := fun x hx => rootPtr_mem hx
  have hrr : ∀ x, rootPtr r = some x → x ∈ inorder r := fun x hx => rootPtr_mem hx
  -- the three writes before the parent is looked at
  let m₁ : AvlMem := Function.update m v (m p)
  let m₂ := m₁.setParentOf (rootPtr l) (some v)
  let m₃ := m₂.setParentOf (rootPtr r) (some v)
  have hm₁ : ∀ x, x ≠ v → m₁ x = m x := fun x hx => Function.update_of_ne hx _ _
  have hm₃ : ∀ x, x ≠ v → rootPtr l ≠ some x → rootPtr r ≠ some x → m₃ x = m x := by
    intro x hxv hxl hxr
    rw [show m₃ x = m₂ x from setParentOf_ne hxr _, show m₂ x = m₁ x from setParentOf_ne hxl _,
      hm₁ x hxv]
  have hm₃v : m₃ v = m p := by
    have hlv : rootPtr l ≠ some v := fun he => hvt.1 (hrl v he)
    have hrv : rootPtr r ≠ some v := fun he => hvt.2.2 (hrr v he)
    rw [show m₃ v = m₂ v from setParentOf_ne hrv _, show m₂ v = m₁ v from setParentOf_ne hlv _]
    exact Function.update_self _ _ _
  have hreprl : Repr m₃ (some v) l := by
    apply hl.reparent hndt.1
    · intro x hx
      have hxr : rootPtr r ≠ some x := by
        intro he
        have := hrl x hx
        have := hrr x he
        grind
      rw [show m₃ x = m₂ x from setParentOf_ne hxr _]
      simp only [m₂, hx, AvlMem.setParentOf, setParent_self]
      rw [hm₁ x (by have := hrl x hx; grind)]
    · intro x hx hxl
      apply hm₃ x (by grind) hxl
      intro he
      have := hrr x he
      grind
  have hreprr : Repr m₃ (some v) r := by
    apply hr.reparent hndt.2.1.2
    · intro x hx
      have hxl : rootPtr l ≠ some x := by
        intro he
        have := hrl x he
        have := hrr x hx
        grind
      simp only [m₃, hx, AvlMem.setParentOf, setParent_self]
      rw [show m₂ x = m₁ x from setParentOf_ne hxl _, hm₁ x (by have := hrr x hx; grind)]
    · intro x hx hxr
      apply hm₃ x (by grind) _ hxr
      intro he
      have := hrl x he
      grind
  have hsame : ∀ x ∈ ctxNodes c, m₃ x = m x := by
    intro x hx
    apply hm₃ x
    · rintro rfl
      exact hvc hx
    · intro he
      exact hapart x (.inl (hrl x he)) hx
    · intro he
      exact hapart x (.inr (.inr (hrr x he))) hx
  have hpm : m₃ p = m p := by
    apply hm₃ p (fun he => hvt.2.1 he.symm)
    · intro he
      have := hrl p he
      grind
    · intro he
      have := hrr p he
      grind
  have hcells₃ : CtxCells m₃ (node p l r) c := hcells.congr hsame rfl rfl rfl
  have hpar : (m₃ p).parent = ctxPtr c := by rw [hpm, hp]; rfl
  have hfrom : avlFrom m₃ (ctxPtr c) p = ctxFrom c :=
    hcells₃.links.avlFrom_eq (hapart p (.inr (.inl rfl)))
  let m₄ := m₃.store (ctxFrom c) (some v)
  have hrun : avlTakeOver m (rootPtr (plug c (node p l r))) p v =
      (m₄, if (ctxPtr c).isSome then rootPtr (plug c (node p l r)) else some v) := by
    have hvl : m₁ v = m p := Function.update_self _ _ _
    have hlv : m₂ v = m p := by
      rw [show m₂ v = m₁ v from setParentOf_ne (fun he => hvt.1 (hrl v he)) _, hvl]
    have hleft : (m p).left = rootPtr l := by rw [hp]; rfl
    have hright : (m p).right = rootPtr r := by rw [hp]; rfl
    have e₂ : m₁.setParentOf (m₁ v).left (some v) = m₂ := by rw [hvl, hleft]
    have e₃ : m₂.setParentOf (m₂ v).right (some v) = m₃ := by rw [hlv, hright]
    unfold avlTakeOver
    simp only [show Function.update m v (m p) = m₁ from rfl, e₂, e₃, hpar, hfrom, m₄]
  have hm₄ : ∀ x ∉ ctxNodes c, m₄ x = m₃ x :=
    fun x hx => store_hole_ne (fun he => hx (ctxPtr_mem he)) _
  have hsub : Repr m₄ (ctxPtr c) (node v l r) := by
    refine ⟨?_, hreprl.congr (fun x hx => hm₄ x (hapart x (.inl hx))),
      hreprr.congr (fun x hx => hm₄ x (hapart x (.inr (.inr hx))))⟩
    rw [hm₄ v hvc, hm₃v, hp]
    rfl
  have hroot : rootPtr (plug c (node v l r)) =
      if (ctxPtr c).isSome then rootPtr (plug c (node p l r)) else some v := by
    cases c with
    | nil => rfl
    | cons f fs => exact rootPtr_plug_cons f fs _ _
  have hcells₄ : CtxCells m₄ (node v l r) c :=
    hcells₃.store_hole hndc (show (node v l r).height = (node p l r).height from rfl) rfl
  rw [hrun]
  refine ⟨hroot, repr_plug.mpr ⟨hsub, hcells₄⟩, ?_⟩
  intro x hx
  rw [mem_inorder_plug, not_or] at hx
  simp only [inorder_node, List.mem_append, List.mem_cons, not_or] at hx
  show m₄ x = m x
  rw [hm₄ x hx.2]
  apply hm₃ x hx.1.2.1
  · exact fun he => hx.1.1 (hrl x he)
  · exact fun he => hx.1.2.2 (hrr x he)

/-- A valid tree in memory: laid out from its root, balanced, and without a
node in two places. -/
structure AvlValid (m : AvlMem) (root : Option Ptr) (t : BinaryTree Ptr) : Prop where
  root : rootPtr t = root
  repr : Repr m none t
  balanced : Balanced t
  nodup : (inorder t).Nodup

/-- **`avl_remove`** detaches exactly the node: what takes its place is
`join`ed from its subtrees, and the path above is repaired. -/
theorem avlRemove_spec {root : Option Ptr} (h : AvlValid m root (plug c (node p l r))) :
    ∃ m' root', avlRemove m p = some (m', root') ∧ AvlValid m' root' (fixUp c (join l r)) ∧
      ∀ x ∉ inorder (plug c (node p l r)), m' x = m x := by
  obtain ⟨⟨hp, hl, hr⟩, -⟩ := repr_plug.mp h.repr
  have hleft : (m p).left = rootPtr l := by rw [hp]; rfl
  have hright : (m p).right = rootPtr r := by rw [hp]; rfl
  have hnd : (inorder (fixUp c (join l r))).Nodup := by
    have := h.nodup
    rw [inorder_plug] at this
    rw [inorder_fixUp_join]
    simp only [inorder_node, List.nodup_append, List.nodup_cons, List.mem_append,
      List.mem_cons] at this ⊢
    grind
  by_cases heasy : l = .nil ∨ r = .nil
  · -- at most one child
    have ht : (l = .nil ∧ join l r = r) ∨ (r = .nil ∧ join l r = l) := by
      rcases heasy with rfl | rfl
      · exact .inl ⟨rfl, rfl⟩
      · exact .inr ⟨rfl, by cases l <;> rfl⟩
    obtain ⟨m', root', hrun, hreb⟩ := avlDelEasy_spec h.repr h.nodup ht
    obtain ⟨h1, h2, hbl, hbr⟩ := Balanced.of_plug h.balanced
    refine ⟨m', root', ?_, ⟨hreb.root, hreb.repr, ?_, hnd⟩, hreb.frame⟩
    · rw [← hrun, avlRemove, hleft, hright]
      rcases heasy with rfl | rfl
      · cases r <;> rfl
      · cases l <;> rfl
    · apply balanced_fixUp h.balanced
      · rcases ht with ⟨-, ht⟩ | ⟨-, ht⟩ <;> rw [ht] <;> assumption
      · rcases ht with ⟨-, ht⟩ | ⟨-, ht⟩ <;> rw [ht] <;> simp only [height] <;> omega
      · rcases ht with ⟨rfl, ht⟩ | ⟨rfl, ht⟩ <;> rw [ht] <;> simp only [height] <;> omega
  · -- the successor is detached first and then takes over
    rw [not_or] at heasy
    obtain ⟨q, rl, rr, rfl⟩ : ∃ q rl rr, r = node q rl rr := by
      cases r with
      | nil => exact absurd rfl heasy.2
      | node q rl rr => exact ⟨q, rl, rr, rfl⟩
    obtain ⟨a, la, ra, rfl⟩ : ∃ a la ra, l = node a la ra := by
      cases l with
      | nil => exact absurd rfl heasy.1
      | node a la ra => exact ⟨a, la, ra, rfl⟩
    have hvrun := avlLeftmost_spec hr
    obtain ⟨rc, vr, hveq, hvfix⟩ := takeLeftmost_ctx q rl rr
    have hexact := fixUp_replace h.nodup hveq hvfix
    generalize (takeLeftmost q rl rr).1 = v at hvrun hveq hexact
    have htree : plug c (node p (node a la ra) (node q rl rr)) =
        plug (rc ++ .right p (node a la ra) :: c) (node v .nil vr) := by
      rw [plug_append, ← hveq]
      rfl
    obtain ⟨m₁, root₁, hdel, hreb⟩ :=
      avlDelEasy_spec (t := vr) (htree ▸ h.repr) (htree ▸ h.nodup) (.inl ⟨rfl, rfl⟩)
    have hnd₁ : (inorder (fixUp (rc ++ .right p (node a la ra) :: c) vr)).Nodup ∧
        v ∉ inorder (fixUp (rc ++ .right p (node a la ra) :: c) vr) := by
      have hndT := h.nodup
      rw [htree, inorder_plug, inorder_node] at hndT
      rw [inorder_fixUp, inorder_plug]
      simp only [inorder_nil, List.nil_append, List.nodup_append, List.nodup_cons, List.mem_append,
        List.mem_cons] at hndT ⊢
      grind
    obtain ⟨c', l', r', ht₁⟩ := exists_plug_of_mem (a := p)
      (show p ∈ inorder (fixUp (rc ++ .right p (node a la ra) :: c) vr) by
        rw [inorder_fixUp, inorder_plug, before_append]
        simp [before])
    rw [ht₁] at hnd₁ hexact
    rw [plug_replace hnd₁.1] at hexact
    have htake := avlTakeOver_spec (ht₁ ▸ hreb.repr) hnd₁.1 hnd₁.2
    have hbal : AvlTree.Balanced (plug c' (node p l' r')) := by
      have hbT : AvlTree.Balanced (plug (rc ++ .right p (node a la ra) :: c) (node v .nil vr)) :=
        htree ▸ h.balanced
      obtain ⟨-, -, -, hbvr⟩ := Balanced.of_plug hbT
      rw [← ht₁]
      apply balanced_fixUp hbT
      · exact hbvr
      · simp only [height]; omega
      · simp only [height]; omega
    rw [← hexact] at hnd ⊢
    refine ⟨_, _, ?_, ⟨htake.root, htake.repr, ?_, hnd⟩, ?_⟩
    · rw [avlRemove, hleft, hright]
      simp only [rootPtr, hvrun, hdel]
      rw [← hreb.root, ht₁]
      rfl
    · have hnode := Balanced.of_plug hbal
      exact hbal.plug_congr hnode rfl
    · intro x hx
      have hx₁ : x ∉ inorder (plug c' (node v l' r')) := by
        rw [hexact, inorder_fixUp_join]
        rw [inorder_plug, inorder_node] at hx
        simp only [List.mem_append, List.mem_cons] at hx ⊢
        grind
      rw [htake.frame x hx₁]
      exact hreb.frame x (htree ▸ hx)

/-! ## Insertion -/

/-- **Attaching a new leaf** in an empty place of a valid tree, and repairing
the path above it. -/
theorem avlAttach_spec {root : Option Ptr} (h : AvlValid m root (plug c .nil))
    (hx : p ∉ inorder (plug c .nil)) (hl : (m p).left = none) (hr : (m p).right = none) :
    ∃ m' root', AvlMem.avlFix ((m.store (ctxFrom c) (some p)).setParent p (ctxPtr c)) p =
        some (m', root') ∧ AvlValid m' (some root') (fixUp c (node p .nil .nil)) ∧
      ∀ x ∉ inorder (fixUp c (node p .nil .nil)), m' x = m x := by
  obtain ⟨-, hcells⟩ := repr_plug.mp h.repr
  obtain ⟨-, hndc, -⟩ := nodup_plug h.nodup
  have hpc : p ∉ ctxNodes c := by
    intro hp
    exact hx (mem_inorder_plug.mpr (.inr hp))
  have hstore := hcells.links.store_hole hndc (some p)
  have hsame : ∀ x ∉ ctxNodes c, m.store (ctxFrom c) (some p) x = m x :=
    fun x hx => store_hole_ne (fun he => hx (ctxPtr_mem he)) _
  let m₁ := (m.store (ctxFrom c) (some p)).setParent p (ctxPtr c)
  have hm₁ : ∀ x, x ≠ p → m₁ x = m.store (ctxFrom c) (some p) x := fun x hxp => setParent_ne hxp _
  have hcl : CtxLinks m₁ (some p) c := by
    apply hstore.congr
    intro x hxc
    apply hm₁
    rintro rfl
    exact hpc hxc
  have hlink : Linked m₁ (ctxPtr c) p .nil .nil := by
    have hp₁ : m₁ p = { m p with parent := ctxPtr c } := by
      show (m.store (ctxFrom c) (some p)).setParent p (ctxPtr c) p = _
      rw [setParent_self, hsame p hpc]
    exact ⟨by rw [hp₁], by rw [hp₁]; exact hl, by rw [hp₁]; exact hr, trivial, trivial⟩
  have hin : inorder (plug c (node p .nil .nil)) = before c ++ p :: after c := by
    rw [inorder_plug]
    simp
  have hnd : (inorder (plug c (node p .nil .nil))).Nodup := by
    have := h.nodup
    rw [inorder_plug] at this
    rw [hin]
    simp only [ctxNodes, List.mem_append] at hpc
    simp only [inorder_nil, List.append_nil, List.nodup_append, List.nodup_cons,
      List.mem_cons] at this ⊢
    grind
  obtain ⟨m', root', hrun, hrep⟩ := avlFix_spec hlink hcl hnd
  have hreb : rebalance p .nil .nil = node p .nil .nil := by simp [rebalance]
  rw [hreb] at hrep
  have hin' : inorder (fixUp c (node p .nil .nil)) = before c ++ p :: after c := by
    rw [inorder_fixUp, hin]
  refine ⟨m', root', hrun, ⟨hrep.root, hrep.repr, ?_, ?_⟩, ?_⟩
  · apply balanced_fixUp h.balanced
    · simp [AvlTree.Balanced]
    · simp
    · simp
  · rw [hin', ← hin]
    exact hnd
  · intro x hxn
    rw [hin', ← hin] at hxn
    rw [hrep.frame x hxn]
    rw [mem_inorder_plug, not_or] at hxn
    have hxp : x ≠ p := by
      rintro rfl
      exact hxn.1 (by simp)
    rw [hm₁ x hxp, hsame x hxn.2]

end ByoRedis
