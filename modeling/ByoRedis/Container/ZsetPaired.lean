import ByoRedis.Container.HashTableRefine
import ByoRedis.Container.AvlExact
import ByoRedis.Container.Zset

/-!
# Container — the two indexes of a sorted set, of whatever scores

`ZSet.Paired z t`: the tree `t` is laid out in memory and valid, and the hash
index holds exactly its nodes, no two of one name. Nothing is said about the
order of the nodes, so NaN scores are not excluded: the operations are followed
as the tree algorithms of `Lib/AvlTreeOps` that they carry out, tree for tree.
-/

namespace ByoRedis

open BinaryTree AvlTree CString

variable {z z' : ZSet} {t : BinaryTree Ptr} {p x : Ptr} {c : List (Frame Ptr)}

/-- The name of the node at an address. -/
def ZSet.nameOf (z : ZSet) (p : Ptr) : Bytes := (z.node p).name

/-- `hcmp` is equality of names. -/
theorem hcmp_eq (z : ZSet) (name : Bytes) : hcmp z name = fun p => decide (z.nameOf p = name) := by
  funext p
  unfold hcmp
  by_cases hlen : (z.node p).name.length = name.length
  · rw [if_neg (by simp [hlen]), Bool.eq_iff_iff]
    rw [beq_iff_eq, memcmp_eq_iff hlen, decide_eq_true_iff]
    rfl
  · rw [if_pos hlen]
    have hne : z.nameOf p ≠ name := by
      intro h
      exact hlen (congrArg List.length h)
    simp [hne]

/-! ## The tree -/

/-- The search of `tree_insert` ends at the empty place of `leafCtx`. -/
theorem treeSearch_spec (hrepr : Repr z.tree (ctxPtr c) t) :
    z.treeSearch x (ctxPtr c) (ctxFrom c) (rootPtr t) =
      some (ctxPtr (leafCtx (zless z x) c t), ctxFrom (leafCtx (zless z x) c t)) := by
  induction t generalizing c with
  | nil =>
    rw [ZSet.treeSearch.eq_def]
    rfl
  | node p l r ihl ihr =>
    obtain ⟨hp, hl, hr⟩ := hrepr
    have hstep : z.treeSearch x (ctxPtr c) (ctxFrom c) (rootPtr (node p l r)) =
        if zless z x p then z.treeSearch x (some p) (.left p) (rootPtr l)
        else z.treeSearch x (some p) (.right p) (rootPtr r) := by
      rw [ZSet.treeSearch.eq_def]
      simp only [rootPtr, hp, avlCell]
    rw [hstep, leafCtx]
    split
    · exact ihl (c := .left p r :: c) hl
    · exact ihr (c := .right p l :: c) hr

/-- **`tree_insert`** inserts a leaf where `zless` leads. -/
theorem treeInsert_spec (h : AvlValid z.tree z.root t) (hmem : x ∉ inorder t)
    (hl : (z.tree x).left = none) (hr : (z.tree x).right = none) :
    ∃ m root, treeInsert z x = some { z with tree := m, root := some root } ∧
      AvlValid m (some root) (insertBy (zless z x) x t) ∧
      ∀ q ∉ inorder (insertBy (zless z x) x t), m q = z.tree q := by
  have hplug : plug (leafCtx (zless z x) [] t) .nil = t := plug_leafCtx (zless z x) [] t
  obtain ⟨m, root, hfix, hval, hframe⟩ :=
    avlAttach_spec (c := leafCtx (zless z x) [] t) (p := x) (by rw [hplug]; exact h)
      (by rw [hplug]; exact hmem) hl hr
  refine ⟨m, root, ?_, hval, hframe⟩
  have hrun := treeSearch_spec (x := x) (c := []) h.repr
  rw [h.root] at hrun
  rw [treeInsert, show z.treeSearch x none .root z.root = _ from hrun]
  simp only [Option.bind_eq_bind, Option.bind_some, hfix]

/-- A member of a valid tree, taken out by `avl_remove`. -/
theorem avlRemove_mem {m : AvlMem} {root : Option Ptr} (h : AvlValid m root t)
    (hp : p ∈ inorder t) :
    ∃ m' root', avlRemove m p = some (m', root') ∧ AvlValid m' root' (eraseBy (· == p) t) := by
  rw [eraseBy]
  cases hf : findCtx (· == p) [] t with
  | none => exact absurd (beq_self_eq_true p) (findCtx_none hf p hp)
  | some v =>
    obtain ⟨c, q, l, r⟩ := v
    obtain ⟨hplug, hq⟩ := findCtx_some hf
    obtain rfl : q = p := beq_iff_eq.mp hq
    obtain ⟨m', root', hrun, hval, -⟩ := avlRemove_spec (hplug ▸ h : AvlValid m root (plug c (node q l r)))
    exact ⟨m', root', hrun, hval⟩

/-- Only the nodes of the tree matter. -/
theorem AvlValid.congr {m m' : AvlMem} {root : Option Ptr} (h : AvlValid m root t)
    (hm : ∀ x ∈ inorder t, m' x = m x) : AvlValid m' root t :=
  ⟨h.root, h.repr.congr hm, h.balanced, h.nodup⟩

/-- `root` is null exactly for the empty tree. -/
theorem AvlValid.root_none {m : AvlMem} {root : Option Ptr} (h : AvlValid m root t) :
    root = none ↔ t = .nil := by
  rw [← h.root]
  cases t <;> simp [rootPtr]

/-! ## The invariant -/

/-- The two indexes of a set whose tree is `t`. -/
structure ZSet.Paired (z : ZSet) (t : BinaryTree Ptr) : Prop where
  tree : AvlValid z.tree z.root t
  hashed : ∀ p ∈ inorder t, (z.node p).hashCode = strHash (z.node p).name
  index : HashMap.Holds z.nameOf strHash z.hmap (inorder t).toFinset
  live : ∀ p, z.live p = true ↔ p ∈ inorder t
  fresh : ∀ p ∈ inorder t, p < z.next

theorem ZSet.Paired.name_inj (h : z.Paired t) {a b : Ptr} (ha : a ∈ inorder t) (hb : b ∈ inorder t)
    (hab : (z.node a).name = (z.node b).name) : a = b :=
  h.index.keys a (by simpa using ha) b (by simpa using hb) hab

/-- The hash index counts the nodes of the tree. -/
theorem ZSet.Paired.size_eq (h : z.Paired t) : z.hmap.size = (inorder t).length := by
  rw [h.index.size_eq, List.toFinset_card_of_nodup h.tree.nodup]

theorem ZSet.new_paired : ∃ z, ZSet.new = some z ∧ z.Paired .nil := by
  obtain ⟨m, hm, hh⟩ := HashMap.new_holds (fun _ : Ptr => ([] : Bytes)) strHash
  refine ⟨{ hmap := m }, by simp [ZSet.new, hm], ⟨rfl, trivial, trivial, by simp⟩, by simp, ?_,
    by simp, by simp⟩
  exact hh.congr (by simp)

/-! ## The operations -/

/-- Beyond the shortcut, `zset_lookup` answers what the hash index holds. -/
theorem zsetLookup_index {S : Finset Ptr} (hroot : z.root ≠ none)
    (h : HashMap.Holds z.nameOf strHash z.hmap S) (name : Bytes) :
    ∃ hm r, zsetLookup z name = some ({ z with hmap := hm }, r) ∧
      HashMap.Holds z.nameOf strHash hm S ∧ ∀ p, r = some p ↔ p ∈ S ∧ (z.node p).name = name := by
  obtain ⟨q, hq⟩ := Option.ne_none_iff_exists'.mp hroot
  obtain ⟨hm, r, hl, hf, hh⟩ := h.lookup name
  refine ⟨hm, r.map HashNode.ptr, ?_, hh, ?_⟩
  · simp only [zsetLookup, hq, hcmp_eq, hl, Option.bind_eq_bind, Option.bind_some]
  · intro p
    rw [hf p]
    simp [ZSet.nameOf]

/-- **`zset_lookup`** finds the node of the name, and only moves nodes of the
hash index about. -/
theorem ZSet.Paired.lookup (h : z.Paired t) (name : Bytes) :
    ∃ hm r, zsetLookup z name = some ({ z with hmap := hm }, r) ∧
      HashMap.Holds z.nameOf strHash hm (inorder t).toFinset ∧
      ∀ p, r = some p ↔ p ∈ inorder t ∧ (z.node p).name = name := by
  by_cases hroot : z.root = none
  · have ht : t = .nil := h.tree.root_none.mp hroot
    refine ⟨z.hmap, none, ?_, h.index, by simp [ht]⟩
    simp only [zsetLookup, hroot]
    rw [← hroot]
  · obtain ⟨hm, r, hrun, hh, hr⟩ := zsetLookup_index hroot h.index name
    exact ⟨hm, r, hrun, hh, fun p => by rw [hr p, List.mem_toFinset]⟩

/-- Another state of the same hash index. -/
theorem ZSet.Paired.withIndex (h : z.Paired t) {hm : HashMap Ptr}
    (hh : HashMap.Holds z.nameOf strHash hm (inorder t).toFinset) :
    ZSet.Paired { z with hmap := hm } t := ⟨h.tree, h.hashed, hh, h.live, h.fresh⟩

/-- **`zset_update`** with a score that does not compare equal to the old one:
the node is taken out of the tree and put in again under its new score. -/
theorem ZSet.Paired.update (h : z.Paired t) (hp : p ∈ inorder t) {score : Double}
    (hne : ¬ (z.node p).score.eq score = true) :
    ∃ z', zsetUpdate z p score = some z' ∧
      z'.node = Function.update z.node p { z.node p with score := score } ∧
      z'.Paired (insertBy (zless z' p) p (eraseBy (· == p) t)) := by
  obtain ⟨m, root, hrem, hval⟩ := avlRemove_mem h.tree hp
  have hmem : ∀ q, q ∈ inorder (eraseBy (· == p) t) ↔ q ∈ inorder t ∧ q ≠ p :=
    fun q => mem_eraseBy h.tree.nodup hp
  let z₁ : ZSet :=
    { z with
      root := root
      tree := avlInit m p
      node := Function.update z.node p { z.node p with score := score } }
  have hval₁ : AvlValid z₁.tree z₁.root (eraseBy (· == p) t) := by
    apply hval.congr
    intro q hq
    exact Function.update_of_ne ((hmem q).mp hq).2 _ _
  obtain ⟨m', root', hins, hval', -⟩ := treeInsert_spec (x := p) hval₁
    (fun hpe => ((hmem p).mp hpe).2 rfl) (by simp [z₁, avlInit]) (by simp [z₁, avlInit])
  have hperm := inorder_move_perm (zless z₁ p) hp
  have hself : ∀ q, (z₁.node q).name = (z.node q).name ∧ (z₁.node q).hashCode = (z.node q).hashCode := by
    intro q
    by_cases hq : q = p
    · subst hq
      simp [z₁]
    · rw [show z₁.node q = z.node q from Function.update_of_ne hq _ _]
      exact ⟨rfl, rfl⟩
  refine ⟨{ z₁ with tree := m', root := some root' }, ?_, rfl, ⟨hval', ?_, ?_, ?_, ?_⟩⟩
  · rw [zsetUpdate, if_neg hne, hrem]
    exact hins
  · intro q hq
    show (z₁.node q).hashCode = strHash (z₁.node q).name
    rw [(hself q).1, (hself q).2]
    exact h.hashed q (hperm.mem_iff.mp hq)
  · show HashMap.Holds z₁.nameOf strHash z.hmap
      (inorder (insertBy (zless z₁ p) p (eraseBy (· == p) t))).toFinset
    rw [List.toFinset_eq_of_perm _ _ hperm]
    exact h.index.congr (fun q _ => (hself q).1)
  · intro q
    exact (h.live q).trans hperm.mem_iff.symm
  · intro q hq
    exact h.fresh q (hperm.mem_iff.mp hq)

/-- **`zset_delete`** of a member passes its assertion and takes the node out
of both indexes. -/
theorem ZSet.Paired.delete (h : z.Paired t) (hp : p ∈ inorder t) :
    ∃ z', zsetDelete z p = some z' ∧ z'.node = z.node ∧ z'.Paired (eraseBy (· == p) t) := by
  obtain ⟨m, root, hrem, hval⟩ := avlRemove_mem h.tree hp
  obtain ⟨hm, n, hrm, -, hh⟩ := h.index.remove_only (hcmp z (z.node p).name) (a := p)
    (by simpa using hp) (fun q hq => by
      rw [hcmp_eq, decide_eq_true_iff]
      exact ⟨fun hn => h.name_inj (by simpa using hq) hp hn, fun hn => by rw [hn]; rfl⟩)
  have hmem : ∀ q, q ∈ inorder (eraseBy (· == p) t) ↔ q ∈ inorder t ∧ q ≠ p :=
    fun q => mem_eraseBy h.tree.nodup hp
  refine ⟨{ z with hmap := hm, tree := m, root := root, live := Function.update z.live p false },
    ?_, rfl, ⟨hval, ?_, ?_, ?_, ?_⟩⟩
  · have hlive : z.live p = true := (h.live p).mpr hp
    have hrm' : z.hmap.remove (z.node p).hashCode (hcmp z (z.node p).name) =
        some (hm, some n) := by
      rw [h.hashed p hp]
      exact hrm
    rw [zsetDelete, hrm']
    simp [hrem, znodeDel, hlive]
  · exact fun q hq => h.hashed q ((hmem q).mp hq).1
  · have hset : (inorder (eraseBy (· == p) t)).toFinset = (inorder t).toFinset.erase p := by
      ext q
      rw [List.mem_toFinset, hmem q, Finset.mem_erase, List.mem_toFinset, and_comm]
    rw [hset]
    exact hh
  · intro q
    rw [hmem q, ← h.live q]
    by_cases hqp : q = p
    · simp [hqp]
    · simp [hqp]
  · exact fun q hq => h.fresh q ((hmem q).mp hq).1

@[simp] theorem znodeNew_tree (z : ZSet) (name : Bytes) (score : Double) :
    (znodeNew z name score).1.tree z.next = { height := 1, cnt := 1 } :=
  Function.update_self z.next _ z.tree

/-- The hash index takes a node that `znode_new` made for a new name. -/
theorem znodeNew_index {S : Finset Ptr} (h : HashMap.Holds z.nameOf strHash z.hmap S)
    {name : Bytes} (score : Double) (hfresh : ∀ q ∈ S, q ≠ z.next)
    (hname : ∀ q ∈ S, (z.node q).name ≠ name) :
    ∃ hm, z.hmap.insert { ptr := z.next, hashCode := strHash name } = some hm ∧
      HashMap.Holds (znodeNew z name score).1.nameOf strHash hm (insert z.next S) := by
  have hother : ∀ q ∈ S, (znodeNew z name score).1.nameOf q = z.nameOf q := by
    intro q hq
    exact congrArg ZNode.name (Function.update_of_ne (hfresh q hq) _ z.node)
  have hself : (znodeNew z name score).1.nameOf z.next = name := by
    simp [ZSet.nameOf, znodeNew]
  obtain ⟨hm, hins, hh⟩ := (h.congr hother).insert z.next (fun hmem => hfresh _ hmem rfl) (by
    intro q hq
    rw [hself, hother q hq]
    exact hname q hq)
  rw [hself] at hins
  exact ⟨hm, hins, hh⟩

/-- A new member is put into both indexes. -/
theorem ZSet.Paired.add (h : z.Paired t) (name : Bytes) (score : Double)
    (hname : ∀ p ∈ inorder t, (z.node p).name ≠ name) :
    ∃ hm z',
      z.hmap.insert { ptr := z.next, hashCode := strHash name } = some hm ∧
      treeInsert { (znodeNew z name score).1 with hmap := hm } z.next = some z' ∧
      z'.node = Function.update z.node z.next
        { hashCode := strHash name, score := score, name := name } ∧
      z'.Paired (insertBy (zless z' z.next) z.next t) := by
  have hneq : ∀ q ∈ inorder t, q ≠ z.next := fun q hq => Nat.ne_of_lt (h.fresh q hq)
  have hx : z.next ∉ inorder t := fun hmem => hneq _ hmem rfl
  let z₁ := (znodeNew z name score).1
  have hother : ∀ q ∈ inorder t, z₁.node q = z.node q :=
    fun q hq => Function.update_of_ne (hneq q hq) _ _
  have hself : z₁.node z.next = { hashCode := strHash name, score := score, name := name } := by
    simp [z₁, znodeNew]
  obtain ⟨hm, hins, hh⟩ := znodeNew_index h.index score (fun q hq => hneq q (by simpa using hq))
    (fun q hq => hname q (by simpa using hq))
  have hval : AvlValid z₁.tree z₁.root t := by
    apply h.tree.congr
    intro q hq
    exact Function.update_of_ne (hneq q hq) _ _
  obtain ⟨m, root, hti, hval', -⟩ :=
    treeInsert_spec (z := { z₁ with hmap := hm }) (x := z.next) hval hx
      (by simp [z₁]) (by simp [z₁])
  refine ⟨hm, _, hins, hti, rfl, ⟨hval', ?_, ?_, ?_, ?_⟩⟩
  · intro q hq
    show (z₁.node q).hashCode = strHash (z₁.node q).name
    rcases mem_insertBy.mp hq with rfl | hq
    · rw [hself]
    · rw [hother q hq]
      exact h.hashed q hq
  · rw [List.toFinset_eq_of_perm _ _ (inorder_insertBy_perm _ _ _), List.toFinset_cons]
    exact hh
  · intro q
    rw [mem_insertBy, ← h.live q]
    show Function.update z.live z.next true q = true ↔ _
    by_cases hq : q = z.next
    · simp [hq]
    · simp [hq]
  · intro q hq
    show q < z.next + 1
    rcases mem_insertBy.mp hq with rfl | hq
    · exact Nat.lt_succ_self _
    · exact Nat.lt_succ_of_lt (h.fresh q hq)

/-- `zset_insert` of a name that is not found. -/
theorem zsetInsert_new {name : Bytes} {score : Double} {hm : HashMap Ptr}
    (hlook : zsetLookup z name = some (z', none))
    (hins : z'.hmap.insert { ptr := z'.next, hashCode := strHash name } = some hm) :
    zsetInsert z name score =
      (treeInsert { (znodeNew z' name score).1 with hmap := hm } z'.next).map
        (fun z => (z, true)) := by
  have hcode : ((znodeNew z' name score).1.node z'.next).hashCode = strHash name := by
    simp [znodeNew]
  have hkeep : (znodeNew z' name score).1.hmap = z'.hmap := rfl
  rw [zsetInsert, hlook]
  simp only [Option.bind_eq_bind, Option.bind_some]
  rw [show znodeNew z' name score = ((znodeNew z' name score).1, z'.next) from rfl]
  simp only [hcode, hkeep, hins, Option.bind_some]
  cases treeInsert { (znodeNew z' name score).1 with hmap := hm } z'.next <;> rfl

/-- `zset_insert` of a name that is found. -/
theorem zsetInsert_old {name : Bytes} {score : Double} (hlook : zsetLookup z name = some (z', some p)) :
    zsetInsert z name score = (zsetUpdate z' p score).map (fun z => (z, false)) := by
  rw [zsetInsert, hlook]
  simp only [Option.bind_eq_bind, Option.bind_some]
  cases zsetUpdate z' p score <;> rfl

/-- The loop of `zset_seekge` is the search for a lower bound. -/
theorem seekgeLoop_spec {par : Option Ptr} (hr : Repr z.tree par t) (score : Double) (name : Bytes)
    (found : Option Ptr) :
    z.seekgeLoop score name found (rootPtr t) =
      some (seek (fun q => zlessTuple (z.node q) score name) found t) := by
  induction t generalizing par found with
  | nil =>
    rw [ZSet.seekgeLoop.eq_def]
    rfl
  | node a l r ihl ihr =>
    obtain ⟨ha, hl, hr⟩ := hr
    have hstep : z.seekgeLoop score name found (rootPtr (node a l r)) =
        if zlessTuple (z.node a) score name then z.seekgeLoop score name found (rootPtr r)
        else z.seekgeLoop score name (some a) (rootPtr l) := by
      rw [ZSet.seekgeLoop.eq_def]
      simp only [rootPtr, ha, avlCell]
    rw [hstep, seek]
    split
    · exact ihr hr found
    · exact ihl hl (some a)

theorem ZSet.Paired.seekge (h : z.Paired t) (score : Double) (name : Bytes) :
    zsetSeekge z score name = some (seek (fun q => zlessTuple (z.node q) score name) none t) := by
  rw [zsetSeekge, ← h.tree.root]
  exact seekgeLoop_spec h.tree.repr score name none

/-! ## `zset_clear` -/

/-- `tree_dispose` frees exactly the nodes of the subtree. -/
theorem treeDispose_spec {par : Option Ptr} (hr : Repr z.tree par t)
    (hl : ∀ p ∈ inorder t, z.live p = true) (hnd : (inorder t).Nodup) :
    ∃ live, z.treeDispose (rootPtr t) = some { z with live := live } ∧
      ∀ p, live p = true ↔ z.live p = true ∧ p ∉ inorder t := by
  induction t generalizing z par with
  | nil =>
    rw [ZSet.treeDispose.eq_def]
    exact ⟨z.live, rfl, by simp⟩
  | node a l r ihl ihr =>
    obtain ⟨ha, hrl, hrr⟩ := hr
    simp only [inorder_node, List.nodup_append, List.nodup_cons, List.mem_cons] at hnd
    obtain ⟨hndl, ⟨har, hndr⟩, hdisj⟩ := hnd
    obtain ⟨live₁, hrun₁, hlive₁⟩ := ihl hrl (fun p hp => hl p (by simp [hp])) hndl
    obtain ⟨live₂, hrun₂, hlive₂⟩ := ihr (z := { z with live := live₁ }) hrr
      (fun p hp => (hlive₁ p).mpr
        ⟨hl p (by simp [hp]), fun hpl => hdisj p hpl p (.inr hp) rfl⟩) hndr
    have hla : live₂ a = true := by
      rw [hlive₂ a]
      refine ⟨(hlive₁ a).mpr ⟨hl a (by simp), fun hal => hdisj a hal a (.inl rfl) rfl⟩, har⟩
    refine ⟨Function.update live₂ a false, ?_, ?_⟩
    · rw [show rootPtr (node a l r) = some a from rfl, ZSet.treeDispose.eq_def]
      have hleft : (z.tree a).left = rootPtr l := by rw [ha]; rfl
      have hright : (z.tree a).right = rootPtr r := by rw [ha]; rfl
      simp only [hleft, hrun₁, Option.bind_eq_bind, Option.bind_some, hright, hrun₂]
      rw [znodeDel, if_pos hla]
    · intro p
      by_cases hp : p = a
      · simp [hp]
      · rw [Function.update_of_ne hp, hlive₂ p]
        show live₁ p = true ∧ _ ↔ _
        rw [hlive₁ p]
        simp [hp, and_assoc]

/-- **`zset_clear`** frees every node of the set, each once, and forgets the
tree; the hash index is not touched. -/
theorem ZSet.Paired.clear (h : z.Paired t) :
    ∃ live, zsetClear z = some { z with live := live, root := none } ∧ ∀ p, live p = false := by
  obtain ⟨live, hrun, hlive⟩ := treeDispose_spec h.tree.repr (fun p hp => (h.live p).mpr hp)
    h.tree.nodup
  rw [h.tree.root] at hrun
  refine ⟨live, by rw [zsetClear, hrun]; rfl, ?_⟩
  intro p
  rw [← Bool.not_eq_true, hlive p, h.live p]
  tauto

end ByoRedis
