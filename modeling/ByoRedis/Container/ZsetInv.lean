import ByoRedis.Container.ZsetPaired

/-!
# Container — a sorted set in order

`ZSet.Inv z t`: the two indexes agree (`ZSet.Paired`), the scores are numbers
and the tree is strictly sorted by (score, name). Every operation is proved to
keep it, from any state of the hash index's migration; the content is followed
as the list of the nodes of `t` and as a finite map from names to scores.
-/

namespace ByoRedis

open BinaryTree AvlTree CString

/-- (score, name), in the order of `zless`. -/
def ZNode.key (n : ZNode) : ℤ ×ₗ List ℕ := toLex (n.score.key, codes n.name)

/-- The key of the node at an address. -/
def ZSet.key (z : ZSet) (p : Ptr) : ℤ ×ₗ List ℕ := (z.node p).key

/-- Away from NaN, `zless` is the order of the keys. -/
theorem zlessTuple_iff {zl : ZNode} {score : Double} {name : Bytes}
    (hl : zl.score.isnan = false) (hs : score.isnan = false) :
    zlessTuple zl score name = true ↔ zl.key < toLex (score.key, codes name) := by
  rw [ZNode.key, Prod.Lex.toLex_lt_toLex]
  unfold zlessTuple
  by_cases heq : zl.score.key = score.key
  · have he : ¬ zl.score.eq score = false := by simp [(Double.eq_iff hl hs).mpr heq]
    rw [if_neg he, ← memcmp_lt_iff]
    simp only [heq, lt_self_iff_false, true_and, false_or]
    cases memcmp zl.name name (min zl.name.length name.length) <;> simp
  · have he : zl.score.eq score = false := by
      rw [← Bool.not_eq_true, Double.eq_iff hl hs]
      exact heq
    rw [if_pos he, Double.lt_iff hl hs]
    simp [heq]

theorem zless_iff {z : ZSet} {a b : Ptr} (ha : (z.node a).score.isnan = false)
    (hb : (z.node b).score.isnan = false) : zless z a b = true ↔ z.key a < z.key b :=
  zlessTuple_iff ha hb

/-- A NaN is less than nothing and nothing is less than a NaN. -/
theorem zlessTuple_number {zl : ZNode} {score : Double} {name : Bytes}
    (h : zlessTuple zl score name = true) : zl.score.isnan = false ∧ score.isnan = false := by
  unfold zlessTuple at h
  by_cases he : zl.score.eq score = false
  · rw [if_pos he, Double.lt, Bool.and_eq_true, Bool.and_eq_true] at h
    exact ⟨by simpa using h.1.1, by simpa using h.1.2⟩
  · rw [Bool.not_eq_false, Double.eq, Bool.and_eq_true, Bool.and_eq_true] at he
    exact ⟨by simpa using he.1.1, by simpa using he.1.2⟩

theorem zless_trans {z : ZSet} {a b c : Ptr} (hab : zless z a b = true) (hbc : zless z b c = true) :
    zless z a c = true := by
  obtain ⟨ha, hb⟩ := zlessTuple_number hab
  obtain ⟨-, hc⟩ := zlessTuple_number hbc
  rw [zless_iff ha hc]
  exact ((zless_iff ha hb).mp hab).trans ((zless_iff hb hc).mp hbc)

/-! ## Insertion into the tree -/

variable {z z' : ZSet} {t : BinaryTree Ptr} {p x : Ptr}

/-- **`tree_insert`** puts a new leaf between the nodes it is not less than
and the nodes it is less than. -/
theorem treeInsert_place (h : AvlValid z.tree z.root t)
    (hmono : (inorder t).Pairwise (fun a b => zless z x a = true → zless z x b = true))
    (hmem : x ∉ inorder t) (hl : (z.tree x).left = none) (hr : (z.tree x).right = none) :
    ∃ m root t' b a, treeInsert z x = some { z with tree := m, root := some root } ∧
      AvlValid m (some root) t' ∧ inorder t = b ++ a ∧ inorder t' = b ++ x :: a ∧
      (∀ q ∈ b, ¬ zless z x q = true) ∧ (∀ q ∈ a, zless z x q = true) ∧
      ∀ q ∉ inorder t', m q = z.tree q := by
  obtain ⟨m, root, hrun, hval, hframe⟩ := treeInsert_spec h hmem hl hr
  obtain ⟨b, a, hin, hin', hb, ha⟩ := inorder_insertBy_sorted x hmono
  exact ⟨m, root, _, b, a, hrun, hval, hin, hin', hb, ha, hframe⟩

theorem pairwise_between {α : Type} {R : α → α → Prop} {b a : List α} {x : α}
    (h : (b ++ a).Pairwise R) (hb : ∀ q ∈ b, R q x) (ha : ∀ q ∈ a, R x q) :
    (b ++ x :: a).Pairwise R := by
  rw [List.pairwise_append] at h
  rw [List.pairwise_append, List.pairwise_cons]
  refine ⟨h.1, ⟨ha, h.2.1⟩, ?_⟩
  intro q hq y hy
  rcases List.mem_cons.mp hy with rfl | hy
  · exact hb q hq
  · exact h.2.2 q hq y hy

/-- A node with a key of its own is put between the smaller and the greater
keys. -/
theorem insertBy_sorted (hsort : (inorder t).Pairwise (fun a b => z.key a < z.key b))
    (hnum : ∀ p ∈ inorder t, (z.node p).score.isnan = false)
    (hx : (z.node x).score.isnan = false) (hne : ∀ p ∈ inorder t, z.key p ≠ z.key x) :
    (inorder (insertBy (zless z x) x t)).Pairwise (fun a b => z.key a < z.key b) := by
  have hmono : (inorder t).Pairwise (fun a b => zless z x a = true → zless z x b = true) := by
    refine hsort.imp_of_mem ?_
    intro p q hp hq hpq hxp
    exact zless_trans hxp ((zless_iff (hnum p hp) (hnum q hq)).mpr hpq)
  obtain ⟨b, a, hin, hin', hb, ha⟩ := inorder_insertBy_sorted x hmono
  have hbt : ∀ q ∈ b, q ∈ inorder t := fun q hq => by rw [hin]; exact List.mem_append_left _ hq
  have hat : ∀ q ∈ a, q ∈ inorder t := fun q hq => by rw [hin]; exact List.mem_append_right _ hq
  have hbx : ∀ q ∈ b, z.key q < z.key x := by
    intro q hq
    have hnot := hb q hq
    rw [zless_iff hx (hnum q (hbt q hq)), not_lt] at hnot
    exact lt_of_le_of_ne hnot (hne q (hbt q hq))
  have hxa : ∀ q ∈ a, z.key x < z.key q :=
    fun q hq => (zless_iff hx (hnum q (hat q hq))).mp (ha q hq)
  rw [hin']
  exact pairwise_between (hin ▸ hsort) hbx hxa

theorem orderedInsert_between {α : Type} {r : α → α → Prop} [DecidableRel r] {x : α} {b a : List α}
    (hb : ∀ q ∈ b, ¬ r x q) (ha : ∀ q ∈ a, r x q) :
    (b ++ a).orderedInsert r x = b ++ x :: a := by
  induction b with
  | nil =>
    cases a with
    | nil => rfl
    | cons q a => exact List.orderedInsert_cons_of_le r a (ha q List.mem_cons_self)
  | cons q b ih =>
    rw [List.cons_append, List.orderedInsert, if_neg (hb q List.mem_cons_self),
      ih (fun y hy => hb y (List.mem_cons_of_mem q hy))]
    rfl

/-- **AVL insertion.** `tree_insert` of a new node into a valid tree that is
strictly sorted by `zless` ends and leaves a valid tree, with the node inserted
into the sorted sequence and everything else as it was. The sequence is
strictly sorted again if the scores are numbers and no present node has the
score and the name of the new one. -/
theorem avl_insertion (z : ZSet) (t : BinaryTree Ptr) (x : Ptr) (h : AvlExact z.tree z.root t)
    (hsmall : (inorder t).length < 2 ^ 32 - 1)
    (hsort : (inorder t).Pairwise (fun a b => zless z a b = true))
    (hfresh : x ∉ inorder t) (hinit : z.tree x = avlInit z.tree x x) :
    ∃ m root t', treeInsert z x = some { z with tree := m, root := some root } ∧
      AvlExact m (some root) t' ∧
      inorder t' = (inorder t).orderedInsert (fun a b => zless z a b = true) x ∧
      (∀ p ∉ x :: inorder t, m p = z.tree p) ∧
      ((∀ p ∈ x :: inorder t, (z.node p).score.isnan = false) →
        (∀ p ∈ inorder t, ¬ ((z.node p).score.eq (z.node x).score = true ∧
          (z.node p).name = (z.node x).name)) →
        (inorder t').Pairwise (fun a b => zless z a b = true)) := by
  have hmono : (inorder t).Pairwise (fun a b => zless z x a = true → zless z x b = true) :=
    hsort.imp (fun hab hxa => zless_trans hxa hab)
  have hcell : z.tree x = { height := 1, cnt := 1 } := by
    rw [hinit, avlInit, Function.update_self]
  obtain ⟨m, root, t', b, a, hrun, hval, hin, hin', hb, ha, hframe⟩ :=
    treeInsert_place (avlExact_iff.mp h).1 hmono hfresh (by rw [hcell]) (by rw [hcell])
  have hlen : (inorder t').length = (inorder t).length + 1 := by
    rw [hin', hin, List.length_append, List.length_append, List.length_cons]
    omega
  refine ⟨m, root, t', hrun, avlExact_iff.mpr ⟨hval, by omega⟩, ?_, ?_, ?_⟩
  · rw [hin, hin', orderedInsert_between hb ha]
  · intro p hp
    apply hframe
    rw [hin']
    simp only [hin, List.mem_cons, List.mem_append, not_or] at hp ⊢
    exact ⟨hp.2.1, hp.1, hp.2.2⟩
  · intro hnum hne
    have hx := hnum x List.mem_cons_self
    have hbt : ∀ q ∈ b, q ∈ inorder t := fun q hq => by rw [hin]; exact List.mem_append_left _ hq
    have hbx : ∀ q ∈ b, zless z q x = true := by
      intro q hq
      have hq' := hnum q (List.mem_cons_of_mem x (hbt q hq))
      have hnot := hb q hq
      rw [zless_iff hx hq', not_lt] at hnot
      rw [zless_iff hq' hx]
      refine lt_of_le_of_ne hnot ?_
      intro he
      obtain ⟨hs, hn⟩ := Prod.ext_iff.mp (toLex.injective he)
      exact hne q (hbt q hq) ⟨(Double.eq_iff hq' hx).mpr hs, codes_injective hn⟩
    rw [hin']
    exact pairwise_between (hin ▸ hsort) hbx ha

/-- A set of the names 1, 2 and 3 at the addresses of these numbers, and a node
at address 5 that is not yet in it. -/
def threeMembers (hmap : HashMap Ptr) : ZSet :=
  { root := some 2
    hmap := hmap
    tree := avlInit threeNodes 5
    node := fun p => { name := [UInt8.ofNat p] } }

/-- The name 5 is inserted. -/
theorem avl_insertion_last : ∃ hmap m root t',
    treeInsert (threeMembers hmap) 5 = some { threeMembers hmap with tree := m, root := some root } ∧
      AvlExact m (some root) t' ∧ inorder t' = [1, 2, 3, 5] := by
  obtain ⟨hmap, -⟩ := HashMap.new_holds (fun _ : Ptr => ([] : Bytes)) strHash
  have hexact : AvlExact (threeMembers hmap).tree (threeMembers hmap).root
      (node 2 (node 1 .nil .nil) (node 3 .nil .nil)) := by
    refine ⟨rfl, ⟨rfl, ⟨rfl, trivial, trivial⟩, rfl, trivial, trivial⟩, ?_, by decide, by decide⟩
    simp [AvlTree.Balanced]
  have hless : ∀ a b, zless (threeMembers hmap) a b =
      zlessTuple { name := [UInt8.ofNat a] } ⟨0⟩ [UInt8.ofNat b] := fun _ _ => rfl
  have hsort : (inorder (node 2 (node 1 .nil .nil) (node 3 .nil .nil))).Pairwise
      (fun a b => zless (threeMembers hmap) a b = true) := by
    simp only [hless]
    decide
  obtain ⟨m, root, t', hrun, h', hin, -⟩ :=
    avl_insertion (threeMembers hmap) _ 5 hexact (by decide) hsort (by decide) rfl
  refine ⟨hmap, m, root, t', hrun, h', hin.trans ?_⟩
  simp only [hless]
  decide

/-! ## The invariant -/

/-- The two indexes of a set whose tree is `t`. -/
structure ZSet.Inv (z : ZSet) (t : BinaryTree Ptr) : Prop where
  tree : AvlValid z.tree z.root t
  sorted : (inorder t).Pairwise (fun a b => z.key a < z.key b)
  number : ∀ p ∈ inorder t, (z.node p).score.isnan = false
  hashed : ∀ p ∈ inorder t, (z.node p).hashCode = strHash (z.node p).name
  index : HashMap.Holds z.nameOf strHash z.hmap (inorder t).toFinset
  live : ∀ p, z.live p = true ↔ p ∈ inorder t
  fresh : ∀ p ∈ inorder t, p < z.next

theorem ZSet.Inv.paired (h : z.Inv t) : z.Paired t :=
  ⟨h.tree, h.hashed, h.index, h.live, h.fresh⟩

theorem ZSet.Paired.inv (h : z.Paired t)
    (hsort : (inorder t).Pairwise (fun a b => z.key a < z.key b))
    (hnum : ∀ p ∈ inorder t, (z.node p).score.isnan = false) : z.Inv t :=
  ⟨h.tree, hsort, hnum, h.hashed, h.index, h.live, h.fresh⟩

theorem ZSet.Inv.name_inj (h : z.Inv t) {a b : Ptr} (ha : a ∈ inorder t) (hb : b ∈ inorder t)
    (hab : (z.node a).name = (z.node b).name) : a = b := h.paired.name_inj ha hb hab

theorem ZSet.new_inv : ∃ z, ZSet.new = some z ∧ z.Inv .nil := by
  obtain ⟨z, hz, h⟩ := ZSet.new_paired
  exact ⟨z, hz, h.inv (by simp) (by simp)⟩

/-- **`zset_lookup`** finds the node of the name, and only moves nodes of the
hash index about. -/
theorem zsetLookup_spec (h : z.Inv t) (name : Bytes) :
    ∃ hm r, zsetLookup z name = some ({ z with hmap := hm }, r) ∧
      ZSet.Inv { z with hmap := hm } t ∧
      ∀ p, r = some p ↔ p ∈ inorder t ∧ (z.node p).name = name := by
  obtain ⟨hm, r, hrun, hh, hr⟩ := h.paired.lookup name
  exact ⟨hm, r, hrun, (h.paired.withIndex hh).inv h.sorted h.number, hr⟩

/-- Other nodes come with other keys. -/
theorem ZSet.key_ne {a b : Ptr} (h : (z.node a).name ≠ (z.node b).name) : z.key a ≠ z.key b := by
  intro hab
  have hcodes := congrArg Prod.snd (congrArg ofLex hab)
  exact h (codes_injective hcodes)

/-- The order of the nodes does not change with memory elsewhere. -/
theorem sorted_congr {z₁ : ZSet} (h : (inorder t).Pairwise (fun a b => z.key a < z.key b))
    (hsame : ∀ q ∈ inorder t, z₁.node q = z.node q) :
    (inorder t).Pairwise (fun a b => z₁.key a < z₁.key b) := by
  refine h.imp_of_mem ?_
  intro a b ha hb hab
  rw [ZSet.key, ZSet.key, hsame a ha, hsame b hb]
  exact hab

/-- The order of the nodes that a deletion leaves. -/
theorem ZSet.Inv.sorted_eraseBy (h : z.Inv t) (hp : p ∈ inorder t) :
    (inorder (eraseBy (· == p) t)).Pairwise (fun a b => z.key a < z.key b) := by
  obtain ⟨b, a, hin, hin'⟩ := inorder_eraseBy (q := (· == p)) hp (fun _ _ => beq_iff_eq)
  rw [hin']
  exact (hin ▸ h.sorted).sublist (by simp)

/-- **`zset_update`** moves the node to the place of its new score; a score
that compares equal to the old one is not stored. -/
theorem zsetUpdate_spec (h : z.Inv t) (hp : p ∈ inorder t) {score : Double}
    (hs : score.isnan = false) :
    ∃ z' t', zsetUpdate z p score = some z' ∧ z'.Inv t' ∧ (inorder t').Perm (inorder t) ∧
      z'.node = Function.update z.node p
        { z.node p with
          score := if (z.node p).score.eq score then (z.node p).score else score } := by
  by_cases heq : (z.node p).score.eq score = true
  · refine ⟨z, t, by rw [zsetUpdate, if_pos heq], h, List.Perm.refl _, ?_⟩
    rw [if_pos heq, Function.update_eq_self]
  · obtain ⟨z', hrun, hnode, hpair⟩ := h.paired.update hp heq
    have hmem : ∀ q, q ∈ inorder (eraseBy (· == p) t) ↔ q ∈ inorder t ∧ q ≠ p :=
      fun q => mem_eraseBy h.tree.nodup hp
    have hother : ∀ q, q ≠ p → z'.node q = z.node q := by
      intro q hq
      rw [hnode, Function.update_of_ne hq]
    have hself : (z'.node p).score = score ∧ (z'.node p).name = (z.node p).name := by
      rw [hnode, Function.update_self]
      exact ⟨rfl, rfl⟩
    have hsort := insertBy_sorted (z := z') (x := p)
      (sorted_congr (h.sorted_eraseBy hp) (fun q hq => hother q ((hmem q).mp hq).2))
      (fun q hq => by
        rw [hother q ((hmem q).mp hq).2]
        exact h.number q ((hmem q).mp hq).1)
      (by rw [hself.1]; exact hs)
      (fun q hq => by
        obtain ⟨hq, hqp⟩ := (hmem q).mp hq
        apply ZSet.key_ne
        rw [hother q hqp, hself.2]
        exact fun hn => hqp (h.name_inj hq hp hn))
    have hperm := inorder_move_perm (zless z' p) hp
    refine ⟨z', _, hrun, hpair.inv hsort ?_, hperm, ?_⟩
    · intro q hq
      by_cases hqp : q = p
      · rw [hqp, hself.1]
        exact hs
      · rw [hother q hqp]
        exact h.number q (hperm.mem_iff.mp hq)
    · rw [hnode, if_neg heq]

/-- **`zset_delete`** of a member passes its assertion and takes the node out
of both indexes. -/
theorem zsetDelete_spec (h : z.Inv t) (hp : p ∈ inorder t) :
    ∃ z' t' b a, zsetDelete z p = some z' ∧ z'.Inv t' ∧ z'.node = z.node ∧
      inorder t = b ++ p :: a ∧ inorder t' = b ++ a := by
  obtain ⟨z', hrun, hnode, hpair⟩ := h.paired.delete hp
  obtain ⟨b, a, hin, hin'⟩ := inorder_eraseBy (q := (· == p)) hp (fun _ _ => beq_iff_eq)
  refine ⟨z', _, b, a, hrun, hpair.inv ?_ ?_, hnode, hin, hin'⟩
  · exact sorted_congr (h.sorted_eraseBy hp) (fun q _ => by rw [hnode])
  · intro q hq
    rw [hnode]
    exact h.number q ((mem_eraseBy h.tree.nodup hp).mp hq).1

/-- A new member is put into both indexes. -/
theorem zsetAdd_spec (h : z.Inv t) (name : Bytes) {score : Double} (hs : score.isnan = false)
    (hname : ∀ p ∈ inorder t, (z.node p).name ≠ name) :
    ∃ hm z' t',
      z.hmap.insert { ptr := z.next, hashCode := strHash name } = some hm ∧
      treeInsert { (znodeNew z name score).1 with hmap := hm } z.next = some z' ∧ z'.Inv t' ∧
      (inorder t').Perm (z.next :: inorder t) ∧
      z'.node = Function.update z.node z.next
        { hashCode := strHash name, score := score, name := name } := by
  obtain ⟨hm, z', hins, hti, hnode, hpair⟩ := h.paired.add name score hname
  have hother : ∀ q ∈ inorder t, z'.node q = z.node q := by
    intro q hq
    rw [hnode, Function.update_of_ne (Nat.ne_of_lt (h.fresh q hq))]
  have hself : (z'.node z.next).score = score ∧ (z'.node z.next).name = name := by
    rw [hnode, Function.update_self]
    exact ⟨rfl, rfl⟩
  have hnum : ∀ q ∈ inorder t, (z'.node q).score.isnan = false := by
    intro q hq
    rw [hother q hq]
    exact h.number q hq
  have hsort := insertBy_sorted (z := z') (x := z.next) (sorted_congr h.sorted hother) hnum
    (by rw [hself.1]; exact hs)
    (fun q hq => by
      apply ZSet.key_ne
      rw [hother q hq, hself.2]
      exact hname q hq)
  refine ⟨hm, z', _, hins, hti, hpair.inv hsort ?_, inorder_insertBy_perm _ _ _, hnode⟩
  intro q hq
  rcases mem_insertBy.mp hq with rfl | hq
  · rw [hself.1]
    exact hs
  · exact hnum q hq

/-! ## The content as a finite map -/

/-- A finite map from names to scores. -/
abbrev Members := Finmap (fun _ : Bytes => Double)

/-- What adding a (score, name) tuple means: a score that compares equal to
the one there leaves it alone. -/
def Members.add (s : Members) (name : Bytes) (score : Double) : Members :=
  match s.lookup name with
  | none => s.insert name score
  | some old => if old.eq score then s else s.insert name score

/-- The nodes of `t` carry the map. -/
def ZSet.Carries (z : ZSet) (t : BinaryTree Ptr) (s : Members) : Prop :=
  ∀ name score, s.lookup name = some score ↔
    ∃ p ∈ inorder t, (z.node p).name = name ∧ (z.node p).score = score

/-- A set in order, with the map as its content. -/
def ZSet.Shows (z : ZSet) (s : Members) : Prop := ∃ t, z.Inv t ∧ z.Carries t s

variable {s : Members} {name : Bytes}

theorem ZSet.new_shows : ∃ z, ZSet.new = some z ∧ z.Shows ∅ := by
  obtain ⟨z, hz, hi⟩ := ZSet.new_inv
  exact ⟨z, hz, .nil, hi, by simp [ZSet.Carries]⟩

theorem ZSet.Carries.lookup_of_mem (hc : z.Carries t s) (hp : p ∈ inorder t) :
    s.lookup (z.node p).name = some (z.node p).score := (hc _ _).mpr ⟨p, hp, rfl, rfl⟩

theorem ZSet.Carries.lookup_none (hc : z.Carries t s) :
    s.lookup name = none ↔ ∀ p ∈ inorder t, (z.node p).name ≠ name := by
  constructor
  · intro hn p hp he
    have := hc.lookup_of_mem hp
    rw [he, hn] at this
    cases this
  · intro hn
    by_contra hne
    obtain ⟨score, hsc⟩ := Option.ne_none_iff_exists'.mp hne
    obtain ⟨p, hp, he, -⟩ := (hc _ _).mp hsc
    exact hn p hp he

/-- The answer of `zset_lookup` on the map. -/
theorem zsetLookup_shows (h : z.Shows s) (name : Bytes) :
    ∃ z' r, zsetLookup z name = some (z', r) ∧ z'.Shows s ∧
      r.map (fun p => (z'.node p).score) = s.lookup name ∧
      ∀ p, r = some p → ∃ t, z'.Inv t ∧ z'.Carries t s ∧ p ∈ inorder t ∧
        (z'.node p).name = name := by
  obtain ⟨t, hi, hc⟩ := h
  obtain ⟨hm, r, hrun, hi', hr⟩ := zsetLookup_spec hi name
  refine ⟨_, r, hrun, ⟨t, hi', hc⟩, ?_, ?_⟩
  · cases r with
    | none =>
      symm
      apply hc.lookup_none.mpr
      intro p hp he
      cases (hr p).mpr ⟨hp, he⟩
    | some p =>
      obtain ⟨hp, rfl⟩ := (hr p).mp rfl
      exact (hc.lookup_of_mem hp).symm
  · intro p hp
    exact ⟨t, hi', hc, ((hr p).mp hp).1, ((hr p).mp hp).2⟩

/-- The map after a node of `p` is written, where `p` is the only node of the
name, or a new one. -/
theorem ZSet.Carries.put {n : ZNode} {t' : BinaryTree Ptr} (hc : z.Carries t s)
    (hnode : z'.node = Function.update z.node p n)
    (hmem : ∀ q, q ∈ inorder t' ↔ q = p ∨ q ∈ inorder t)
    (hname : ∀ q ∈ inorder t, (z.node q).name = n.name ↔ q = p) :
    z'.Carries t' (s.insert n.name n.score) := by
  intro nm sc
  rw [hnode]
  by_cases hnm : nm = n.name
  · subst hnm
    rw [Finmap.lookup_insert]
    constructor
    · rintro ⟨⟩
      exact ⟨p, (hmem p).mpr (.inl rfl), by simp, by simp⟩
    · rintro ⟨q, hq, hqn, hqs⟩
      have hqp : q = p := by
        by_contra hne
        rw [Function.update_of_ne hne] at hqn
        exact hne ((hname q (((hmem q).mp hq).resolve_left hne)).mp hqn)
      subst hqp
      simpa using hqs
  · rw [Finmap.lookup_insert_of_ne _ hnm, hc nm sc]
    constructor
    · rintro ⟨q, hq, hqn, hqs⟩
      have hqp : q ≠ p := by
        rintro rfl
        exact hnm (hqn.symm.trans ((hname q hq).mpr rfl))
      refine ⟨q, (hmem q).mpr (.inr hq), ?_⟩
      rw [Function.update_of_ne hqp]
      exact ⟨hqn, hqs⟩
    · rintro ⟨q, hq, hqn, hqs⟩
      have hqp : q ≠ p := by
        rintro rfl
        rw [Function.update_self] at hqn
        exact hnm hqn.symm
      rw [Function.update_of_ne hqp] at hqn hqs
      exact ⟨q, ((hmem q).mp hq).resolve_left hqp, hqn, hqs⟩

/-- **`zset_insert`** on the map. -/
theorem zsetInsert_shows (h : z.Shows s) {score : Double} (hs : score.isnan = false)
    (name : Bytes) :
    ∃ z', zsetInsert z name score = some (z', (s.lookup name).isNone) ∧
      z'.Shows (s.add name score) := by
  obtain ⟨z₁, r, hrun, ⟨t, hi, hc⟩, hsc, hfound⟩ := zsetLookup_shows h name
  cases r with
  | none =>
    have hnone : s.lookup name = none := hsc.symm
    have hnew := hc.lookup_none.mp hnone
    obtain ⟨hm, z', t', hins, hti, hi', hperm, hnode⟩ := zsetAdd_spec hi name hs hnew
    refine ⟨z', ?_, t', hi', ?_⟩
    · rw [zsetInsert_new hrun hins, hti, hnone]
      rfl
    · rw [Members.add, hnone]
      refine hc.put hnode (fun q => by rw [hperm.mem_iff, List.mem_cons]) ?_
      intro q hq
      constructor
      · intro hn
        exact absurd hn (hnew q hq)
      · intro he
        exact absurd he (Nat.ne_of_lt (hi.fresh q hq))
  | some p =>
    obtain ⟨t, hi, hc, hp, hpn⟩ := hfound p rfl
    obtain ⟨z', t', hupd, hi', hperm, hnode⟩ := zsetUpdate_spec hi hp hs
    have hlook : s.lookup name = some (z₁.node p).score := hsc.symm
    refine ⟨z', ?_, t', hi', ?_⟩
    · rw [zsetInsert_old hrun, hupd, hlook]
      rfl
    · rw [Members.add, hlook]
      by_cases heq : (z₁.node p).score.eq score = true
      · -- nothing is written
        simp only [if_pos heq] at hnode ⊢
        rw [Function.update_eq_self] at hnode
        intro nm sc
        rw [hc nm sc, hnode]
        simp only [hperm.mem_iff]
      · simp only [if_neg heq] at hnode ⊢
        rw [← hpn]
        refine hc.put hnode (fun q => ?_) ?_
        · rw [hperm.mem_iff]
          exact ⟨.inr, fun hq => hq.elim (fun he => he ▸ hp) id⟩
        · intro q hq
          exact ⟨hi.name_inj hq hp, fun he => by rw [he]⟩

/-- **`zset_delete`** on the map. -/
theorem zsetDelete_shows (hi : z.Inv t) (hc : z.Carries t s) (hp : p ∈ inorder t) :
    ∃ z', zsetDelete z p = some z' ∧ z'.Shows (s.erase (z.node p).name) := by
  obtain ⟨z', t', b, a, hrun, hi', hnode, hin, hin'⟩ := zsetDelete_spec hi hp
  have hnd := hi.tree.nodup
  rw [hin] at hnd
  have hmem : ∀ q, q ∈ inorder t' ↔ q ∈ inorder t ∧ q ≠ p := by
    intro q
    rw [hin, hin']
    simp only [List.nodup_append, List.nodup_cons, List.mem_cons, List.mem_append] at hnd ⊢
    grind
  refine ⟨z', hrun, t', hi', ?_⟩
  intro nm sc
  rw [hnode]
  by_cases hnm : nm = (z.node p).name
  · subst hnm
    simp only [Finmap.lookup_erase, reduceCtorEq, false_iff, not_exists, not_and]
    intro q hq hqn _
    obtain ⟨hq, hqp⟩ := (hmem q).mp hq
    exact hqp (hi.name_inj hq hp hqn)
  · rw [Finmap.lookup_erase_ne hnm, hc nm sc]
    constructor
    · rintro ⟨q, hq, hqn, hqs⟩
      exact ⟨q, (hmem q).mpr ⟨hq, fun he => hnm (by rw [← hqn, he])⟩, hqn, hqs⟩
    · rintro ⟨q, hq, hqn, hqs⟩
      exact ⟨q, ((hmem q).mp hq).1, hqn, hqs⟩

end ByoRedis
