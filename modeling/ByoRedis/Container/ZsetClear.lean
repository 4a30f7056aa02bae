import ByoRedis.Container.ZsetTree

/-!
# Container — clearing a sorted set

`zset_clear` frees the nodes and forgets the tree, but the hash index keeps
its pointers to them. As long as `root` is null the shortcut of `zset_lookup`
hides them; the next insertion makes them visible again.
-/

namespace ByoRedis

open BinaryTree AvlTree CString Run

/-- Every later sequence of calls answers what it answers on `ZSet zset;`. -/
def ZSet.SameAsNew (z : ZSet) : Prop :=
  ∀ calls, ∃ z₁ z₂ answers,
    run zcall z calls = some (z₁, answers) ∧ zcallAll calls = some (z₂, answers)

variable {z : ZSet} {t : BinaryTree Ptr} {p : Ptr}

/-- A set without members is as good as new. -/
theorem ZSet.Looks.sameAsNew (h : z.Looks .nil) : z.SameAsNew := by
  intro calls
  obtain ⟨z₁, answers, T, hrun, htree, -⟩ := zcall_run_refines h calls
  obtain ⟨z₂, answers', T', hrun', htree', -⟩ := zcallAll_refines calls
  rw [htree] at htree'
  cases htree'
  exact ⟨z₁, z₂, answers, hrun, hrun'⟩

/-- Clearing a set without members leaves it without members. -/
theorem ZSet.Paired.clear_nil (h : z.Paired .nil) {live : Ptr → Bool} (hlive : ∀ p, live p = false) :
    ZSet.Looks { z with live := live, root := none } .nil :=
  ⟨.nil, ⟨⟨rfl, trivial, trivial, by simp⟩, by simp, h.index, by simp [hlive], by simp⟩, rfl⟩

/-- The leftover of the hash index: after a set with a member is cleared, one
insertion is enough for the lookup to find the freed node. -/
theorem ZSet.Paired.leftover_found (h : z.Paired t) (hp : p ∈ inorder t) (live : Ptr → Bool)
    {name : Bytes} (hname : ∀ q ∈ inorder t, (z.node q).name ≠ name) (score : Double) :
    ∃ z', run zcall { z with live := live, root := none }
        [.insert name score, .lookup (z.node p).name] =
      some (z', [.changed true, .member (some (z.node p).view)]) := by
  let y : ZSet := { z with live := live, root := none }
  have hneq : ∀ q ∈ inorder t, q ≠ z.next := fun q hq => Nat.ne_of_lt (h.fresh q hq)
  obtain ⟨hm, hins, hh⟩ := znodeNew_index (z := y) h.index score
    (fun q hq => hneq q (by simpa using hq)) (fun q hq => hname q (by simpa using hq))
  have hcell : (znodeNew y name score).1.tree z.next = { height := 1, cnt := 1 } :=
    znodeNew_tree y name score
  obtain ⟨m, root, hti, -, -⟩ :=
    treeInsert_spec (z := { (znodeNew y name score).1 with hmap := hm }) (t := .nil) (x := z.next)
      ⟨rfl, trivial, trivial, by simp⟩ (by simp) (by rw [hcell]) (by rw [hcell])
  let z₁ : ZSet := { (znodeNew y name score).1 with hmap := hm, tree := m, root := some root }
  have hinsert : zcall y (.insert name score) = some (z₁, .changed true) := by
    have hlook : zsetLookup y name = some (y, none) := rfl
    rw [zcall, zsetInsert_new hlook hins, hti]
    rfl
  have hnode : z₁.node p = z.node p := Function.update_of_ne (hneq p hp) _ _
  obtain ⟨hm', r, hlook, -, hr⟩ := zsetLookup_index (z := z₁) (by simp [z₁]) hh (z.node p).name
  obtain rfl : r = some p := by
    apply (hr p).mpr
    exact ⟨by simp [hp], by rw [hnode]⟩
  have hlookup : zcall z₁ (.lookup (z.node p).name) =
      some ({ z₁ with hmap := hm' }, .member (some (z.node p).view)) := by
    rw [zcall, hlook, ← hnode]
    rfl
  exact ⟨_, run_cons_some hinsert (run_cons_some hlookup (run_nil _ _))⟩

/-- The same two calls on a new set do not find the name. -/
theorem zcallAll_leftover {a name : Bytes} (hne : name ≠ a) (score : Double) :
    ∃ z, zcallAll [.insert name score, .lookup a] =
      some (z, [.changed true, .member none]) := by
  obtain ⟨z, answers, T, hrun, htree, -⟩ := zcallAll_refines [.insert name score, .lookup a]
  have hanswers : answers = [.changed true, .member none] := by
    simp only [run, treeStep, treeCall, treeFind, treePut, insertBy, leafCtx, fixUp, inorder_nil,
      List.find?_nil, inorder_node, List.nil_append, List.find?_cons, decide_eq_false hne,
      Option.map_none, Option.some.injEq, Prod.mk.injEq] at htree
    exact htree.2.symm
  exact ⟨z, by rw [hrun, hanswers]⟩

/-- After a set with a member is cleared it is not as good as new. -/
theorem ZSet.Paired.not_sameAsNew (h : z.Paired t) (hp : p ∈ inorder t) (live : Ptr → Bool) :
    ¬ ZSet.SameAsNew { z with live := live, root := none } := by
  intro hsame
  obtain ⟨name, hfresh⟩ :=
    Infinite.exists_notMem_finset ((inorder t).map (fun q => (z.node q).name)).toFinset
  have hname : ∀ q ∈ inorder t, (z.node q).name ≠ name := by
    intro q hq hn
    exact hfresh (by simpa using ⟨q, hq, hn⟩)
  obtain ⟨z', hfound⟩ := h.leftover_found hp live hname ⟨0⟩
  obtain ⟨z₀, hnew⟩ := zcallAll_leftover (hname p hp).symm ⟨0⟩
  obtain ⟨z₁, z₂, answers, h₁, h₂⟩ := hsame [.insert name ⟨0⟩, .lookup (z.node p).name]
  rw [hfound] at h₁
  rw [hnew] at h₂
  cases h₁
  cases h₂

/-- **`zset_clear` empties only a set that is empty.** After every sequence of
calls on a new set, of whatever scores, `zset_clear` ends and leaves a null
`root`; the hash index is empty, and every later sequence of calls answers what
it answers on a new set, exactly if the set had no member. -/
theorem zset_clear_empties_iff (calls : List ZCall) :
    ∃ z answers z', zcallAll calls = some (z, answers) ∧ zsetClear z = some z' ∧
      z'.root = none ∧ (z'.hmap.size = 0 ↔ z.root = none) ∧
      (z'.SameAsNew ↔ z.root = none) := by
  obtain ⟨z, answers, T, hrun, -, t, hz, -⟩ := zcallAll_refines calls
  obtain ⟨live, hclear, hlive⟩ := hz.clear
  refine ⟨z, answers, _, hrun, hclear, rfl, ?_, ?_⟩
  · show z.hmap.size = 0 ↔ z.root = none
    rw [hz.tree.root_none, hz.size_eq, List.length_eq_zero_iff]
    cases t <;> simp
  · rw [hz.tree.root_none]
    constructor
    · intro hsame
      cases t with
      | nil => rfl
      | node p l r => exact absurd hsame (hz.not_sameAsNew (p := p) (by simp) live)
    · rintro rfl
      exact (hz.clear_nil hlive).sameAsNew

/-- A set with one member: after `zset_clear` the hash index still counts it,
and it comes back to light. -/
theorem zset_clear_keeps_index :
    ∃ z z', zcallAll [.insert [97] ⟨0⟩] = some (z, [.changed true]) ∧ zsetClear z = some z' ∧
      z'.root = none ∧ z'.hmap.size = 1 ∧ ¬ z'.SameAsNew := by
  obtain ⟨z, answers, T, hrun, htree, t, hz, hT⟩ := zcallAll_refines [.insert [97] ⟨0⟩]
  obtain ⟨rfl, rfl⟩ : node { hashCode := strHash [97], name := [97] } .nil .nil = T ∧
      [.changed true] = answers := by
    simpa [run, treeStep, treeCall, treeFind, treePut, insertBy, leafCtx, fixUp] using htree
  obtain ⟨p, rfl⟩ : ∃ p, t = node p .nil .nil := by
    cases t with
    | nil => cases hT
    | node p l r =>
      injection hT with hp hl hr
      cases l with
      | nil =>
        cases r with
        | nil => exact ⟨p, rfl⟩
        | node a b c => cases hr
      | node a b c => cases hl
  obtain ⟨live, hclear, -⟩ := hz.clear
  exact ⟨z, _, hrun, hclear, rfl, hz.size_eq, hz.not_sameAsNew (p := p) (by simp) live⟩

end ByoRedis
