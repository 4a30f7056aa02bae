import ByoRedis.Lib.Run
import ByoRedis.Container.ZsetInv

/-!
# Container — runs of a sorted set

The calls a client of `zset.h` makes, from the empty set on, against the
score last given to each name.
-/

namespace ByoRedis

open BinaryTree AvlTree CString Run

/-- The calls; `delete` is `zset_delete(zset_lookup(name))`, made only when
the lookup finds a node. -/
inductive ZOp where
  | insert (name : Bytes) (score : Double)
  | delete (name : Bytes)
deriving DecidableEq

/-- One call; the answer is whether a member was added or deleted. -/
def zexec (z : ZSet) : ZOp → Option (ZSet × Bool)
  | .insert name score => zsetInsert z name score
  | .delete name => do
    match ← zsetLookup z name with
    | (z, none) => some (z, false)
    | (z, some found) =>
      let z ← zsetDelete z found
      some (z, true)

/-- A sequence of calls on an empty set. -/
def zexecAll (ops : List ZOp) : Option (ZSet × List Bool) :=
  match ZSet.new with
  | none => none
  | some z => run zexec z ops

/-- The score last given to each name, and whether the name was absent (for
an insertion) or present (for a deletion). -/
def given (g : Bytes → Option Double) : ZOp → (Bytes → Option Double) × Bool
  | .insert name score => (Function.update g name (some score), (g name).isNone)
  | .delete name => (Function.update g name none, (g name).isSome)

/-- The answer and the next state are those of `given`. -/
def givenSpec (g : Bytes → Option Double) (op : ZOp) (o : Bool) (g' : Bytes → Option Double) :
    Prop := given g op = (g', o)

/-- The same number, if any. -/
def SameScore (a b : Option Double) : Prop := Option.Rel (fun x y => x.eq y = true) a b

/-- The set holds the names that `g` has a score for, under that score. -/
def ZSet.Tracks (z : ZSet) (g : Bytes → Option Double) : Prop :=
  ∃ s : Members, z.Shows s ∧ ∀ name, SameScore (s.lookup name) (g name)

/-- The scores of the calls are numbers. -/
def ZOp.Number : ZOp → Prop
  | .insert _ score => score.isnan = false
  | .delete _ => True

theorem Double.eq_refl {d : Double} (h : d.isnan = false) : d.eq d = true := by
  simp [Double.eq, h]

/-- Adding keeps the map in step with the score last given. -/
theorem Members.add_sameScore {s : Members} {g : Bytes → Option Double} {name : Bytes}
    {score : Double} (h : ∀ nm, SameScore (s.lookup nm) (g nm)) (hs : score.isnan = false)
    (nm : Bytes) :
    SameScore ((s.add name score).lookup nm) (Function.update g name (some score) nm) := by
  unfold Members.add
  by_cases hnm : nm = name
  · subst hnm
    rw [Function.update_self]
    split
    · rw [Finmap.lookup_insert]
      exact .some (Double.eq_refl hs)
    · rename_i old hold
      split
      · rename_i heq
        rw [hold]
        exact .some heq
      · rw [Finmap.lookup_insert]
        exact .some (Double.eq_refl hs)
  · rw [Function.update_of_ne hnm]
    split
    · rw [Finmap.lookup_insert_of_ne _ hnm]
      exact h nm
    · split
      · exact h nm
      · rw [Finmap.lookup_insert_of_ne _ hnm]
        exact h nm

theorem SameScore.isNone_eq {a b : Option Double} (h : SameScore a b) : a.isNone = b.isNone := by
  cases h <;> rfl

theorem SameScore.none_iff {a b : Option Double} (h : SameScore a b) : a = none ↔ b = none := by
  cases h <;> simp

/-- One call. -/
theorem zexec_simulates (z : ZSet) (g : Bytes → Option Double) (op : ZOp) (h : z.Tracks g)
    (hop : op.Number) :
    ∃ z' o g', zexec z op = some (z', o) ∧ givenSpec g op o g' ∧ z'.Tracks g' := by
  obtain ⟨s, hz, hg⟩ := h
  cases op with
  | insert name score =>
    obtain ⟨z', hrun, hz'⟩ := zsetInsert_shows hz hop name
    refine ⟨z', _, _, hrun, ?_, _, hz', Members.add_sameScore hg hop⟩
    simp only [givenSpec, given, (hg name).isNone_eq]
  | delete name =>
    obtain ⟨z₁, r, hrun, hz₁, hsc, hfound⟩ := zsetLookup_shows hz name
    cases r with
    | none =>
      have hnone : s.lookup name = none := hsc.symm
      have hgn : g name = none := (hg name).none_iff.mp hnone
      refine ⟨z₁, false, g, by simp [zexec, hrun], ?_, s, hz₁, hg⟩
      simp only [givenSpec, given, hgn, Option.isSome_none, Prod.mk.injEq, and_true]
      rw [← hgn, Function.update_eq_self]
    | some p =>
      obtain ⟨t, hi, hc, hp, hpn⟩ := hfound p rfl
      obtain ⟨z', hdel, hz'⟩ := zsetDelete_shows hi hc hp
      rw [hpn] at hz'
      refine ⟨z', true, Function.update g name none, by simp [zexec, hrun, hdel], ?_, _, hz', ?_⟩
      · have hne : g name ≠ none := by
          intro hgn
          have hnone := (hg name).none_iff.mpr hgn
          rw [← hsc] at hnone
          cases hnone
        simp only [givenSpec, given, Prod.mk.injEq, true_and]
        exact Option.isSome_iff_ne_none.mpr hne
      · intro nm
        by_cases hnm : nm = name
        · subst hnm
          rw [Finmap.lookup_erase, Function.update_self]
          exact .none
        · rw [Finmap.lookup_erase_ne hnm, Function.update_of_ne hnm]
          exact hg nm

/-- **The two indexes of a sorted set agree.** Every sequence of insertions of
numbers and of deletions, from the empty set on, runs without a failed
assertion and answers whether each name was there. After it the hash index
and the tree hold the same nodes, no two of one name; the tree is valid and
strictly sorted by score, then name (bytewise, then by length); its root is
null exactly when the hash index is empty; and `zset_lookup` finds the node
with the score last given to the name, or nothing. -/
theorem zset_dual_index (ops : List ZOp) (hnum : ∀ op ∈ ops, op.Number) :
    ∃ z outs g t, zexecAll ops = some (z, outs) ∧
      Accepts givenSpec (fun _ => none) ops outs g ∧
      AvlValid z.tree z.root t ∧
      (z.hmap.nodes.map HashNode.ptr).Perm (inorder t) ∧
      ((inorder t).map (fun p => (z.node p).name)).Nodup ∧
      (inorder t).Pairwise (fun a b =>
        toLex ((z.node a).score.key, codes (z.node a).name) <
          toLex ((z.node b).score.key, codes (z.node b).name)) ∧
      (z.root = none ↔ z.hmap.size = 0) ∧
      ∀ name, ∃ z' r, zsetLookup z name = some (z', r) ∧
        match g name with
        | none => r = none
        | some score => ∃ p ∈ inorder t, r = some p ∧ (z.node p).name = name ∧
            (z.node p).score.eq score = true := by
  obtain ⟨z₀, hnew, h₀⟩ := ZSet.new_shows
  have htr : z₀.Tracks (fun _ => none) := by
    refine ⟨∅, h₀, ?_⟩
    intro name
    rw [Finmap.lookup_empty]
    exact .none
  obtain ⟨z, outs, g, hrun, hacc, s, ⟨t, hi, hc⟩, hg⟩ :=
    run_simulates zexec_simulates htr (admissible_of_forall (fun op hop _ => hnum op hop) _)
  refine ⟨z, outs, g, t, by simp [zexecAll, hnew, hrun], hacc, hi.tree, ?_, ?_, hi.sorted, ?_, ?_⟩
  · rw [List.perm_ext_iff_of_nodup hi.index.nodup hi.tree.nodup]
    intro p
    rw [← List.mem_toFinset, hi.index.content, List.mem_toFinset]
  · rw [List.nodup_map_iff_inj_on hi.tree.nodup]
    intro a ha b hb hab
    exact hi.name_inj ha hb hab
  · rw [hi.tree.root_none, hi.index.size_eq, Finset.card_eq_zero, List.toFinset_eq_empty_iff]
    cases t <;> simp
  · intro name
    obtain ⟨hm, r, hlook, -, hr⟩ := zsetLookup_spec hi name
    refine ⟨_, r, hlook, ?_⟩
    have hrel := hg name
    cases hgn : g name with
    | none =>
      have hnone : s.lookup name = none := hrel.none_iff.mpr hgn
      show r = none
      cases r with
      | none => rfl
      | some p => exact absurd ((hr p).mp rfl).2 (hc.lookup_none.mp hnone p ((hr p).mp rfl).1)
    | some score =>
      obtain ⟨stored, hs⟩ : ∃ stored, s.lookup name = some stored := by
        apply Option.ne_none_iff_exists'.mp
        intro hnone
        have := hrel.none_iff.mp hnone
        rw [hgn] at this
        cases this
      rw [hgn, hs] at hrel
      obtain ⟨p, hp, hpn, hps⟩ := (hc name stored).mp hs
      cases hrel with
      | some heq => exact ⟨p, hp, (hr p).mpr ⟨hp, hpn⟩, hpn, by rw [hps]; exact heq⟩

/-- Two names of one score, a change of score, and a deletion. -/
theorem zset_dual_index_rescored :
    ∃ z outs g t, zexecAll [.insert [97] ⟨0⟩, .insert [98] ⟨0⟩,
        .insert [97] ⟨0x3ff0000000000000⟩, .delete [98]] = some (z, outs) ∧
      Accepts givenSpec (fun _ => none) [.insert [97] ⟨0⟩, .insert [98] ⟨0⟩,
        .insert [97] ⟨0x3ff0000000000000⟩, .delete [98]] outs g ∧
      AvlValid z.tree z.root t := by
  obtain ⟨z, outs, g, t, h1, h2, h3, -⟩ := zset_dual_index
    [.insert [97] ⟨0⟩, .insert [98] ⟨0⟩, .insert [97] ⟨0x3ff0000000000000⟩, .delete [98]]
    (by
      intro op hop
      fin_cases hop
      · show Double.isnan _ = false
        decide
      · show Double.isnan _ = false
        decide
      · show Double.isnan _ = false
        decide
      · trivial)
  exact ⟨z, outs, g, t, h1, h2, h3⟩

end ByoRedis
