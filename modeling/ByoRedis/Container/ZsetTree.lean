import ByoRedis.Lib.Run
import ByoRedis.Container.ZsetPaired

/-!
# Container — a sorted set as a pure tree

What the calls of `zset.h` answer depends on the tree of the members' contents
only: not on the addresses of the nodes, not on the state of the hash index.
`treeCall` computes the answers on such a tree; a `ZSet` refines it, whatever
the scores are.
-/

namespace ByoRedis

open BinaryTree AvlTree CString Run

/-- The calls. The node of a `delete` is given by its name: a caller has a
pointer to it from an earlier lookup or search. -/
inductive ZCall where
  | insert (name : Bytes) (score : Double)
  | lookup (name : Bytes)
  | delete (name : Bytes)
  | seekge (score : Double) (name : Bytes)
deriving DecidableEq

/-- What a caller sees: whether a member was added or deleted, or the score
and the name at the pointer, unless it is null. -/
inductive ZAnswer where
  | changed (b : Bool)
  | member (m : Option (Double × Bytes))
deriving DecidableEq

/-- What a caller can read of a node. -/
def ZNode.view (n : ZNode) : Double × Bytes := (n.score, n.name)

/-- One call. The lookup in a `delete` finds the pointer that the caller
already has; it leaves no trace in the set. -/
def zcall (z : ZSet) : ZCall → Option (ZSet × ZAnswer)
  | .insert name score => (zsetInsert z name score).map (fun (z, added) => (z, .changed added))
  | .lookup name =>
    (zsetLookup z name).map (fun (z, p) => (z, .member (p.map (fun p => (z.node p).view))))
  | .delete name => do
    match ← zsetLookup z name with
    | (_, none) => some (z, .changed false)
    | (_, some found) => (zsetDelete z found).map (fun z => (z, .changed true))
  | .seekge score name =>
    (zsetSeekge z score name).map (fun p => (z, .member (p.map (fun p => (z.node p).view))))

/-- A sequence of calls on `ZSet zset;`. -/
def zcallAll (calls : List ZCall) : Option (ZSet × List ZAnswer) :=
  match ZSet.new with
  | none => none
  | some z => run zcall z calls

/-! ## The tree of the contents -/

/-- The member of a name. -/
def treeFind (T : BinaryTree ZNode) (name : Bytes) : Option ZNode :=
  (inorder T).find? (fun n => n.name = name)

/-- Insertion by (score, name), as `zless` compares. -/
def treePut (T : BinaryTree ZNode) (n : ZNode) : BinaryTree ZNode :=
  insertBy (fun m => zlessTuple n m.score m.name) n T

/-- Deletion by name. -/
def treeDrop (T : BinaryTree ZNode) (name : Bytes) : BinaryTree ZNode :=
  eraseBy (fun n => n.name = name) T

/-- What a call does to the tree of the contents, and its answer. -/
def treeCall (T : BinaryTree ZNode) : ZCall → BinaryTree ZNode × ZAnswer
  | .insert name score =>
    match treeFind T name with
    | none => (treePut T { hashCode := strHash name, score := score, name := name }, .changed true)
    | some n =>
      if n.score.eq score then (T, .changed false)
      else (treePut (treeDrop T name) { n with score := score }, .changed false)
  | .lookup name => (T, .member ((treeFind T name).map ZNode.view))
  | .delete name =>
    match treeFind T name with
    | none => (T, .changed false)
    | some _ => (treeDrop T name, .changed true)
  | .seekge score name =>
    (T, .member ((seek (fun n => zlessTuple n score name) none T).map ZNode.view))

/-- `treeCall` as the step of a component. -/
def treeStep (T : BinaryTree ZNode) (call : ZCall) : Option (BinaryTree ZNode × ZAnswer) :=
  some (treeCall T call)

/-- The two indexes agree, and the nodes have the contents of the tree. -/
def ZSet.Looks (z : ZSet) (T : BinaryTree ZNode) : Prop := ∃ t, z.Paired t ∧ T = t.map z.node

variable {z z' : ZSet} {t : BinaryTree Ptr} {T : BinaryTree ZNode} {p : Ptr}

/-- A search that is told the only element it could find finds it. -/
theorem find?_eq_of_unique {α : Type} {xs : List α} {q : α → Bool} {r : Option α}
    (h : ∀ a, r = some a ↔ a ∈ xs ∧ q a = true) : xs.find? q = r := by
  cases hf : xs.find? q with
  | none =>
    cases r with
    | none => rfl
    | some a =>
      obtain ⟨ha, hq⟩ := (h a).mp rfl
      exact absurd hq (List.find?_eq_none.mp hf a ha)
  | some a => exact ((h a).mpr ⟨List.mem_of_find?_eq_some hf, List.find?_some hf⟩).symm

/-- What the lookup by name finds in the tree of the contents. -/
theorem treeFind_map {r : Option Ptr} {name : Bytes}
    (h : ∀ p, r = some p ↔ p ∈ inorder t ∧ (z.node p).name = name) :
    treeFind (t.map z.node) name = r.map z.node := by
  rw [treeFind, inorder_map, List.find?_map]
  congr 1
  apply find?_eq_of_unique
  intro p
  rw [h p, Function.comp_apply, decide_eq_true_iff]

/-- Taking out a node is taking out its name. -/
theorem ZSet.Paired.treeDrop_eq (h : z.Paired t) (hp : p ∈ inorder t) :
    treeDrop (t.map z.node) (z.node p).name = (eraseBy (· == p) t).map z.node := by
  rw [treeDrop, ← map_eraseBy]
  congr 1
  apply eraseBy_congr
  intro q hq
  rw [Bool.eq_iff_iff, decide_eq_true_iff, beq_iff_eq]
  exact ⟨h.name_inj hq hp, fun he => by rw [he]⟩

/-- Putting in a node is putting in its contents. -/
theorem treePut_eq : treePut (t.map z.node) (z.node p) = (insertBy (zless z p) p t).map z.node :=
  (map_insertBy z.node (fun m => zlessTuple (z.node p) m.score m.name) p t).symm

/-! ## The set refines the tree -/

theorem ZSet.Looks.insert (h : z.Looks T) (name : Bytes) (score : Double) :
    ∃ z', zcall z (.insert name score) = some (z', (treeCall T (.insert name score)).2) ∧
      z'.Looks (treeCall T (.insert name score)).1 := by
  obtain ⟨t, hz, rfl⟩ := h
  obtain ⟨hm, r, hlook, hh, hr⟩ := hz.lookup name
  have hz₁ := hz.withIndex hh
  have hfind := treeFind_map hr
  cases r with
  | none =>
    have hname : ∀ p ∈ inorder t, (z.node p).name ≠ name := by
      intro p hp hn
      cases (hr p).mpr ⟨hp, hn⟩
    obtain ⟨hm', z', hins, hti, hnode, hz'⟩ := hz₁.add name score hname
    have hsame : t.map z.node = t.map z'.node := by
      apply map_congr_mem
      intro q hq
      rw [hnode, Function.update_of_ne (Nat.ne_of_lt (hz.fresh q hq))]
    refine ⟨z', ?_, _, hz', ?_⟩
    · rw [zcall, zsetInsert_new hlook hins, hti, treeCall, hfind]
      rfl
    · rw [treeCall, hfind, ← treePut_eq, ← hsame, hnode]
      simp only [Option.map_none, Function.update_self]
  | some p =>
    obtain ⟨hp, hn⟩ := (hr p).mp rfl
    by_cases heq : (z.node p).score.eq score = true
    · refine ⟨{ z with hmap := hm }, ?_, t, hz₁, ?_⟩
      · rw [zcall, zsetInsert_old hlook, zsetUpdate, if_pos heq, treeCall, hfind]
        simp only [Option.map_some, if_pos heq]
      · rw [treeCall, hfind]
        simp only [Option.map_some, if_pos heq]
    · obtain ⟨z', hupd, hnode, hz'⟩ := hz₁.update hp heq
      have hsame : (eraseBy (· == p) t).map z.node = (eraseBy (· == p) t).map z'.node := by
        apply map_congr_mem
        intro q hq
        rw [hnode, Function.update_of_ne ((mem_eraseBy hz.tree.nodup hp).mp hq).2]
      refine ⟨z', ?_, _, hz', ?_⟩
      · rw [zcall, zsetInsert_old hlook, hupd, treeCall, hfind]
        simp only [Option.map_some, if_neg heq]
      · rw [treeCall, hfind, ← treePut_eq, ← hsame, ← hz.treeDrop_eq hp, hnode, hn]
        simp only [Option.map_some, if_neg heq, Function.update_self]

theorem ZSet.Looks.lookup (h : z.Looks T) (name : Bytes) :
    ∃ z', zcall z (.lookup name) = some (z', (treeCall T (.lookup name)).2) ∧
      z'.Looks (treeCall T (.lookup name)).1 := by
  obtain ⟨t, hz, rfl⟩ := h
  obtain ⟨hm, r, hlook, hh, hr⟩ := hz.lookup name
  refine ⟨{ z with hmap := hm }, ?_, t, hz.withIndex hh, rfl⟩
  rw [zcall, hlook, treeCall, treeFind_map hr, Option.map_map]
  rfl

theorem ZSet.Looks.delete (h : z.Looks T) (name : Bytes) :
    ∃ z', zcall z (.delete name) = some (z', (treeCall T (.delete name)).2) ∧
      z'.Looks (treeCall T (.delete name)).1 := by
  obtain ⟨t, hz, rfl⟩ := h
  obtain ⟨hm, r, hlook, -, hr⟩ := hz.lookup name
  have hfind := treeFind_map hr
  cases r with
  | none =>
    refine ⟨z, ?_, t, hz, ?_⟩
    · simp only [zcall, hlook, Option.bind_eq_bind, Option.bind_some, treeCall, hfind,
        Option.map_none]
    · rw [treeCall, hfind]
      rfl
  | some p =>
    obtain ⟨hp, hn⟩ := (hr p).mp rfl
    obtain ⟨z', hdel, hnode, hz'⟩ := hz.delete hp
    refine ⟨z', ?_, _, hz', ?_⟩
    · simp only [zcall, hlook, Option.bind_eq_bind, Option.bind_some, hdel, Option.map_some,
        treeCall, hfind]
    · rw [treeCall, hfind, hnode, ← hz.treeDrop_eq hp, hn]
      rfl

theorem ZSet.Looks.seekge (h : z.Looks T) (score : Double) (name : Bytes) :
    ∃ z', zcall z (.seekge score name) = some (z', (treeCall T (.seekge score name)).2) ∧
      z'.Looks (treeCall T (.seekge score name)).1 := by
  obtain ⟨t, hz, rfl⟩ := h
  refine ⟨z, ?_, t, hz, rfl⟩
  have hmap := map_seek z.node (fun n => zlessTuple n score name) none t
  rw [Option.map_none] at hmap
  rw [zcall, hz.seekge, treeCall, ← hmap, Option.map_map]
  rfl

/-- One call. -/
theorem zcall_refines (h : z.Looks T) (call : ZCall) :
    ∃ z', zcall z call = some (z', (treeCall T call).2) ∧ z'.Looks (treeCall T call).1 := by
  cases call with
  | insert name score => exact h.insert name score
  | lookup name => exact h.lookup name
  | delete name => exact h.delete name
  | seekge score name => exact h.seekge score name

/-- **A set is its tree of contents.** Every sequence of calls on a set
answers what it answers on the tree, and never fails. -/
theorem zcall_run_refines (h : z.Looks T) (calls : List ZCall) :
    ∃ z' answers T', run zcall z calls = some (z', answers) ∧
      run treeStep T calls = some (T', answers) ∧ z'.Looks T' := by
  have hstep : ∀ (z : ZSet) (T : BinaryTree ZNode) (call : ZCall), z.Looks T → True →
      ∃ z' answer T', zcall z call = some (z', answer) ∧ treeStep T call = some (T', answer) ∧
        z'.Looks T' := by
    intro z T call hz _
    obtain ⟨z', hcall, hz'⟩ := zcall_refines hz call
    exact ⟨z', _, _, hcall, rfl, hz'⟩
  have hadm : Admissible (fun T call answer T' => treeStep T call = some (T', answer))
      (fun _ _ => True) T calls := admissible_of_forall (fun _ _ _ => trivial) T
  obtain ⟨z', answers, T', hrun, hacc, hlooks⟩ := run_simulates hstep h hadm
  exact ⟨z', answers, T', hrun, hacc.run_eq, hlooks⟩

theorem ZSet.new_looks : ∃ z, ZSet.new = some z ∧ z.Looks .nil := by
  obtain ⟨z, hnew, hz⟩ := ZSet.new_paired
  exact ⟨z, hnew, .nil, hz, rfl⟩

theorem zcallAll_refines (calls : List ZCall) :
    ∃ z answers T, zcallAll calls = some (z, answers) ∧
      run treeStep .nil calls = some (T, answers) ∧ z.Looks T := by
  obtain ⟨z₀, hnew, h₀⟩ := ZSet.new_looks
  obtain ⟨z, answers, T, hrun, htree, hz⟩ := zcall_run_refines h₀ calls
  exact ⟨z, answers, T, by simp only [zcallAll, hnew, hrun], htree, hz⟩

end ByoRedis
