import ByoRedis.Container.AvlExact

/-!
# Container — how far `avl_offset` walks

The comment on `avl_offset` promises a logarithmic worst case, however long the
offset is. The body of its loop is taken out here, and its passes are counted:
it climbs for as long as the target is outside of the subtree, goes down from
then on, and never climbs again.
-/

namespace ByoRedis

/-- One pass of the loop of `avl_offset`: the node and its position, or nothing
when a null pointer is returned. -/
def AvlMem.offsetStep (int64 : Int → Option Int) (m : AvlMem) (node : Ptr) (pos offset : Int) :
    Option (Option (Ptr × Int)) := do
  if ← avlInRight int64 m node pos offset then
    -- the target is inside the right subtree
    let right ← (m node).right
    let pos ← int64 (pos + ((avlCnt m (m right).left + 1) % 2 ^ 32 : Nat))
    some (some (right, pos))
  else if ← avlInLeft int64 m node pos offset then
    -- the target is inside the left subtree
    let left ← (m node).left
    let pos ← int64 (pos - ((avlCnt m (m left).right + 1) % 2 ^ 32 : Nat))
    some (some (left, pos))
  else
    -- go to the parent
    match (m node).parent with
    | none => some none
    | some parent =>
      if (m parent).right = some node then do
        let pos ← int64 (pos - ((avlCnt m (m node).left + 1) % 2 ^ 32 : Nat))
        some (some (parent, pos))
      else do
        let pos ← int64 (pos + ((avlCnt m (m node).right + 1) % 2 ^ 32 : Nat))
        some (some (parent, pos))

/-- `avl_offset`, as long as it takes no more passes than `rounds`. -/
def AvlMem.offsetWithin (int64 : Int → Option Int) (m : AvlMem) (offset : Int) :
    Nat → Ptr → Int → Option (Option Ptr)
  | rounds, node, pos =>
    if offset = pos then some (some node)
    else
      match rounds with
      | 0 => none
      | rounds + 1 => do
        match ← m.offsetStep int64 node pos offset with
        | none => some none
        | some (node, pos) => m.offsetWithin int64 offset rounds node pos

open BinaryTree AvlTree

variable {m : AvlMem} {root par : Option Ptr} {t l r : BinaryTree Ptr} {p q x : Ptr}
  {c : List (Frame Ptr)} {int64 : Int → Option Int} {pos offset : Int} {n k : Nat}
  {res : Option Ptr}

theorem avlOffsetWith_step (h : offset ≠ pos) :
    m.avlOffsetWith int64 p pos offset = (m.offsetStep int64 p pos offset).bind fun
      | none => some none
      | some (q, pos) => m.avlOffsetWith int64 q pos offset := by
  rw [AvlMem.avlOffsetWith.eq_def, if_neg h, AvlMem.offsetStep]
  simp only [Option.bind_eq_bind, Option.bind_assoc]
  congr 1
  funext b
  split
  · simp only [Option.bind_assoc, Option.bind_some]
  · simp only [Option.bind_assoc]
    congr 1
    funext b
    split
    · simp only [Option.bind_assoc, Option.bind_some]
    · cases (m p).parent with
      | none => rfl
      | some q =>
        simp only
        split <;> simp only [Option.bind_assoc, Option.bind_some]

/-- What is found in time is what `avl_offset` finds. -/
theorem offsetWithin_sound (h : m.offsetWithin int64 offset n p pos = some res) :
    m.avlOffsetWith int64 p pos offset = some res := by
  induction n generalizing p pos with
  | zero =>
    rw [AvlMem.offsetWithin] at h
    split at h
    · next he =>
      rw [AvlMem.avlOffsetWith.eq_def, if_pos he]
      exact h
    · cases h
  | succ n ih =>
    rw [AvlMem.offsetWithin] at h
    split at h
    · next he =>
      rw [AvlMem.avlOffsetWith.eq_def, if_pos he]
      exact h
    · next he =>
      rw [avlOffsetWith_step he]
      cases hs : m.offsetStep int64 p pos offset with
      | none => simp [hs] at h
      | some o =>
        simp only [hs, Option.bind_eq_bind, Option.bind_some] at h ⊢
        rcases o with _ | ⟨q, pos'⟩
        · exact h
        · exact ih h

/-! ## One pass -/

theorem offsetWithin_here (h : offset = pos) (n : Nat) :
    m.offsetWithin int64 offset n p pos = some (some p) := by
  cases n with
  | zero => rw [AvlMem.offsetWithin, if_pos h]
  | succ n => rw [AvlMem.offsetWithin, if_pos h]

theorem offsetWithin_move (hne : offset ≠ pos) {pos' : Int}
    (h : m.offsetStep int64 p pos offset = some (some (q, pos'))) (n : Nat) :
    m.offsetWithin int64 offset (n + 1) p pos = m.offsetWithin int64 offset n q pos' := by
  rw [AvlMem.offsetWithin, if_neg hne, h]
  rfl

theorem offsetWithin_end (hne : offset ≠ pos) (h : m.offsetStep int64 p pos offset = some none)
    (n : Nat) : m.offsetWithin int64 offset (n + 1) p pos = some none := by
  rw [AvlMem.offsetWithin, if_neg hne, h]
  rfl

theorem offsetStep_right (hlt : pos < offset) (hle : offset ≤ pos + avlCnt m (m p).right)
    (hq : (m p).right = some q)
    (h64 : int64 (pos + avlCnt m (m p).right) = some (pos + avlCnt m (m p).right))
    (h64' : int64 (pos + ((avlCnt m (m q).left + 1) % 2 ^ 32 : Nat)) =
      some (pos + ((avlCnt m (m q).left + 1) % 2 ^ 32 : Nat))) :
    m.offsetStep int64 p pos offset =
      some (some (q, pos + ((avlCnt m (m q).left + 1) % 2 ^ 32 : Nat))) := by
  have hin : avlInRight int64 m p pos offset = some true := by
    rw [avlInRight, if_pos hlt, h64, Option.map_some, decide_eq_true hle]
  rw [AvlMem.offsetStep]
  simp only [hin, hq, h64', Option.bind_eq_bind, Option.bind_some, if_true]

theorem offsetStep_left (hlt : offset < pos) (hle : pos - avlCnt m (m p).left ≤ offset)
    (hq : (m p).left = some q)
    (h64 : int64 (pos - avlCnt m (m p).left) = some (pos - avlCnt m (m p).left))
    (h64' : int64 (pos - ((avlCnt m (m q).right + 1) % 2 ^ 32 : Nat)) =
      some (pos - ((avlCnt m (m q).right + 1) % 2 ^ 32 : Nat))) :
    m.offsetStep int64 p pos offset =
      some (some (q, pos - ((avlCnt m (m q).right + 1) % 2 ^ 32 : Nat))) := by
  have hnot : avlInRight int64 m p pos offset = some false := by
    rw [avlInRight, if_neg (by omega)]
  have hin : avlInLeft int64 m p pos offset = some true := by
    rw [avlInLeft, if_pos hlt, h64, Option.map_some, decide_eq_true hle]
  rw [AvlMem.offsetStep]
  simp only [hnot, hin, hq, h64', Option.bind_eq_bind, Option.bind_some, if_true,
    Bool.false_eq_true, if_false]

theorem offsetStep_parent
    (hout : pos < offset ∧ pos + avlCnt m (m p).right < offset ∨
      offset < pos ∧ offset < pos - avlCnt m (m p).left)
    (h64 : int64 (pos + avlCnt m (m p).right) = some (pos + avlCnt m (m p).right))
    (h64' : int64 (pos - avlCnt m (m p).left) = some (pos - avlCnt m (m p).left)) :
    m.offsetStep int64 p pos offset =
      match (m p).parent with
      | none => some none
      | some q =>
        (int64 (if (m q).right = some p then pos - ((avlCnt m (m p).left + 1) % 2 ^ 32 : Nat)
          else pos + ((avlCnt m (m p).right + 1) % 2 ^ 32 : Nat))).map fun pos => some (q, pos) := by
  have hright : avlInRight int64 m p pos offset = some false := by
    rw [avlInRight]
    split
    · rw [h64, Option.map_some, decide_eq_false (by omega)]
    · rfl
  have hleft : avlInLeft int64 m p pos offset = some false := by
    rw [avlInLeft]
    split
    · rw [h64', Option.map_some, decide_eq_false (by omega)]
    · rfl
  rw [AvlMem.offsetStep]
  simp only [hright, hleft, Option.bind_eq_bind, Option.bind_some, Bool.false_eq_true, if_false]
  cases (m p).parent with
  | none => rfl
  | some q =>
    simp only
    split <;> rw [Option.map_eq_bind] <;> rfl

/-! ## The walk -/

/-- Down in a subtree with the target, at most once for each level. -/
theorem offsetWithin_down (hexact : ExactUpTo (2 ^ 34) int64)
    (ht : t = node p l r) (hr : Repr m par t) (hsize : t.numNodes < 2 ^ 32)
    (hlo : -2 ^ 33 ≤ pos - l.numNodes) (hhi : pos + r.numNodes ≤ 2 ^ 33)
    (hleft : -l.numNodes ≤ offset - pos) (hright : offset - pos ≤ r.numNodes)
    (hn : t.height ≤ n) : ∃ res, m.offsetWithin int64 offset n p pos = some res := by
  induction t generalizing par p l r pos n with
  | nil => cases ht
  | node p l r ihl ihr =>
    cases ht
    obtain ⟨hcl, hcr⟩ := hr.linked.cnts hsize
    obtain ⟨hp, hl, hr⟩ := hr
    simp only [numNodes] at hsize
    simp only [height] at hn
    obtain ⟨n, rfl⟩ : ∃ n', n = n' + 1 := ⟨n - 1, by omega⟩
    by_cases heq : offset = pos
    · exact ⟨some p, offsetWithin_here heq _⟩
    by_cases hlt : pos < offset
    · cases hr' : r with
      | nil =>
        rw [hr', numNodes] at hright
        omega
      | node q rl rr =>
        have hq : (m p).right = some q := by rw [hp, hr']; rfl
        have hnum : r.numNodes = rl.numNodes + rr.numNodes + 1 := by rw [hr', numNodes]
        obtain ⟨hcq, -⟩ := (hr' ▸ hr).linked.cnts (by rw [numNodes]; omega)
        have hmod : (avlCnt m (m q).left + 1) % 2 ^ 32 = rl.numNodes + 1 := by
          rw [hcq]
          exact Nat.mod_eq_of_lt (by omega)
        have hstep := offsetStep_right hlt (by rw [hcr]; omega) hq
          (hexact _ (by omega)) (hexact _ (by omega))
        rw [offsetWithin_move heq hstep, hmod]
        exact ihr hr' hr (by omega) (by omega) (by omega) (by omega) (by omega) (by omega)
    · cases hl' : l with
      | nil =>
        rw [hl', numNodes] at hleft
        omega
      | node q ll lr =>
        have hq : (m p).left = some q := by rw [hp, hl']; rfl
        have hnum : l.numNodes = ll.numNodes + lr.numNodes + 1 := by rw [hl', numNodes]
        obtain ⟨-, hcq⟩ := (hl' ▸ hl).linked.cnts (by rw [numNodes]; omega)
        have hmod : (avlCnt m (m q).right + 1) % 2 ^ 32 = lr.numNodes + 1 := by
          rw [hcq]
          exact Nat.mod_eq_of_lt (by omega)
        have hstep := offsetStep_left (show offset < pos by omega) (by rw [hcl]; omega) hq
          (hexact _ (by omega)) (hexact _ (by omega))
        rw [offsetWithin_move heq hstep, hmod]
        exact ihl hl' hl (by omega) (by omega) (by omega) (by omega) (by omega) (by omega)

theorem height_le_plug (c : List (Frame Ptr)) (t : BinaryTree Ptr) :
    c.length + t.height ≤ (plug c t).height := by
  induction c generalizing t with
  | nil => simp [plug]
  | cons f fs ih =>
    have := ih (f.plug t)
    cases f <;> simp only [Frame.plug, height, plug, List.length_cons] at this ⊢ <;> omega

/-- Up the path `c`, and down from where the target is below. -/
theorem offsetWithin_up (hexact : ExactUpTo (2 ^ 34) int64)
    (h : Repr m none (plug c (node p l r))) (hnd : (inorder (plug c (node p l r))).Nodup)
    (hsize : (inorder (plug c (node p l r))).length < 2 ^ 32)
    (hlo : -2 ^ 33 ≤ pos - (before c).length - l.numNodes)
    (hhi : pos + r.numNodes + (after c).length ≤ 2 ^ 33)
    (hn : c.length + (plug c (node p l r)).height ≤ n) :
    ∃ res, m.offsetWithin int64 offset n p pos = some res := by
  induction c generalizing p l r pos n with
  | nil =>
    have hnum : (node p l r).numNodes < 2 ^ 32 := by rw [numNodes_eq_length]; exact hsize
    obtain ⟨hcl, hcr⟩ := Linked.cnts (Repr.linked h) hnum
    simp only [before, after, List.length_nil] at hlo hhi hn
    have hn' : (node p l r).height ≤ n := by
      simpa only [plug, Nat.zero_add] using hn
    by_cases hwin : -l.numNodes ≤ offset - pos ∧ offset - pos ≤ r.numNodes
    · exact offsetWithin_down hexact rfl h hnum (by omega) (by omega) hwin.1 hwin.2 hn'
    · -- at the root
      simp only [height] at hn'
      obtain ⟨n, rfl⟩ : ∃ n', n = n' + 1 := ⟨n - 1, by omega⟩
      have hpar : (m p).parent = none := (Repr.linked h).parent
      have hout : pos < offset ∧ pos + avlCnt m (m p).right < offset ∨
          offset < pos ∧ offset < pos - avlCnt m (m p).left := by
        rw [hcl, hcr]
        omega
      have hstep := offsetStep_parent hout (hexact _ (by omega)) (hexact _ (by omega))
      rw [hpar] at hstep
      exact ⟨none, offsetWithin_end (by omega) hstep n⟩
  | cons f fs ih =>
    have hlen : (inorder (plug (f :: fs) (node p l r))).length =
        (before (f :: fs)).length + (l.numNodes + r.numNodes + 1) + (after (f :: fs)).length := by
      rw [inorder_plug, List.length_append, List.length_append, ← numNodes_eq_length, numNodes]
    have hsub : Repr m (ctxPtr (f :: fs)) (node p l r) := (repr_plug.mp h).1
    obtain ⟨hcl, hcr⟩ := hsub.linked.cnts (by rw [numNodes]; omega)
    have hdeep := height_le_plug (f :: fs) (node p l r)
    rw [List.length_cons] at hn hdeep
    by_cases hwin : -l.numNodes ≤ offset - pos ∧ offset - pos ≤ r.numNodes
    · exact offsetWithin_down hexact rfl hsub (by rw [numNodes]; omega) (by omega) (by omega) hwin.1
        hwin.2 (by omega)
    · obtain ⟨n, rfl⟩ : ∃ n', n = n' + 1 := ⟨n - 1, by omega⟩
      have hout : pos < offset ∧ pos + avlCnt m (m p).right < offset ∨
          offset < pos ∧ offset < pos - avlCnt m (m p).left := by
        rw [hcl, hcr]
        omega
      have hstep := offsetStep_parent hout (hexact _ (by omega)) (hexact _ (by omega))
      rw [hsub.linked.parent, hcl, hcr] at hstep
      cases f with
      | left q r' =>
        have hn : fs.length + 1 + (plug fs (node q (node p l r) r')).height ≤ n + 1 := hn
        have hq : Repr m (ctxPtr fs) (node q (node p l r) r') := (repr_plug (c := fs)).mp h |>.1
        have hndq : (inorder (node q (node p l r) r')).Nodup := (nodup_plug (c := fs) hnd).1
        have hne : ¬ (m q).right = some p := by
          rw [hq.linked.right]
          intro he
          rw [inorder_node, List.nodup_append] at hndq
          exact hndq.2.2 p (by simp) p (List.mem_cons_of_mem _ (rootPtr_mem he)) rfl
        have hmod : (r.numNodes + 1) % 2 ^ 32 = r.numNodes + 1 := Nat.mod_eq_of_lt (by omega)
        simp only [before, after, List.length_cons, List.length_append,
          ← numNodes_eq_length] at hlo hhi hlen
        simp only [ctxPtr, Frame.val, if_neg hne, hmod] at hstep
        rw [hexact _ (by omega), Option.map_some] at hstep
        rw [offsetWithin_move (by omega) hstep]
        exact ih h hnd hsize (by rw [numNodes]; omega) (by omega)
          (by omega)
      | right q l' =>
        have hn : fs.length + 1 + (plug fs (node q l' (node p l r))).height ≤ n + 1 := hn
        have hq : Repr m (ctxPtr fs) (node q l' (node p l r)) := (repr_plug (c := fs)).mp h |>.1
        have heq : (m q).right = some p := hq.linked.right
        have hmod : (l.numNodes + 1) % 2 ^ 32 = l.numNodes + 1 := Nat.mod_eq_of_lt (by omega)
        simp only [before, after, List.length_cons, List.length_nil, List.length_append,
          ← numNodes_eq_length] at hlo hhi hlen
        simp only [ctxPtr, Frame.val, if_pos heq, hmod] at hstep
        rw [hexact _ (by omega), Option.map_some] at hstep
        rw [offsetWithin_move (by omega) hstep]
        exact ih h hnd hsize (by omega) (by rw [numNodes]; omega)
          (by omega)

/-- **`avl_offset` is logarithmic**, however long the offset is: from any node of
a valid tree, it ends within four times the logarithm of the number of nodes. -/
theorem avl_offset_logarithmic (m : AvlMem) (root : Option Ptr) (t : BinaryTree Ptr) (x : Ptr)
    (h : AvlExact m root t) (hx : x ∈ inorder t) (k : Int) :
    ∃ res, avlOffset64 m x 0 k = some res ∧
      m.offsetWithin (fun n => if -2 ^ 63 ≤ n ∧ n < 2 ^ 63 then some n else none) k
        (4 * Nat.log 2 ((inorder t).length + 1) + 2) x 0 = some res := by
  obtain ⟨hvalid, hsmall⟩ := avlExact_iff.mp h
  obtain ⟨c, l, r, rfl⟩ := exists_plug_of_mem hx
  have hdeep := height_le_plug c (node x l r)
  have hlog := height_le_log h.balanced
  have hlen : (inorder (plug c (node x l r))).length =
      (before c).length + (l.numNodes + r.numNodes + 1) + (after c).length := by
    rw [inorder_plug, List.length_append, List.length_append, ← numNodes_eq_length, numNodes]
  rw [numNodes_eq_length] at hlog
  have hexact : ExactUpTo (2 ^ 34)
      (fun n => if -2 ^ 63 ≤ n ∧ n < 2 ^ 63 then some n else none) := exactUpTo_int64 (by decide)
  have hwalk : ∃ res, m.offsetWithin (fun n => if -2 ^ 63 ≤ n ∧ n < 2 ^ 63 then some n else none) k
      (4 * Nat.log 2 ((inorder (plug c (node x l r))).length + 1) + 2) x 0 = some res :=
    offsetWithin_up hexact hvalid.repr h.nodup hsmall (by omega) (by omega) (by omega)
  obtain ⟨res, hres⟩ := hwalk
  exact ⟨res, offsetWithin_sound hres, hres⟩

/-- In a tree of three nodes ten passes are enough to find that there is no such node. -/
theorem avl_offset_logarithmic_three : ∃ res, avlOffset64 threeNodes 1 0 (2 ^ 63 - 1) = some res ∧
    threeNodes.offsetWithin (fun n => if -2 ^ 63 ≤ n ∧ n < 2 ^ 63 then some n else none)
      (2 ^ 63 - 1) 10 1 0 = some res :=
  avl_offset_logarithmic threeNodes _ _ 1 threeNodes_exact (by decide) (2 ^ 63 - 1)

end ByoRedis
