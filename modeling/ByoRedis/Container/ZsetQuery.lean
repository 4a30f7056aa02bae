import ByoRedis.Container.AvlCost
import ByoRedis.Container.ZsetInv

/-!
# Container — walking a sorted set

`zset_seekge` and `znode_offset` on a set in order: they end and stay within
the tree. The numbers of `avl_offset` do not overflow an `int64_t` in any set
that an address space has room for.
-/

namespace ByoRedis

open BinaryTree AvlTree

variable {m : AvlMem} {z : ZSet} {t l r : BinaryTree Ptr} {p : Ptr} {par : Option Ptr}

/-! ## `avl_offset` -/

/-- The target is within the subtree, as far as the counters tell. -/
def InWindow (m : AvlMem) (p : Ptr) (pos offset : Int) : Prop :=
  (pos < offset → offset ≤ pos + avlCnt m (m p).right) ∧
    (offset < pos → pos - avlCnt m (m p).left ≤ offset)

/-- Once the target is within a subtree the walk goes down to it, with numbers
that grow by no more than `2^32` at each level. The counters are exact modulo
`2^32` only, which is enough for this. -/
theorem avlOffset_down (hr : Repr m par t) (hp : rootPtr t = some p) {pos offset : Int}
    {bound : Nat} (hw : InWindow m p pos offset) (hb : pos.natAbs + 2 ^ 32 * t.height ≤ bound) :
    ∃ q ∈ inorder t, ∀ int64, ExactUpTo bound int64 →
      m.avlOffsetWith int64 p pos offset = some (some q) := by
  induction t generalizing par p pos with
  | nil => cases hp
  | node a l r ihl ihr =>
    obtain rfl : a = p := Option.some.inj hp
    have hlink := hr.linked
    obtain ⟨ha, hl, hr⟩ := hr
    obtain ⟨hwr, hwl⟩ := hw
    have hcl := hl.cnt_eq
    have hcr := hr.cnt_eq
    rw [← hlink.left] at hcl
    rw [← hlink.right] at hcr
    by_cases heq : offset = pos
    · exact ⟨a, by simp, fun _ _ => avlOffset_here heq⟩
    rw [height] at hb
    by_cases hlt : pos < offset
    · cases hr' : r with
      | nil =>
        have hle := hwr hlt
        rw [hcr, hr', numNodes] at hle
        omega
      | node b rl rr =>
        have hb := (hr' ▸ hr).linked
        have h1 : avlCnt m (m b).left = rl.numNodes % 2 ^ 32 := by rw [hb.left, hb.reprL.cnt_eq]
        have h2 : avlCnt m (m b).right = rr.numNodes % 2 ^ 32 := by rw [hb.right, hb.reprR.cnt_eq]
        have hle := hwr hlt
        have hn : r.numNodes = rl.numNodes + rr.numNodes + 1 := by rw [hr', numNodes]
        have hwin : InWindow m b (pos + ((avlCnt m (m b).left + 1) % 2 ^ 32 : Nat)) offset := by
          simp only [InWindow, h1, h2]
          omega
        obtain ⟨q, hq, hrun⟩ := ihr hr (by rw [hr']; rfl) hwin (by omega)
        refine ⟨q, by rw [← hr']; simp [hq], fun int64 hexact => ?_⟩
        rw [← hrun int64 hexact]
        exact avlOffset_right hlt hle (by rw [hlink.right, hr']; rfl) (hexact _ (by omega))
          (hexact _ (by omega))
    · have hgt : offset < pos := by omega
      cases hl' : l with
      | nil =>
        have hle := hwl hgt
        rw [hcl, hl', numNodes] at hle
        omega
      | node b ll lr =>
        have hb := (hl' ▸ hl).linked
        have h1 : avlCnt m (m b).left = ll.numNodes % 2 ^ 32 := by rw [hb.left, hb.reprL.cnt_eq]
        have h2 : avlCnt m (m b).right = lr.numNodes % 2 ^ 32 := by rw [hb.right, hb.reprR.cnt_eq]
        have hle := hwl hgt
        have hn : l.numNodes = ll.numNodes + lr.numNodes + 1 := by rw [hl', numNodes]
        have hwin : InWindow m b (pos - ((avlCnt m (m b).right + 1) % 2 ^ 32 : Nat)) offset := by
          simp only [InWindow, h1, h2]
          omega
        obtain ⟨q, hq, hrun⟩ := ihl hl (by rw [hl']; rfl) hwin (by omega)
        refine ⟨q, by rw [← hl']; simp [hq], fun int64 hexact => ?_⟩
        rw [← hrun int64 hexact]
        exact avlOffset_left hgt hle (by rw [hlink.left, hl']; rfl) (hexact _ (by omega))
          (hexact _ (by omega))

/-- A pass that climbs. -/
theorem avlOffset_climb (h : Linked m par p l r) {pos offset : Int} {bound : Nat}
    (hw : ¬ InWindow m p pos offset) (hb : pos.natAbs + 2 ^ 32 ≤ bound) :
    ∃ pos', pos'.natAbs ≤ pos.natAbs + 2 ^ 32 ∧ ∀ int64, ExactUpTo bound int64 →
      m.avlOffsetWith int64 p pos offset =
        match par with
        | none => some none
        | some q => m.avlOffsetWith int64 q pos' offset := by
  have hcl := h.reprL.cnt_eq
  have hcr := h.reprR.cnt_eq
  rw [← h.left] at hcl
  rw [← h.right] at hcr
  simp only [InWindow, not_and_or, Classical.not_imp, not_le] at hw
  cases par with
  | none =>
    refine ⟨pos, by omega, fun int64 hexact => ?_⟩
    rw [avlOffset_parent hw (hexact _ (by omega)) (hexact _ (by omega)), h.parent]
  | some q =>
    have hle : (if (m q).right = some p then pos - ((avlCnt m (m p).left + 1) % 2 ^ 32 : Nat)
        else pos + ((avlCnt m (m p).right + 1) % 2 ^ 32 : Nat)).natAbs ≤ pos.natAbs + 2 ^ 32 := by
      split <;> omega
    refine ⟨_, hle, fun int64 hexact => ?_⟩
    rw [avlOffset_parent hw (hexact _ (by omega)) (hexact _ (by omega)), h.parent]
    simp only [hexact _ (hle.trans hb), Option.bind_some]

/-- Before that it climbs, at most up to the root. -/
theorem avlOffset_up {c : List (Frame Ptr)} (h : Repr m none (plug c (node p l r)))
    {pos offset : Int} {n bound : Nat} (hn : (plug c (node p l r)).height ≤ n)
    (hb : pos.natAbs + 2 ^ 32 * (c.length + n) ≤ bound) :
    ∃ res, (∀ int64, ExactUpTo bound int64 → m.avlOffsetWith int64 p pos offset = some res) ∧
      ∀ q, res = some q → q ∈ inorder (plug c (node p l r)) := by
  induction c generalizing l r p pos with
  | nil =>
    have hn : (node p l r).height ≤ n := hn
    rw [List.length_nil] at hb
    by_cases hw : InWindow m p pos offset
    · have hdown : pos.natAbs + 2 ^ 32 * (node p l r).height ≤ bound := by omega
      obtain ⟨q, hq, hrun⟩ := avlOffset_down h rfl hw hdown
      exact ⟨some q, hrun, by rintro _ ⟨⟩; exact hq⟩
    · rw [height] at hn
      have hup : pos.natAbs + 2 ^ 32 ≤ bound := by omega
      obtain ⟨_, -, hrun⟩ := avlOffset_climb (Repr.linked h) hw hup
      exact ⟨none, hrun, by simp⟩
  | cons f fs ih =>
    have hsub : Repr m (ctxPtr (f :: fs)) (node p l r) := (repr_plug.mp h).1
    have hdeep := height_le_plug (f :: fs) (node p l r)
    rw [List.length_cons] at hb hdeep
    by_cases hw : InWindow m p pos offset
    · have hdown : pos.natAbs + 2 ^ 32 * (node p l r).height ≤ bound := by omega
      obtain ⟨q, hq, hrun⟩ := avlOffset_down hsub rfl hw hdown
      exact ⟨some q, hrun, by rintro _ ⟨⟩; exact mem_inorder_plug.mpr (.inl hq)⟩
    · have hup : pos.natAbs + 2 ^ 32 ≤ bound := by omega
      obtain ⟨pos', hle, hrun⟩ := avlOffset_climb hsub.linked hw hup
      have hb' : pos'.natAbs + 2 ^ 32 * (fs.length + n) ≤ bound := by omega
      cases f with
      | left q r' =>
        obtain ⟨res, hrest, hmem⟩ := ih h hn hb'
        exact ⟨res, fun int64 hexact => (hrun int64 hexact).trans (hrest int64 hexact), hmem⟩
      | right q l' =>
        obtain ⟨res, hrest, hmem⟩ := ih h hn hb'
        exact ⟨res, fun int64 hexact => (hrun int64 hexact).trans (hrest int64 hexact), hmem⟩

/-- **`znode_offset`** answers a node of the set or none. -/
theorem znodeOffset_spec (h : z.Inv t) {node : Option Ptr} (hn : ∀ p, node = some p → p ∈ inorder t)
    (offset : Int) :
    ∃ res, znodeOffset z node offset = some res ∧ ∀ q, res = some q → q ∈ inorder t := by
  cases node with
  | none => exact ⟨none, rfl, by simp⟩
  | some p =>
    obtain ⟨c, l, r, rfl⟩ := exists_plug_of_mem (hn p rfl)
    obtain ⟨res, hrun, hmem⟩ := avlOffset_up h.tree.repr (Nat.le_refl _) (Nat.le_refl _)
    exact ⟨res, hrun some (exactUpTo_some _), hmem⟩

/-- The `int64_t` of `avl_offset` does not overflow, in any set of fewer than `2^64`
members. -/
theorem znodeOffset_int64 (h : z.Inv t) (hsize : (inorder t).length < 2 ^ 64) (hp : p ∈ inorder t)
    (k : Int) : avlOffset64 z.tree p 0 k = znodeOffset z (some p) k := by
  obtain ⟨c, l, r, rfl⟩ := exists_plug_of_mem hp
  have hdeep := height_le_plug c (node p l r)
  have hlog := height_le_log h.tree.balanced
  rw [numNodes_eq_length] at hlog
  have h64 : Nat.log 2 ((inorder (plug c (node p l r))).length + 1) < 65 :=
    Nat.log_lt_of_lt_pow (by omega) (by omega)
  have hb : (0 : Int).natAbs + 2 ^ 32 * (c.length + 129) ≤ 2 ^ 62 := by
    rw [Int.natAbs_zero]
    omega
  obtain ⟨res, hrun, -⟩ := avlOffset_up h.tree.repr (show _ ≤ 129 by omega) hb
  rw [znodeOffset, avlOffset, hrun some (exactUpTo_some _)]
  exact hrun _ (exactUpTo_int64 (by decide))

/-! ## `zset_seekge` -/

/-- **`zset_seekge`** finds the first node that is not below the tuple. -/
theorem zsetSeekge_spec (h : z.Inv t) (score : Double) (name : Bytes) :
    zsetSeekge z score name =
      some ((inorder t).find? (fun q => !zlessTuple (z.node q) score name)) := by
  have hmono : (inorder t).Pairwise (fun a b =>
      zlessTuple (z.node b) score name = true → zlessTuple (z.node a) score name = true) := by
    refine h.sorted.imp_of_mem ?_
    intro a b ha hb hab hless
    obtain ⟨hnum, hs⟩ := zlessTuple_number hless
    rw [zlessTuple_iff hnum hs] at hless
    rw [zlessTuple_iff (h.number a ha) hs]
    exact lt_trans hab hless
  rw [h.paired.seekge, seek_sorted none hmono, Option.or_none]

/-- **`znode_offset`** from the node of a rank, in a set of fewer than `2^32`
members. -/
theorem znodeOffset_rank (h : z.Inv t) (hsize : (inorder t).length < 2 ^ 32) {i : Nat}
    (hp : (inorder t)[i]? = some p) (k : Int) :
    znodeOffset z (some p) k = some (atRank (inorder t) (i + k)) :=
  avlOffsetWith_rank (exactUpTo_some _) h.tree hsize hp k

end ByoRedis
