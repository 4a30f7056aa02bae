import Mathlib

/-!
# Lib — height-balanced binary trees

Mathlib's `BinaryTree` with its in-order list, contexts (the path from a
subtree up to the root, innermost frame first), and the two things a
height-balanced tree does after an update: `rebalance` one node by rotations,
and `fixUp`, rebalance at every frame on the way up. One theorem,
`balanced_fixUp`, covers insertion and deletion alike: a subtree that is
replaced by a balanced one at most one level higher or lower.
-/

namespace AvlTree

open BinaryTree

variable {α : Type}

/-- The values from left to right. -/
def inorder : BinaryTree α → List α
  | .nil => []
  | .node a l r => inorder l ++ a :: inorder r

@[simp] theorem inorder_nil : inorder (nil : BinaryTree α) = [] := rfl

@[simp] theorem inorder_node (a : α) (l r : BinaryTree α) :
    inorder (node a l r) = inorder l ++ a :: inorder r := rfl

theorem numNodes_eq_length (t : BinaryTree α) : t.numNodes = (inorder t).length := by
  induction t with
  | nil => rfl
  | node a l r ihl ihr =>
    simp only [numNodes, inorder_node, List.length_append, List.length_cons, ihl, ihr]
    omega

/-- Sibling heights differ by at most one, everywhere. -/
def Balanced : BinaryTree α → Prop
  | .nil => True
  | .node _ l r =>
    l.height ≤ r.height + 1 ∧ r.height ≤ l.height + 1 ∧ Balanced l ∧ Balanced r

/-! ## Rotations -/

/-- The right child comes up. -/
def rotL : BinaryTree α → BinaryTree α
  | .node a l (.node b rl rr) => .node b (.node a l rl) rr
  | t => t

/-- The left child comes up. -/
def rotR : BinaryTree α → BinaryTree α
  | .node a (.node b ll lr) r => .node b ll (.node a lr r)
  | t => t

/-- The left subtree is too high by two. -/
def fixLeft (a : α) (l r : BinaryTree α) : BinaryTree α :=
  match l with
  | .node b ll lr =>
    if ll.height < lr.height then rotR (.node a (rotL (.node b ll lr)) r)
    else rotR (.node a (.node b ll lr) r)
  | .nil => .node a .nil r

/-- The right subtree is too high by two. -/
def fixRight (a : α) (l r : BinaryTree α) : BinaryTree α :=
  match r with
  | .node b rl rr =>
    if rr.height < rl.height then rotL (.node a l (rotR (.node b rl rr)))
    else rotL (.node a l (.node b rl rr))
  | .nil => .node a l .nil

/-- Repair a difference of two at the root. -/
def rebalance (a : α) (l r : BinaryTree α) : BinaryTree α :=
  if l.height = r.height + 2 then fixLeft a l r
  else if l.height + 2 = r.height then fixRight a l r
  else .node a l r

@[simp] theorem inorder_rotL (t : BinaryTree α) : inorder (rotL t) = inorder t := by
  unfold rotL
  split <;> simp

@[simp] theorem inorder_rotR (t : BinaryTree α) : inorder (rotR t) = inorder t := by
  unfold rotR
  split <;> simp

theorem inorder_fixLeft (a : α) (l r : BinaryTree α) :
    inorder (fixLeft a l r) = inorder (node a l r) := by
  cases l with
  | nil => rfl
  | node b ll lr =>
    show inorder (if _ then _ else _) = _
    split
    · rw [inorder_rotR, inorder_node, inorder_rotL]
      rfl
    · rw [inorder_rotR]

theorem inorder_fixRight (a : α) (l r : BinaryTree α) :
    inorder (fixRight a l r) = inorder (node a l r) := by
  cases r with
  | nil => rfl
  | node b rl rr =>
    show inorder (if _ then _ else _) = _
    split
    · rw [inorder_rotL, inorder_node, inorder_rotR]
      rfl
    · rw [inorder_rotL]

theorem inorder_rebalance (a : α) (l r : BinaryTree α) :
    inorder (rebalance a l r) = inorder (node a l r) := by
  unfold rebalance
  split
  · exact inorder_fixLeft a l r
  · split
    · exact inorder_fixRight a l r
    · rfl

theorem fixLeft_spec (a : α) {l r : BinaryTree α} (hl : Balanced l) (hr : Balanced r)
    (h : l.height = r.height + 2) :
    Balanced (fixLeft a l r) ∧ l.height ≤ (fixLeft a l r).height ∧
      (fixLeft a l r).height ≤ l.height + 1 := by
  cases l with
  | nil => simp at h
  | node b ll lr =>
    obtain ⟨h1, h2, hll, hlr⟩ := hl
    simp only [height] at h
    by_cases hc : ll.height < lr.height
    · -- double rotation: the inner grandchild comes up
      cases lr with
      | nil => simp at hc
      | node c x y =>
        obtain ⟨h3, h4, hx, hy⟩ := hlr
        have hfix : fixLeft a (node b ll (node c x y)) r = node c (node b ll x) (node a y r) := by
          simp only [fixLeft, if_pos hc, rotL, rotR]
        rw [hfix]
        simp only [height] at h hc h2
        simp only [height, Balanced]
        refine ⟨⟨?_, ?_, ⟨?_, ?_, hll, hx⟩, ⟨?_, ?_, hy, hr⟩⟩, ?_, ?_⟩ <;> omega
    · simp only [fixLeft, if_neg hc, rotR, Balanced, height]
      refine ⟨⟨?_, ?_, hll, ⟨?_, ?_, hlr, hr⟩⟩, ?_, ?_⟩ <;> omega

theorem fixRight_spec (a : α) {l r : BinaryTree α} (hl : Balanced l) (hr : Balanced r)
    (h : l.height + 2 = r.height) :
    Balanced (fixRight a l r) ∧ r.height ≤ (fixRight a l r).height ∧
      (fixRight a l r).height ≤ r.height + 1 := by
  cases r with
  | nil => simp at h
  | node b rl rr =>
    obtain ⟨h1, h2, hrl, hrr⟩ := hr
    simp only [height] at h
    by_cases hc : rr.height < rl.height
    · cases rl with
      | nil => simp at hc
      | node c x y =>
        obtain ⟨h3, h4, hx, hy⟩ := hrl
        have hfix : fixRight a l (node b (node c x y) rr) = node c (node a l x) (node b y rr) := by
          simp only [fixRight, if_pos hc, rotL, rotR]
        rw [hfix]
        simp only [height] at h hc h1
        simp only [height, Balanced]
        refine ⟨⟨?_, ?_, ⟨?_, ?_, hl, hx⟩, ⟨?_, ?_, hy, hrr⟩⟩, ?_, ?_⟩ <;> omega
    · simp only [fixRight, if_neg hc, rotL, Balanced, height]
      refine ⟨⟨?_, ?_, ⟨?_, ?_, hl, hrl⟩, hrr⟩, ?_, ?_⟩ <;> omega

/-- Rebalancing repairs a difference of up to two; the height is the one the
node had, or one less where a rotation was needed. -/
theorem rebalance_spec (a : α) {l r : BinaryTree α} (hl : Balanced l) (hr : Balanced r)
    (h1 : l.height ≤ r.height + 2) (h2 : r.height ≤ l.height + 2) :
    Balanced (rebalance a l r) ∧ max l.height r.height ≤ (rebalance a l r).height ∧
      (rebalance a l r).height ≤ max l.height r.height + 1 ∧
      (l.height ≤ r.height + 1 → r.height ≤ l.height + 1 →
        (rebalance a l r).height = max l.height r.height + 1) := by
  unfold rebalance
  split
  · rename_i h
    obtain ⟨hb, hlo, hhi⟩ := fixLeft_spec a hl hr h
    refine ⟨hb, ?_, ?_, ?_⟩ <;> omega
  · split
    · rename_i h
      obtain ⟨hb, hlo, hhi⟩ := fixRight_spec a hl hr h
      refine ⟨hb, ?_, ?_, ?_⟩ <;> omega
    · have hh : (node a l r).height = max l.height r.height + 1 := rfl
      refine ⟨⟨by omega, by omega, hl, hr⟩, ?_, ?_, fun _ _ => hh⟩ <;> omega

/-! ## Contexts -/

/-- One step down: the hole is the left or the right child of `a`. -/
inductive Frame (α : Type) where
  | left (a : α) (r : BinaryTree α)
  | right (a : α) (l : BinaryTree α)

/-- The value at the node of the frame. -/
def Frame.val : Frame α → α
  | .left a _ => a
  | .right a _ => a

/-- Fill the hole of a frame. -/
def Frame.plug : Frame α → BinaryTree α → BinaryTree α
  | .left a r, t => .node a t r
  | .right a l, t => .node a l t

/-- The left subtree of a frame with `t` in its hole. -/
def Frame.lft : Frame α → BinaryTree α → BinaryTree α
  | .left _ _, t => t
  | .right _ l, _ => l

/-- The right subtree of a frame with `t` in its hole. -/
def Frame.rgt : Frame α → BinaryTree α → BinaryTree α
  | .left _ r, _ => r
  | .right _ _, t => t

/-- The subtree beside the hole of a frame. -/
def Frame.sibling : Frame α → BinaryTree α
  | .left _ r => r
  | .right _ l => l

theorem Frame.plug_eq (f : Frame α) (t : BinaryTree α) :
    f.plug t = node f.val (f.lft t) (f.rgt t) := by
  cases f <;> rfl

/-- Fill the hole of a context, innermost frame first. -/
def plug : List (Frame α) → BinaryTree α → BinaryTree α
  | [], t => t
  | f :: fs, t => plug fs (f.plug t)

/-- The values left of the hole. -/
def before : List (Frame α) → List α
  | [] => []
  | .left _ _ :: fs => before fs
  | .right a l :: fs => before fs ++ (inorder l ++ [a])

/-- The values right of the hole. -/
def after : List (Frame α) → List α
  | [] => []
  | .left a r :: fs => a :: inorder r ++ after fs
  | .right _ _ :: fs => after fs

theorem inorder_plug (c : List (Frame α)) (t : BinaryTree α) :
    inorder (plug c t) = before c ++ inorder t ++ after c := by
  induction c generalizing t with
  | nil => simp [plug, before, after]
  | cons f fs ih => cases f <;> simp [plug, Frame.plug, ih, before, after]

theorem plug_append (c d : List (Frame α)) (t : BinaryTree α) :
    plug (c ++ d) t = plug d (plug c t) := by
  induction c generalizing t with
  | nil => rfl
  | cons f fs ih => exact ih (f.plug t)

theorem before_append (c d : List (Frame α)) : before (c ++ d) = before d ++ before c := by
  induction c with
  | nil => simp [before]
  | cons f fs ih => cases f <;> simp [before, ih]

theorem Balanced.of_plug {c : List (Frame α)} {t : BinaryTree α} (h : Balanced (plug c t)) :
    Balanced t := by
  induction c generalizing t with
  | nil => exact h
  | cons f fs ih =>
    have := ih h
    cases f with
    | left a r => exact this.2.2.1
    | right a l => exact this.2.2.2

/-- Only the heights and the balance of the subtree in the hole matter. -/
theorem Balanced.plug_congr {c : List (Frame α)} {t t' : BinaryTree α}
    (h : Balanced (plug c t)) (ht : Balanced t') (hh : t'.height = t.height) :
    Balanced (plug c t') := by
  induction c generalizing t t' with
  | nil => exact ht
  | cons f fs ih =>
    have hf : Balanced (f.plug t) := Balanced.of_plug (c := fs) h
    apply ih h
    · cases f with
      | left a r =>
        obtain ⟨h1, h2, -, hr⟩ := hf
        exact ⟨by rw [hh]; exact h1, by rw [hh]; exact h2, ht, hr⟩
      | right a l =>
        obtain ⟨h1, h2, hl, -⟩ := hf
        exact ⟨by rw [hh]; exact h1, by rw [hh]; exact h2, hl, ht⟩
    · cases f <;> simp [Frame.plug, hh]

/-- Every value of a tree is at the root of a subtree in a context. -/
theorem exists_plug_of_mem {a : α} {t : BinaryTree α} (h : a ∈ inorder t) :
    ∃ c l r, t = plug c (node a l r) := by
  induction t with
  | nil => simp at h
  | node b l r ihl ihr =>
    simp only [inorder_node, List.mem_append, List.mem_cons] at h
    rcases h with h | h | h
    · obtain ⟨c, x, y, rfl⟩ := ihl h
      exact ⟨c ++ [.left b r], x, y, by rw [plug_append]; rfl⟩
    · subst h
      exact ⟨[], l, r, rfl⟩
    · obtain ⟨c, x, y, rfl⟩ := ihr h
      exact ⟨c ++ [.right b l], x, y, by rw [plug_append]; rfl⟩

/-! ## Repairing a whole path -/

/-- Rebalance the node of a frame with a new subtree in its hole. -/
def Frame.fix : Frame α → BinaryTree α → BinaryTree α
  | .left a r, t => rebalance a t r
  | .right a l, t => rebalance a l t

theorem Frame.fix_eq (f : Frame α) (t : BinaryTree α) :
    f.fix t = rebalance f.val (f.lft t) (f.rgt t) := by
  cases f <;> rfl

/-- Rebalance at every frame on the way to the root. -/
def fixUp : List (Frame α) → BinaryTree α → BinaryTree α
  | [], t => t
  | f :: fs, t => fixUp fs (f.fix t)

theorem inorder_fix (f : Frame α) (t : BinaryTree α) : inorder (f.fix t) = inorder (f.plug t) := by
  cases f <;> exact inorder_rebalance _ _ _

/-- Repairing keeps the order of the values. -/
theorem inorder_fixUp (c : List (Frame α)) (t : BinaryTree α) :
    inorder (fixUp c t) = inorder (plug c t) := by
  induction c generalizing t with
  | nil => rfl
  | cons f fs ih => rw [fixUp, ih, plug, inorder_plug, inorder_plug, inorder_fix]

/-- One frame: a subtree replaced by one at most one level off gives, after
rebalancing, a subtree at most one level off. -/
theorem fix_spec {f : Frame α} {t t₀ : BinaryTree α} (h₀ : Balanced (f.plug t₀))
    (ht : Balanced t) (h1 : t.height ≤ t₀.height + 1) (h2 : t₀.height ≤ t.height + 1) :
    Balanced (f.fix t) ∧ (f.fix t).height ≤ (f.plug t₀).height + 1 ∧
      (f.plug t₀).height ≤ (f.fix t).height + 1 := by
  cases f with
  | left a r =>
    obtain ⟨h3, h4, -, hr⟩ := h₀
    obtain ⟨hb, hlo, hhi, hex⟩ := rebalance_spec a ht hr (by omega) (by omega)
    refine ⟨hb, ?_, ?_⟩ <;> simp only [Frame.fix, Frame.plug, height] <;> omega
  | right a l =>
    obtain ⟨h3, h4, hl, -⟩ := h₀
    obtain ⟨hb, hlo, hhi, hex⟩ := rebalance_spec a hl ht (by omega) (by omega)
    refine ⟨hb, ?_, ?_⟩ <;> simp only [Frame.fix, Frame.plug, height] <;> omega

/-- **Repair.** In a balanced tree, a subtree is replaced by a balanced one
whose height is off by at most one; after `fixUp` the tree is balanced. -/
theorem balanced_fixUp {c : List (Frame α)} {t t₀ : BinaryTree α} (h₀ : Balanced (plug c t₀))
    (ht : Balanced t) (h1 : t.height ≤ t₀.height + 1) (h2 : t₀.height ≤ t.height + 1) :
    Balanced (fixUp c t) := by
  induction c generalizing t t₀ with
  | nil => exact ht
  | cons f fs ih =>
    obtain ⟨hb, hhi, hlo⟩ := fix_spec (Balanced.of_plug (c := fs) h₀) ht h1 h2
    exact ih h₀ hb hhi hlo

/-! ## How high a balanced tree is -/

/-- A balanced tree has no fewer nodes than a Fibonacci tree of its height. -/
theorem fib_height_le {t : BinaryTree α} (h : Balanced t) :
    Nat.fib (t.height + 2) ≤ t.numNodes + 1 := by
  induction t with
  | nil => exact Nat.le_refl 1
  | node a l r ihl ihr =>
    obtain ⟨hlr, hrl, hl, hr⟩ := h
    have hle := ihl hl
    have hre := ihr hr
    simp only [height, numNodes]
    rcases Nat.le_total l.height r.height with hc | hc
    · -- the right subtree is the higher one, and the left one at most one lower
      have hmono : Nat.fib (r.height + 1) ≤ Nat.fib (l.height + 2) := Nat.fib_mono (by omega)
      rw [Nat.max_eq_right hc]
      have hadd : Nat.fib (r.height + 1 + 2) = Nat.fib (r.height + 1) + Nat.fib (r.height + 2) :=
        Nat.fib_add_two
      omega
    · have hmono : Nat.fib (l.height + 1) ≤ Nat.fib (r.height + 2) := Nat.fib_mono (by omega)
      rw [Nat.max_eq_left hc]
      have hadd : Nat.fib (l.height + 1 + 2) = Nat.fib (l.height + 1) + Nat.fib (l.height + 2) :=
        Nat.fib_add_two
      omega

theorem two_pow_le_fib_sq (n : Nat) : 2 ^ n ≤ Nat.fib (n + 2) ^ 2 := by
  induction n using Nat.twoStepInduction with
  | zero => decide
  | one => decide
  | more n ih _ =>
    have hadd : Nat.fib (n + 2 + 2) = Nat.fib (n + 2) + Nat.fib (n + 2 + 1) := Nat.fib_add_two
    have hmono : Nat.fib (n + 2) ≤ Nat.fib (n + 2 + 1) := Nat.fib_mono (Nat.le_succ _)
    calc 2 ^ (n + 2) = 2 ^ n * 4 := by rw [pow_add]; rfl
      _ ≤ Nat.fib (n + 2) ^ 2 * 4 := Nat.mul_le_mul_right 4 ih
      _ = (2 * Nat.fib (n + 2)) ^ 2 := by ring
      _ ≤ Nat.fib (n + 2 + 2) ^ 2 := Nat.pow_le_pow_left (by omega) 2

/-- **The height of a balanced tree** is logarithmic in its size. -/
theorem height_le_log {t : BinaryTree α} (h : Balanced t) :
    t.height ≤ 2 * Nat.log 2 (t.numNodes + 1) + 1 := by
  have hlt : t.numNodes + 1 < 2 ^ (Nat.log 2 (t.numNodes + 1) + 1) :=
    Nat.lt_pow_succ_log_self (by decide) _
  have hpow : 2 ^ t.height < 2 ^ (2 * (Nat.log 2 (t.numNodes + 1) + 1)) :=
    calc 2 ^ t.height ≤ Nat.fib (t.height + 2) ^ 2 := two_pow_le_fib_sq _
      _ ≤ (t.numNodes + 1) ^ 2 := Nat.pow_le_pow_left (fib_height_le h) 2
      _ < (2 ^ (Nat.log 2 (t.numNodes + 1) + 1)) ^ 2 := Nat.pow_lt_pow_left hlt (by decide)
      _ = 2 ^ (2 * (Nat.log 2 (t.numNodes + 1) + 1)) := by rw [← pow_mul, Nat.mul_comm]
  have := (Nat.pow_lt_pow_iff_right (by decide)).mp hpow
  omega

end AvlTree
