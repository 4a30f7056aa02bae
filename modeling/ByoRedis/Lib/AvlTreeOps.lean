import ByoRedis.Lib.AvlTree

/-!
# Lib — the algorithms of a height-balanced tree

Insertion and deletion as "go to the place, edit there, `fixUp` the way back",
and the search for a lower bound. Nothing is assumed about the comparisons:
they need not be an order, and the results are exact trees, not only lists of
values. Every algorithm commutes with `BinaryTree.map`, so that a tree of
addresses and the tree of what is stored there run in step.
-/

namespace AvlTree

open BinaryTree

variable {α β : Type}

/-! ## The algorithms -/

/-- The empty place at which a search ends that goes left where `less`. -/
def leafCtx (less : α → Bool) : List (Frame α) → BinaryTree α → List (Frame α)
  | c, .nil => c
  | c, .node a l r =>
    if less a then leafCtx less (.left a r :: c) l else leafCtx less (.right a l :: c) r

/-- Insertion of a leaf. -/
def insertBy (less : α → Bool) (x : α) (t : BinaryTree α) : BinaryTree α :=
  fixUp (leafCtx less [] t) (.node x .nil .nil)

/-- A place, with the subtree at it, that a value with the property `q` is at. -/
def findCtx (q : α → Bool) :
    List (Frame α) → BinaryTree α → Option (List (Frame α) × α × BinaryTree α × BinaryTree α)
  | _, .nil => none
  | c, .node a l r =>
    if q a then some (c, a, l, r)
    else (findCtx q (.left a r :: c) l).or (findCtx q (.right a l :: c) r)

/-- The leftmost value of `node a l r`, and the tree without it. -/
def takeLeftmost (a : α) : BinaryTree α → BinaryTree α → α × BinaryTree α
  | .nil, r => (a, r)
  | .node b ll lr, r => ((takeLeftmost b ll lr).1, rebalance a (takeLeftmost b ll lr).2 r)

/-- What takes the place of a node with the subtrees `l` and `r`: the only
subtree, or the leftmost value of `r` over what is left of the two. -/
def join : BinaryTree α → BinaryTree α → BinaryTree α
  | .nil, r => r
  | .node a ll lr, .nil => .node a ll lr
  | .node a ll lr, .node b rl rr =>
    rebalance (takeLeftmost b rl rr).1 (.node a ll lr) (takeLeftmost b rl rr).2

/-- Deletion. -/
def eraseBy (q : α → Bool) (t : BinaryTree α) : BinaryTree α :=
  match findCtx q [] t with
  | none => t
  | some (c, _, l, r) => fixUp c (join l r)

/-- The last value that is not below the bound on the way down. -/
def seek (below : α → Bool) (found : Option α) : BinaryTree α → Option α
  | .nil => found
  | .node a l r => if below a then seek below found r else seek below (some a) l

/-! ## Places -/

theorem plug_leafCtx (less : α → Bool) (c : List (Frame α)) (t : BinaryTree α) :
    plug (leafCtx less c t) .nil = plug c t := by
  induction t generalizing c with
  | nil => rfl
  | node a l r ihl ihr =>
    rw [leafCtx]
    split
    · exact ihl (.left a r :: c)
    · exact ihr (.right a l :: c)

/-- Where the answers of `less` turn once from false to true, the empty place
is where they turn. -/
theorem leafCtx_sorted {less : α → Bool} {t : BinaryTree α} (c : List (Frame α))
    (hmono : (inorder t).Pairwise (fun a b => less a = true → less b = true)) :
    ∃ b a, inorder t = b ++ a ∧ before (leafCtx less c t) = before c ++ b ∧
      after (leafCtx less c t) = a ++ after c ∧ (∀ q ∈ b, ¬ less q = true) ∧
      ∀ q ∈ a, less q = true := by
  induction t generalizing c with
  | nil => exact ⟨[], [], rfl, by simp [leafCtx], by simp [leafCtx], by simp, by simp⟩
  | node p l r ihl ihr =>
    simp only [inorder_node, List.pairwise_append, List.pairwise_cons, List.mem_cons] at hmono
    obtain ⟨hml, ⟨hpr, hmr⟩, hlr⟩ := hmono
    by_cases hlt : less p = true
    · obtain ⟨b, a, hin, hbef, haft, hb, ha⟩ := ihl (.left p r :: c) hml
      rw [leafCtx, if_pos hlt]
      refine ⟨b, a ++ p :: inorder r, by simp [hin], hbef, by simp [haft, after], hb, ?_⟩
      intro q hq
      simp only [List.mem_append, List.mem_cons] at hq
      rcases hq with hq | rfl | hq
      · exact ha q hq
      · exact hlt
      · exact hpr q hq hlt
    · obtain ⟨b, a, hin, hbef, haft, hb, ha⟩ := ihr (.right p l :: c) hmr
      rw [leafCtx, if_neg hlt]
      refine ⟨inorder l ++ p :: b, a, by simp [hin], by simp [hbef, before], haft, ?_, ha⟩
      intro q hq
      simp only [List.mem_append, List.mem_cons] at hq
      rcases hq with hq | rfl | hq
      · exact fun hxq => hlt (hlr q hq p (.inl rfl) hxq)
      · exact hlt
      · exact hb q hq

theorem findCtx_some {q : α → Bool} {c c' : List (Frame α)} {t l r : BinaryTree α} {a : α}
    (h : findCtx q c t = some (c', a, l, r)) : plug c' (node a l r) = plug c t ∧ q a = true := by
  induction t generalizing c with
  | nil => cases h
  | node b bl br ihl ihr =>
    rw [findCtx] at h
    by_cases hb : q b = true
    · rw [if_pos hb] at h
      cases h
      exact ⟨rfl, hb⟩
    · rw [if_neg hb, Option.or_eq_some_iff] at h
      rcases h with h | ⟨-, h⟩
      · exact ihl h
      · exact ihr h

theorem findCtx_none {q : α → Bool} {c : List (Frame α)} {t : BinaryTree α}
    (h : findCtx q c t = none) : ∀ a ∈ inorder t, ¬ q a = true := by
  induction t generalizing c with
  | nil => simp
  | node b bl br ihl ihr =>
    rw [findCtx] at h
    by_cases hb : q b = true
    · rw [if_pos hb] at h
      cases h
    · rw [if_neg hb, Option.or_eq_none_iff] at h
      intro a ha
      simp only [inorder_node, List.mem_append, List.mem_cons] at ha
      rcases ha with ha | rfl | ha
      · exact ihl h.1 a ha
      · exact hb
      · exact ihr h.2 a ha

/-- Only the values of the tree are asked. -/
theorem findCtx_congr {q q' : α → Bool} {c : List (Frame α)} {t : BinaryTree α}
    (h : ∀ a ∈ inorder t, q a = q' a) : findCtx q c t = findCtx q' c t := by
  induction t generalizing c with
  | nil => rfl
  | node b bl br ihl ihr =>
    simp only [inorder_node, List.mem_append, List.mem_cons] at h
    rw [findCtx, findCtx, h b (.inr (.inl rfl)), ihl (fun a ha => h a (.inl ha)),
      ihr (fun a ha => h a (.inr (.inr ha)))]

theorem eraseBy_congr {q q' : α → Bool} {t : BinaryTree α} (h : ∀ a ∈ inorder t, q a = q' a) :
    eraseBy q t = eraseBy q' t := by
  rw [eraseBy, eraseBy, findCtx_congr h]

theorem fixUp_append (c d : List (Frame α)) (t : BinaryTree α) :
    fixUp (c ++ d) t = fixUp d (fixUp c t) := by
  induction c generalizing t with
  | nil => rfl
  | cons f fs ih => exact ih (f.fix t)

/-- The leftmost value stands at the end of a path, and has no left subtree. -/
theorem takeLeftmost_ctx (a : α) (l r : BinaryTree α) :
    ∃ c vr, node a l r = plug c (node (takeLeftmost a l r).1 .nil vr) ∧
      (takeLeftmost a l r).2 = fixUp c vr := by
  induction l generalizing a r with
  | nil => exact ⟨[], r, rfl, rfl⟩
  | node b ll lr ih _ =>
    obtain ⟨c, vr, hplug, hfix⟩ := ih b lr
    refine ⟨c ++ [.left a r], vr, ?_, ?_⟩
    · rw [plug_append, takeLeftmost, ← hplug]
      rfl
    · rw [fixUp_append, takeLeftmost, ← hfix]
      rfl

/-! ## The values -/

theorem apart_of_nodup {c : List (Frame α)} {l r : BinaryTree α} {p : α}
    (hnd : (inorder (plug c (node p l r))).Nodup) :
    p ∉ before c ++ after c ∧ p ∉ inorder l ∧ p ∉ inorder r := by
  rw [inorder_plug, inorder_node] at hnd
  simp only [List.nodup_append, List.nodup_cons, List.mem_append, List.mem_cons] at hnd ⊢
  grind

theorem inorder_takeLeftmost (a : α) (l r : BinaryTree α) :
    (takeLeftmost a l r).1 :: inorder (takeLeftmost a l r).2 = inorder (node a l r) := by
  induction l generalizing a r with
  | nil => rfl
  | node b ll lr ih _ =>
    rw [takeLeftmost, inorder_rebalance, inorder_node, inorder_node, ← ih b lr]
    rfl

theorem inorder_join (l r : BinaryTree α) : inorder (join l r) = inorder l ++ inorder r := by
  cases l with
  | nil => rfl
  | node a ll lr =>
    cases r with
    | nil => simp [join]
    | node b rl rr =>
      rw [join, inorder_rebalance, inorder_node, inorder_takeLeftmost]

/-- The values around a place whose node is deleted. -/
theorem inorder_fixUp_join (c : List (Frame α)) (l r : BinaryTree α) :
    inorder (fixUp c (join l r)) = before c ++ (inorder l ++ inorder r) ++ after c := by
  rw [inorder_fixUp, inorder_plug, inorder_join]

theorem inorder_insertBy (less : α → Bool) (x : α) (t : BinaryTree α) :
    inorder (insertBy less x t) = before (leafCtx less [] t) ++ x :: after (leafCtx less [] t) := by
  rw [insertBy, inorder_fixUp, inorder_plug]
  simp

/-- A search whose answers turn once puts the new value where they turn. -/
theorem inorder_insertBy_sorted {less : α → Bool} {t : BinaryTree α} (x : α)
    (hmono : (inorder t).Pairwise (fun a b => less a = true → less b = true)) :
    ∃ b a, inorder t = b ++ a ∧ inorder (insertBy less x t) = b ++ x :: a ∧
      (∀ q ∈ b, ¬ less q = true) ∧ ∀ q ∈ a, less q = true := by
  obtain ⟨b, a, hin, hbef, haft, hb, ha⟩ := leafCtx_sorted [] hmono
  refine ⟨b, a, hin, ?_, hb, ha⟩
  rw [inorder_insertBy, hbef, haft]
  simp [before, after]

theorem inorder_insertBy_perm (less : α → Bool) (x : α) (t : BinaryTree α) :
    (inorder (insertBy less x t)).Perm (x :: inorder t) := by
  have hin : inorder t = before (leafCtx less [] t) ++ after (leafCtx less [] t) := by
    have hplug := congrArg inorder (plug_leafCtx less [] t)
    rw [inorder_plug, inorder_nil, List.append_nil] at hplug
    exact hplug.symm
  rw [inorder_insertBy, hin]
  exact List.perm_middle

/-- Deletion takes one value out. -/
theorem inorder_eraseBy {q : α → Bool} {t : BinaryTree α} {x : α} (hx : x ∈ inorder t)
    (hq : ∀ a ∈ inorder t, q a = true ↔ a = x) :
    ∃ b a, inorder t = b ++ x :: a ∧ inorder (eraseBy q t) = b ++ a := by
  rw [eraseBy]
  cases hf : findCtx q [] t with
  | none => exact absurd ((hq x hx).mpr rfl) (findCtx_none hf x hx)
  | some v =>
    obtain ⟨c, y, l, r⟩ := v
    obtain ⟨hplug, hy⟩ := findCtx_some hf
    have hin : inorder t = before c ++ (inorder l ++ y :: inorder r) ++ after c := by
      rw [show t = plug c (node y l r) from hplug.symm, inorder_plug, inorder_node]
    obtain rfl : y = x := (hq y (by rw [hin]; simp)).mp hy
    refine ⟨before c ++ inorder l, inorder r ++ after c, by simp [hin], ?_⟩
    rw [inorder_fixUp_join]
    simp

theorem mem_insertBy {less : α → Bool} {t : BinaryTree α} {x a : α} :
    a ∈ inorder (insertBy less x t) ↔ a = x ∨ a ∈ inorder t := by
  rw [(inorder_insertBy_perm less x t).mem_iff, List.mem_cons]

/-- The values that are left when one that occurs once is deleted. -/
theorem mem_eraseBy [BEq α] [LawfulBEq α] {t : BinaryTree α} {x a : α} (hnd : (inorder t).Nodup)
    (hx : x ∈ inorder t) : a ∈ inorder (eraseBy (· == x) t) ↔ a ∈ inorder t ∧ a ≠ x := by
  obtain ⟨l, r, hin, hin'⟩ := inorder_eraseBy (q := (· == x)) hx (fun _ _ => beq_iff_eq)
  rw [hin] at hnd
  rw [hin, hin']
  simp only [List.nodup_append, List.nodup_cons, List.mem_cons, List.mem_append] at hnd ⊢
  grind

/-- A value is taken out and put in at another place. -/
theorem inorder_move_perm [BEq α] [LawfulBEq α] {t : BinaryTree α} {x : α} (less : α → Bool)
    (hx : x ∈ inorder t) : (inorder (insertBy less x (eraseBy (· == x) t))).Perm (inorder t) := by
  obtain ⟨l, r, hin, hin'⟩ := inorder_eraseBy (q := (· == x)) hx (fun _ _ => beq_iff_eq)
  have hins := inorder_insertBy_perm less x (eraseBy (· == x) t)
  rw [hin'] at hins
  rw [hin]
  exact hins.trans List.perm_middle.symm

/-- The search for a lower bound in a tree whose values below it come first. -/
theorem seek_sorted {below : α → Bool} {t : BinaryTree α} (found : Option α)
    (hmono : (inorder t).Pairwise (fun a b => below b = true → below a = true)) :
    seek below found t = ((inorder t).find? (fun a => !below a)).or found := by
  induction t generalizing found with
  | nil => rfl
  | node a l r ihl ihr =>
    simp only [inorder_node, List.pairwise_append, List.pairwise_cons, List.mem_cons] at hmono
    obtain ⟨hml, ⟨-, hmr⟩, hlr⟩ := hmono
    rw [seek, inorder_node, List.find?_append]
    by_cases hless : below a = true
    · -- then the values before `a` are below the bound, too
      have hnone : (inorder l).find? (fun a => !below a) = none := by
        rw [List.find?_eq_none]
        intro q hq
        simp [hlr q hq a (.inl rfl) hless]
      rw [if_pos hless, ihr found hmr, hnone, List.find?_cons_of_neg (by simp [hless])]
      rfl
    · rw [if_neg hless, ihl (some a) hml, List.find?_cons_of_pos (by simp [hless])]
      cases (inorder l).find? (fun a => !below a) <;> rfl

/-! ## Commuting with `map` -/

section Map

variable (f : α → β)

@[simp] theorem map_nil : (nil : BinaryTree α).map f = nil := rfl

@[simp] theorem map_node (a : α) (l r : BinaryTree α) :
    (node a l r).map f = node (f a) (l.map f) (r.map f) := rfl

@[simp] theorem height_map (t : BinaryTree α) : (t.map f).height = t.height := by
  induction t with
  | nil => rfl
  | node a l r ihl ihr => simp only [map_node, height, ihl, ihr]

@[simp] theorem inorder_map (t : BinaryTree α) : inorder (t.map f) = (inorder t).map f := by
  induction t with
  | nil => rfl
  | node a l r ihl ihr => simp only [map_node, inorder_node, ihl, ihr, List.map_append, List.map_cons]

/-- Only the values of the tree matter. -/
theorem map_congr_mem {f g : α → β} {t : BinaryTree α} (h : ∀ a ∈ inorder t, f a = g a) :
    t.map f = t.map g := by
  induction t with
  | nil => rfl
  | node a l r ihl ihr =>
    simp only [inorder_node, List.mem_append, List.mem_cons] at h
    rw [map_node, map_node, h a (.inr (.inl rfl)), ihl (fun x hx => h x (.inl hx)),
      ihr (fun x hx => h x (.inr (.inr hx)))]

theorem map_id_of_fixed {f : α → α} {t : BinaryTree α} (h : ∀ a ∈ inorder t, f a = a) :
    t.map f = t := (map_congr_mem h).trans t.id_map

/-- A frame with every value replaced. -/
def Frame.map : Frame α → Frame β
  | .left a r => .left (f a) (r.map f)
  | .right a l => .right (f a) (l.map f)

theorem map_rotL (t : BinaryTree α) : (rotL t).map f = rotL (t.map f) := by
  cases t with
  | nil => rfl
  | node a l r => cases r <;> rfl

theorem map_rotR (t : BinaryTree α) : (rotR t).map f = rotR (t.map f) := by
  cases t with
  | nil => rfl
  | node a l r => cases l <;> rfl

theorem map_fixLeft (a : α) (l r : BinaryTree α) :
    (fixLeft a l r).map f = fixLeft (f a) (l.map f) (r.map f) := by
  cases l with
  | nil => rfl
  | node b ll lr =>
    simp only [fixLeft, map_node, height_map]
    split
    · rw [map_rotR, map_node, map_rotL, map_node]
    · rw [map_rotR, map_node, map_node]

theorem map_fixRight (a : α) (l r : BinaryTree α) :
    (fixRight a l r).map f = fixRight (f a) (l.map f) (r.map f) := by
  cases r with
  | nil => rfl
  | node b rl rr =>
    simp only [fixRight, map_node, height_map]
    split
    · rw [map_rotL, map_node, map_rotR, map_node]
    · rw [map_rotL, map_node, map_node]

theorem map_rebalance (a : α) (l r : BinaryTree α) :
    (rebalance a l r).map f = rebalance (f a) (l.map f) (r.map f) := by
  simp only [rebalance, height_map]
  split
  · exact map_fixLeft f a l r
  · split
    · exact map_fixRight f a l r
    · rfl

theorem map_plug (c : List (Frame α)) (t : BinaryTree α) :
    (plug c t).map f = plug (c.map (Frame.map f)) (t.map f) := by
  induction c generalizing t with
  | nil => rfl
  | cons g gs ih =>
    rw [plug, ih, List.map_cons, plug]
    cases g <;> rfl

theorem map_fixUp (c : List (Frame α)) (t : BinaryTree α) :
    (fixUp c t).map f = fixUp (c.map (Frame.map f)) (t.map f) := by
  induction c generalizing t with
  | nil => rfl
  | cons g gs ih =>
    rw [fixUp, ih, List.map_cons, fixUp]
    cases g with
    | left a r => rw [Frame.fix, map_rebalance, Frame.map, Frame.fix]
    | right a l => rw [Frame.fix, map_rebalance, Frame.map, Frame.fix]

/-- A context none of whose values is replaced. -/
theorem map_ctx_of_fixed {f : α → α} {c : List (Frame α)}
    (h : ∀ a ∈ before c ++ after c, f a = a) : c.map (Frame.map f) = c := by
  induction c with
  | nil => rfl
  | cons g gs ih =>
    cases g with
    | left a r =>
      simp only [before, after, List.mem_append, List.mem_cons] at h
      have hgs := ih (fun x hx => h x (by rcases List.mem_append.mp hx with hx | hx <;> simp [hx]))
      have hr := map_id_of_fixed (t := r) (fun x hx => h x (by simp [hx]))
      rw [List.map_cons, hgs, Frame.map, hr, h a (by simp)]
    | right a l =>
      simp only [before, after, List.mem_append, List.mem_cons, List.not_mem_nil, or_false] at h
      have hgs := ih (fun x hx => h x (by rcases List.mem_append.mp hx with hx | hx <;> simp [hx]))
      have hl := map_id_of_fixed (t := l) (fun x hx => h x (by simp [hx]))
      rw [List.map_cons, hgs, Frame.map, hl, h a (by simp)]

theorem map_leafCtx (less : β → Bool) (c : List (Frame α)) (t : BinaryTree α) :
    (leafCtx (fun a => less (f a)) c t).map (Frame.map f) =
      leafCtx less (c.map (Frame.map f)) (t.map f) := by
  induction t generalizing c with
  | nil => rfl
  | node a l r ihl ihr =>
    rw [map_node, leafCtx, leafCtx]
    split
    · exact ihl (.left a r :: c)
    · exact ihr (.right a l :: c)

/-- Insertion commutes with `map`. -/
theorem map_insertBy (less : β → Bool) (x : α) (t : BinaryTree α) :
    (insertBy (fun a => less (f a)) x t).map f = insertBy less (f x) (t.map f) := by
  rw [insertBy, map_fixUp, map_leafCtx]
  rfl

theorem map_findCtx (q : β → Bool) (c : List (Frame α)) (t : BinaryTree α) :
    findCtx q (c.map (Frame.map f)) (t.map f) =
      (findCtx (fun a => q (f a)) c t).map
        (fun v => (v.1.map (Frame.map f), f v.2.1, v.2.2.1.map f, v.2.2.2.map f)) := by
  induction t generalizing c with
  | nil => rfl
  | node a l r ihl ihr =>
    rw [map_node, findCtx, findCtx]
    split
    · rfl
    · rw [Option.map_or]
      exact congrArg₂ Option.or (ihl (.left a r :: c)) (ihr (.right a l :: c))

theorem map_takeLeftmost (a : α) (l r : BinaryTree α) :
    takeLeftmost (f a) (l.map f) (r.map f) =
      (f (takeLeftmost a l r).1, (takeLeftmost a l r).2.map f) := by
  induction l generalizing a r with
  | nil => rfl
  | node b ll lr ih _ =>
    rw [map_node, takeLeftmost, takeLeftmost, ih b lr, map_rebalance]

theorem map_join (l r : BinaryTree α) : (join l r).map f = join (l.map f) (r.map f) := by
  cases l with
  | nil => rfl
  | node a ll lr =>
    cases r with
    | nil => rfl
    | node b rl rr =>
      simp only [map_node, join]
      rw [map_rebalance, map_takeLeftmost, map_node]

/-- Deletion commutes with `map`. -/
theorem map_eraseBy (q : β → Bool) (t : BinaryTree α) :
    (eraseBy (fun a => q (f a)) t).map f = eraseBy q (t.map f) := by
  have hfind := map_findCtx f q [] t
  rw [List.map_nil] at hfind
  rw [eraseBy, eraseBy, hfind]
  cases findCtx (fun a => q (f a)) [] t with
  | none => rfl
  | some v =>
    obtain ⟨c, a, l, r⟩ := v
    rw [Option.map_some]
    show (fixUp c (join l r)).map f = fixUp (c.map (Frame.map f)) (join (l.map f) (r.map f))
    rw [map_fixUp, map_join]

/-- The search for a lower bound commutes with `map`. -/
theorem map_seek (below : β → Bool) (found : Option α) (t : BinaryTree α) :
    (seek (fun a => below (f a)) found t).map f = seek below (found.map f) (t.map f) := by
  induction t generalizing found with
  | nil => rfl
  | node a l r ihl ihr =>
    rw [map_node, seek, seek]
    split
    · exact ihr found
    · exact ihl (some a)

end Map

/-! ## Handing a place over -/

section Replace

variable [DecidableEq α] {c rc : List (Frame α)} {l r lt rt vr : BinaryTree α} {a b p v : α}

theorem update_id_of_notMem {xs : List α} (h : p ∉ xs) (v : α) :
    ∀ x ∈ xs, Function.update id p v x = x := by
  intro x hx
  apply Function.update_of_ne
  rintro rfl
  exact h hx

/-- A value that occurs once, replaced where it stands. -/
theorem plug_replace (hnd : (inorder (plug c (node p l r))).Nodup) (v : α) :
    (plug c (node p l r)).map (Function.update id p v) = plug c (node v l r) := by
  obtain ⟨hc, hl, hr⟩ := apart_of_nodup hnd
  rw [map_plug, map_node, Function.update_self, map_ctx_of_fixed (update_id_of_notMem hc v),
    map_id_of_fixed (update_id_of_notMem hl v), map_id_of_fixed (update_id_of_notMem hr v)]

/-- Deletion of a node with two subtrees in two steps: the leftmost value of
the right one is taken out while the node is still there, and is then put in
the place of the node, wherever the repair has moved that to. -/
theorem fixUp_replace (hnd : (inorder (plug c (node p (node a l r) (node b lt rt)))).Nodup)
    (hplug : node b lt rt = plug rc (node (takeLeftmost b lt rt).1 .nil vr))
    (hfix : (takeLeftmost b lt rt).2 = fixUp rc vr) :
    (fixUp (rc ++ .right p (node a l r) :: c) vr).map
        (Function.update id p (takeLeftmost b lt rt).1) =
      fixUp c (join (node a l r) (node b lt rt)) := by
  obtain ⟨hc, hl, hr⟩ := apart_of_nodup hnd
  rw [hplug, inorder_plug, inorder_node] at hr
  have hrc : p ∉ before rc ++ after rc := by
    simp only [List.mem_append] at hr ⊢
    tauto
  have hvr : p ∉ inorder vr := by
    simp only [List.mem_append, List.mem_cons] at hr
    tauto
  rw [map_fixUp, List.map_append, List.map_cons, Frame.map, Function.update_self,
    map_ctx_of_fixed (update_id_of_notMem hrc _), map_ctx_of_fixed (update_id_of_notMem hc _),
    map_id_of_fixed (update_id_of_notMem hl _), map_id_of_fixed (update_id_of_notMem hvr _),
    fixUp_append, ← hfix]
  rfl

end Replace

end AvlTree
