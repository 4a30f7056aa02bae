import Mathlib

/-!
# Lib — a list whose nodes keep their identity

A linked list in the way of `std::list`: an element lives in a node, a handle
refers to the node wherever it is moved to, and a handle of a node that was
removed is never given to another. Handles and their nodes agree by the fields
of the structure. What goes wrong in the program (a handle without a node, the
last element of an empty list) answers `none`.
-/

/-- The nodes from front to back, each with its handle; `next` is the handle of
the next node to be made. -/
structure NodeList (β : Type) where
  nodes : List (Nat × β)
  next : Nat
  nodup : (nodes.map Prod.fst).Nodup
  bound : ∀ n ∈ nodes, n.1 < next

namespace NodeList

variable {β : Type}

/-- No nodes. -/
def empty : NodeList β where
  nodes := []
  next := 0
  nodup := List.nodup_nil
  bound := by simp

/-- The elements, from front to back. -/
def toList (l : NodeList β) : List β := l.nodes.map Prod.snd

/-- The number of elements. -/
def size (l : NodeList β) : Nat := l.nodes.length

/-- The handle of the first node. -/
def begin (l : NodeList β) : Option Nat := l.nodes.head?.map Prod.fst

/-- The last element. -/
def back (l : NodeList β) : Option β := l.nodes.getLast?.map Prod.snd

/-- The element in the node of a handle. -/
def deref (l : NodeList β) (h : Nat) : Option β := (l.nodes.find? (·.1 == h)).map Prod.snd

theorem handle_inj {l : NodeList β} {n n' : Nat × β} (hn : n ∈ l.nodes) (hn' : n' ∈ l.nodes)
    (h : n.1 = n'.1) : n = n' :=
  List.inj_on_of_nodup_map l.nodup hn hn' h

theorem deref_eq_some {l : NodeList β} {h : Nat} {x : β} :
    l.deref h = some x ↔ (h, x) ∈ l.nodes := by
  rw [deref, Option.map_eq_some_iff]
  constructor
  · rintro ⟨⟨h', x'⟩, hfind, rfl⟩
    obtain rfl : h' = h := by simpa using List.find?_some hfind
    exact List.mem_of_find?_eq_some hfind
  · intro hmem
    cases hfind : l.nodes.find? (·.1 == h) with
    | none =>
      rw [List.find?_eq_none] at hfind
      exact absurd hmem (by simpa using hfind (h, x))
    | some n =>
      have hn : n.1 = h := by simpa using List.find?_some hfind
      obtain rfl := handle_inj (List.mem_of_find?_eq_some hfind) hmem hn
      exact ⟨_, rfl, rfl⟩

/-! ## Changes -/

/-- Overwrite the element in a node. -/
def assign (l : NodeList β) (h : Nat) (x : β) : Option (NodeList β) :=
  match l.deref h with
  | none => none
  | some _ => some
    { nodes := l.nodes.map fun n => (n.1, if n.1 = h then x else n.2)
      next := l.next
      nodup := by
        rw [List.map_map]
        exact l.nodup
      bound := by
        intro n hn
        obtain ⟨n', hn', rfl⟩ := List.mem_map.mp hn
        exact l.bound n' hn' }

/-- Move a node to the front. -/
def toFront (l : NodeList β) (h : Nat) : Option (NodeList β) :=
  match hx : l.deref h with
  | none => none
  | some x => some
    { nodes := (h, x) :: l.nodes.filter (·.1 ≠ h)
      next := l.next
      nodup := by
        rw [List.map_cons, List.nodup_cons]
        exact ⟨by simp, (List.filter_sublist.map Prod.fst).nodup l.nodup⟩
      bound := by
        intro n hn
        rcases List.mem_cons.mp hn with rfl | hn
        · exact l.bound _ (deref_eq_some.mp hx)
        · exact l.bound n (List.mem_filter.mp hn).1 }

/-- A new node at the front. -/
def emplaceFront (l : NodeList β) (x : β) : NodeList β where
  nodes := (l.next, x) :: l.nodes
  next := l.next + 1
  nodup := by
    rw [List.map_cons, List.nodup_cons]
    refine ⟨?_, l.nodup⟩
    intro hmem
    obtain ⟨n, hn, he⟩ := List.mem_map.mp hmem
    exact absurd (l.bound n hn) (by omega)
  bound := by
    intro n hn
    rcases List.mem_cons.mp hn with rfl | hn
    · exact Nat.lt_succ_self _
    · exact Nat.lt_succ_of_lt (l.bound n hn)

/-- Remove the last node. -/
def popBack (l : NodeList β) : Option (NodeList β) :=
  if l.nodes = [] then none
  else some
    { nodes := l.nodes.dropLast
      next := l.next
      nodup := ((List.dropLast_sublist _).map Prod.fst).nodup l.nodup
      bound := fun n hn => l.bound n (List.mem_of_mem_dropLast hn) }

/-! ## What they do -/

variable {l : NodeList β} {h : Nat} {x : β}

/-- The other nodes are those that were there. -/
theorem filter_map_other (ns : List (Nat × β)) (y : β) :
    (ns.map fun n => (n.1, if n.1 = h then y else n.2)).filter (·.1 ≠ h) =
      ns.filter (·.1 ≠ h) := by
  induction ns with
  | nil => rfl
  | cons n ns ih =>
    by_cases hn : n.1 = h
    · simpa [List.filter_cons, hn] using ih
    · simpa [List.filter_cons, hn] using ih

theorem assign_spec (hx : (h, x) ∈ l.nodes) (y : β) : ∃ l', l.assign h y = some l' ∧
    (h, y) ∈ l'.nodes ∧ l'.nodes.filter (·.1 ≠ h) = l.nodes.filter (·.1 ≠ h) := by
  rw [assign, deref_eq_some.mpr hx]
  refine ⟨_, rfl, ?_, filter_map_other l.nodes y⟩
  exact List.mem_map.mpr ⟨(h, x), hx, by simp⟩

theorem toFront_spec (hx : (h, x) ∈ l.nodes) : ∃ l', l.toFront h = some l' ∧
    l'.nodes = (h, x) :: l.nodes.filter (·.1 ≠ h) := by
  have hder := deref_eq_some.mpr hx
  unfold toFront
  split
  · rename_i hnone
    rw [hnone] at hder
    cases hder
  · rename_i x' hx'
    rw [hx'] at hder
    cases hder
    exact ⟨_, rfl, rfl⟩

/-- Moving a node keeps the nodes. -/
theorem toFront_perm (hx : (h, x) ∈ l.nodes) :
    ((h, x) :: l.nodes.filter (·.1 ≠ h)).Perm l.nodes := by
  have hnodup : l.nodes.Nodup := l.nodup.of_map
  have hnot : (h, x) ∉ l.nodes.filter (·.1 ≠ h) := by simp
  refine (List.perm_ext_iff_of_nodup (List.nodup_cons.mpr ⟨hnot, hnodup.filter _⟩) hnodup).mpr ?_
  intro n
  rw [List.mem_cons, List.mem_filter, decide_eq_true_iff]
  constructor
  · rintro (rfl | hn)
    · exact hx
    · exact hn.1
  · intro hn
    by_cases he : n.1 = h
    · exact .inl (handle_inj hn hx he)
    · exact .inr ⟨hn, he⟩

/-- The last node, and the list without it. -/
theorem popBack_spec (hne : 0 < l.size) : ∃ l' n, l.popBack = some l' ∧
    l.nodes = l'.nodes ++ [n] ∧ l.back = some n.2 := by
  have hnil : l.nodes ≠ [] := List.ne_nil_of_length_pos hne
  refine ⟨_, l.nodes.getLast hnil, if_neg hnil, (List.dropLast_append_getLast hnil).symm, ?_⟩
  rw [back, List.getLast?_eq_some_getLast hnil, Option.map_some]

end NodeList
