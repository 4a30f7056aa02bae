import Mathlib

/-!
# Container — the intrusive ring

`container/list.h`. Nodes are told apart by a type `N`, and the two pointers
of every node are kept in a memory. The pointer assignments are those of the
source, one after the other. `Ring m head l` says that the nodes `l` hang
behind `head`, in this order; each operation is an edit of `l`.
-/

namespace ByoRedis

variable {N : Type}

/-- `struct ListNode`. -/
structure ListNode (N : Type) where
  prev : N
  next : N

/-- Where the pointers of the nodes are kept. -/
abbrev ListMem (N : Type) := N → ListNode N

namespace ListMem

section Operations

variable [DecidableEq N]

/-- `p->prev = q`. -/
def setPrev (m : ListMem N) (p q : N) : ListMem N := Function.update m p { m p with prev := q }

/-- `p->next = q`. -/
def setNext (m : ListMem N) (p q : N) : ListMem N := Function.update m p { m p with next := q }

/-- A node that was just constructed. -/
def init (m : ListMem N) (p : N) : ListMem N := Function.update m p { prev := p, next := p }

/-- `ListNode::empty`. -/
def empty (m : ListMem N) (this : N) : Bool := (m this).next = this

/-- `ListNode::detach`. -/
def detach (m : ListMem N) (this : N) : ListMem N :=
  let m := m.setNext (m this).prev (m this).next
  let m := m.setPrev (m this).next (m this).prev
  let m := m.setPrev this this
  m.setNext this this

/-- `ListNode::insert_back`. -/
def insertBack (m : ListMem N) (this rookie : N) : ListMem N :=
  let m := m.setPrev rookie (m this).prev
  let m := m.setNext rookie this
  let m := m.setNext (m this).prev rookie
  m.setPrev this rookie

end Operations

/-! ## Rings -/

/-- Two nodes are linked both ways. -/
def Linked (m : ListMem N) (x y : N) : Prop := (m x).next = y ∧ (m y).prev = x

/-- The nodes `l` hang behind `head`, in this order. -/
structure Ring (m : ListMem N) (head : N) (l : List N) : Prop where
  links : (head :: (l ++ [head])).IsChain m.Linked
  nodup : (head :: l).Nodup

variable {m m' : ListMem N} {head p : N} {l : List N}

/-- Links depend on the forward pointers of all but the last node and on the
backward pointers of all but the first. -/
theorem links_congr (h : l.IsChain m.Linked) (hnext : ∀ x ∈ l.dropLast, (m' x).next = (m x).next)
    (hprev : ∀ y ∈ l.tail, (m' y).prev = (m y).prev) : l.IsChain m'.Linked := by
  induction l with
  | nil => exact .nil
  | cons x l ih =>
    cases l with
    | nil => exact .singleton x
    | cons y l =>
      obtain ⟨⟨hn, hp⟩, hrest⟩ := List.isChain_cons_cons.mp h
      refine List.isChain_cons_cons.mpr ⟨⟨?_, ?_⟩, ih hrest ?_ ?_⟩
      · rw [hnext x (by simp), hn]
      · rw [hprev y (by simp), hp]
      · intro u hu
        exact hnext u (by rw [List.dropLast_cons_cons]; exact List.mem_cons_of_mem _ hu)
      · intro v hv
        exact hprev v (List.mem_of_mem_tail hv)

/-- A memory that agrees on the nodes of a ring has the ring too. -/
theorem Ring.congr (h : m.Ring head l) (hm : ∀ x ∈ head :: l, m' x = m x) : m'.Ring head l := by
  refine ⟨links_congr h.links ?_ ?_, h.nodup⟩
  · intro x hx
    rw [hm x]
    rw [← List.cons_append, List.dropLast_concat] at hx
    exact hx
  · intro x hx
    rw [hm x]
    rw [List.tail_cons, List.mem_append, List.mem_singleton] at hx
    rcases hx with hx | rfl
    · exact List.mem_cons_of_mem _ hx
    · exact List.mem_cons_self

theorem Ring.next_head (h : m.Ring head l) : (m head).next = l.headD head := by
  cases l with
  | nil => exact (List.isChain_cons_cons.mp h.links).1.1
  | cons x l => exact (List.isChain_cons_cons.mp h.links).1.1

variable [DecidableEq N]

/-- **`empty`** tells whether nothing hangs behind the head. -/
theorem Ring.empty_iff (h : m.Ring head l) : m.empty head = true ↔ l = [] := by
  rw [empty, decide_eq_true_iff, h.next_head]
  cases l with
  | nil => simp
  | cons x l =>
    have hne : x ≠ head := by
      intro hx
      exact (List.nodup_cons.mp h.nodup).1 (by simp [hx])
    simpa using hne

theorem init_ring (m : ListMem N) (head : N) : (m.init head).Ring head [] := by
  refine ⟨List.isChain_pair.mpr ⟨?_, ?_⟩, List.nodup_singleton _⟩ <;> simp [init]

theorem setPrev_next (p q u : N) : ((m.setPrev p q) u).next = (m u).next := by
  by_cases h : u = p
  · subst h
    simp [setPrev]
  · simp [setPrev, h]

theorem setPrev_prev (p q u : N) : ((m.setPrev p q) u).prev = if u = p then q else (m u).prev := by
  by_cases h : u = p
  · subst h
    simp [setPrev]
  · simp [setPrev, h]

theorem setNext_prev (p q u : N) : ((m.setNext p q) u).prev = (m u).prev := by
  by_cases h : u = p
  · subst h
    simp [setNext]
  · simp [setNext, h]

theorem setNext_next (p q u : N) : ((m.setNext p q) u).next = if u = p then q else (m u).next := by
  by_cases h : u = p
  · subst h
    simp [setNext]
  · simp [setNext, h]

/-- What `detach` writes, when the neighbours are other nodes. -/
theorem detach_next {x z : N} (hx : (m p).prev = x) (hz : (m p).next = z) (hpx : p ≠ x) (u : N) :
    ((m.detach p) u).next = if u = p then p else if u = x then z else (m u).next := by
  simp only [detach, setPrev_next, setNext_prev, setNext_next, hx, hz, if_neg hpx]

theorem detach_prev {x z : N} (hx : (m p).prev = x) (hz : (m p).next = z) (hpx : p ≠ x) (u : N) :
    ((m.detach p) u).prev = if u = p then p else if u = z then x else (m u).prev := by
  simp only [detach, setPrev_prev, setNext_prev, setNext_next, hx, hz, if_neg hpx]

/-- What `insert_back` writes, for a node outside of the ring. -/
theorem insertBack_next {x : N} (hx : (m head).prev = x) (hph : p ≠ head) (u : N) :
    ((m.insertBack head p) u).next = if u = x then p else if u = p then head else (m u).next := by
  simp only [insertBack, setPrev_next, setPrev_prev, setNext_prev, setNext_next, hx,
    if_neg hph.symm]

theorem insertBack_prev {x : N} (hx : (m head).prev = x) (u : N) :
    ((m.insertBack head p) u).prev = if u = head then p else if u = p then x else (m u).prev := by
  simp only [insertBack, setPrev_prev, setNext_prev, hx]

/-- **`detach`** takes a node out of the ring. -/
theorem Ring.detach {a b : List N} (h : m.Ring head (a ++ p :: b)) :
    (m.detach p).Ring head (a ++ b) := by
  -- the neighbours of `p`, and the nodes before and behind them
  obtain ⟨A, x, hA⟩ : ∃ A x, head :: a = A ++ [x] :=
    ⟨(head :: a).dropLast, (head :: a).getLast (List.cons_ne_nil _ _),
      (List.dropLast_concat_getLast _).symm⟩
  obtain ⟨z, B, hB⟩ : ∃ z B, b ++ [head] = z :: B :=
    List.exists_cons_of_ne_nil (by simp)
  have hlinks := h.links
  rw [List.append_assoc, List.cons_append, hB, ← List.cons_append, hA, List.append_assoc,
    List.singleton_append, List.isChain_append_cons_cons, List.isChain_cons_cons] at hlinks
  obtain ⟨hbefore, ⟨-, hpx⟩, ⟨hpz, -⟩, hbehind⟩ := hlinks
  have hx : x ∈ head :: a := by simp [hA]
  have hz : z ∈ b ++ [head] := by simp [hB]
  -- no node occurs twice
  have hnd : (head :: a ++ p :: b).Nodup := h.nodup
  obtain ⟨hnda, hndb, hdisj⟩ := List.nodup_append.mp hnd
  obtain ⟨hpb, hndb⟩ := List.nodup_cons.mp hndb
  have hpa : p ∉ head :: a := fun hp => hdisj p hp p (by simp) rfl
  have hba : ∀ u ∈ b, u ∉ head :: a := fun u hu hu' => hdisj u hu' u (by simp [hu]) rfl
  have hndB : (z :: B).Nodup := by
    rw [← hB, List.nodup_append]
    refine ⟨hndb, List.nodup_singleton _, ?_⟩
    intro u hu v hv huv
    rw [List.mem_singleton] at hv
    exact hba u hu (by simp [huv, hv])
  have hpz' : p ≠ z := by
    intro he
    rw [← he, List.mem_append, List.mem_singleton] at hz
    rcases hz with hz | hz
    · exact hpb hz
    · exact hpa (by simp [hz])
  have hpx' : p ≠ x := fun he => hpa (he ▸ hx)
  have hnext := detach_next hpx hpz hpx'
  have hprev := detach_prev hpx hpz hpx'
  refine ⟨?_, ?_⟩
  · rw [List.append_assoc, hB, ← List.cons_append, hA, List.append_assoc, List.singleton_append,
      List.isChain_append_cons_cons]
    refine ⟨links_congr hbefore ?_ ?_, ⟨?_, ?_⟩, links_congr hbehind ?_ ?_⟩
    · intro u hu
      rw [List.dropLast_concat] at hu
      have hup : u ≠ p := fun he => hpa (by rw [hA]; simp [← he, hu])
      have hux : u ≠ x := by
        intro he
        rw [hA, List.nodup_append] at hnda
        exact hnda.2.2 u hu x (by simp) he
      rw [hnext, if_neg hup, if_neg hux]
    · intro v hv
      rw [← hA, List.tail_cons] at hv
      have hvp : v ≠ p := fun he => hpa (by simp [← he, hv])
      have hvz : v ≠ z := by
        rintro rfl
        rcases List.mem_append.mp hz with hz | hz
        · exact hba v hz (by simp [hv])
        · exact (List.nodup_cons.mp hnda).1 (by rwa [← List.mem_singleton.mp hz])
      rw [hprev, if_neg hvp, if_neg hvz]
    · rw [hnext, if_neg (Ne.symm hpx'), if_pos rfl]
    · rw [hprev, if_neg (Ne.symm hpz'), if_pos rfl]
    · intro u hu
      rw [← hB, List.dropLast_concat] at hu
      have hup : u ≠ p := fun he => hpb (he ▸ hu)
      have hux : u ≠ x := fun he => hba u hu (he ▸ hx)
      rw [hnext, if_neg hup, if_neg hux]
    · intro v hv
      have hvz : v ≠ z := fun he => (List.nodup_cons.mp hndB).1 (he ▸ hv)
      have hvp : v ≠ p := by
        rintro rfl
        have : v ∈ b ++ [head] := by rw [hB]; exact List.mem_of_mem_tail hv
        rcases List.mem_append.mp this with hb | hb
        · exact hpb hb
        · exact hpa (by simp [List.mem_singleton.mp hb])
      rw [hprev, if_neg hvp, if_neg hvz]
  · rw [← List.cons_append, List.nodup_append]
    exact ⟨hnda, hndb, fun u hu v hv huv => hba v hv (huv ▸ hu)⟩

/-- **`insert_back`** hangs a node behind all others. -/
theorem Ring.insertBack (h : m.Ring head l) (hp : p ∉ head :: l) :
    (m.insertBack head p).Ring head (l ++ [p]) := by
  obtain ⟨A, x, hA⟩ : ∃ A x, head :: l = A ++ [x] :=
    ⟨(head :: l).dropLast, (head :: l).getLast (List.cons_ne_nil _ _),
      (List.dropLast_concat_getLast _).symm⟩
  have hx : x ∈ head :: l := by simp [hA]
  have hlinks := h.links
  rw [← List.cons_append, hA, List.append_assoc, List.singleton_append,
    List.isChain_append_cons_cons] at hlinks
  obtain ⟨hbefore, ⟨-, hhx⟩, -⟩ := hlinks
  have hph : p ≠ head := fun he => hp (by simp [he])
  have hpx : p ≠ x := fun he => hp (he ▸ hx)
  have hnext := insertBack_next hhx hph
  have hprev := insertBack_prev (p := p) hhx
  refine ⟨?_, ?_⟩
  · rw [List.append_assoc, ← List.cons_append, hA, List.append_assoc, List.singleton_append,
      List.singleton_append, List.isChain_append_cons_cons, List.isChain_pair]
    refine ⟨links_congr hbefore ?_ ?_, ⟨?_, ?_⟩, ?_, ?_⟩
    · intro u hu
      rw [List.dropLast_concat] at hu
      have hup : u ≠ p := fun he => hp (by rw [hA]; simp [← he, hu])
      have hux : u ≠ x := by
        intro he
        have := h.nodup
        rw [hA, List.nodup_append] at this
        exact this.2.2 u hu x (by simp) he
      rw [hnext, if_neg hux, if_neg hup]
    · intro v hv
      rw [← hA, List.tail_cons] at hv
      have hvp : v ≠ p := fun he => hp (by simp [← he, hv])
      have hvh : v ≠ head := fun he => (List.nodup_cons.mp h.nodup).1 (he ▸ hv)
      rw [hprev, if_neg hvh, if_neg hvp]
    · rw [hnext, if_pos rfl]
    · rw [hprev, if_neg hph, if_pos rfl]
    · rw [hnext, if_neg hpx, if_pos rfl]
    · rw [hprev, if_pos rfl]
  · rw [← List.cons_append, List.nodup_append]
    refine ⟨h.nodup, List.nodup_singleton _, ?_⟩
    intro u hu v hv huv
    rw [List.mem_singleton] at hv
    exact hp (by rwa [← hv, ← huv])

end ListMem

end ByoRedis
