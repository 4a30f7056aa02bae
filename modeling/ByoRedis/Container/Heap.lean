import ByoRedis.Container.Common

/-!
# Container — the indexed binary heap

`container/heap.h`. An entry carries, next to its value, the address
`ref_pos` of a `size_t` in its owner; the sifts write every move through it,
so that an owner always knows where its entry is. `HeapMem` is what the
functions see: the array `h`, and the memory that the `ref_pos` pointers
point into. There `none` is `(size_t)-1`, which owners use for "not in the
heap" and which is no position of any array. `len` is the number of array
entries that belong to the heap.
-/

namespace ByoRedis

/-- `struct HeapEntry<T>`. -/
structure HeapEntry (T : Type) where
  refPos : Ptr
  val : T
deriving DecidableEq

/-- The array, and the `size_t` cells behind the `ref_pos` pointers. -/
structure HeapMem (T : Type) where
  h : Nat → HeapEntry T
  refs : Ptr → Option Nat

variable {T : Type}

/-- `h[pos] = e; *(h[pos].ref_pos) = pos;` -/
def HeapMem.place (m : HeapMem T) (pos : Nat) (e : HeapEntry T) : HeapMem T :=
  { h := Function.update m.h pos e, refs := Function.update m.refs e.refPos (some pos) }

/-- `std::swap(h[i], h[j])`; the positions are not written. -/
def HeapMem.swap (m : HeapMem T) (i j : Nat) : HeapMem T :=
  { m with h := Function.update (Function.update m.h i (m.h j)) j (m.h i) }

/-- The loop of `__heap_sift_up`, with the hole at `pos`. -/
def heapSiftUpLoop (comp : T → T → Bool) (hole : HeapEntry T) (m : HeapMem T) (pos : Nat) :
    HeapMem T :=
  if 0 < pos then
    if comp (m.h ((pos - 1) / 2)).val hole.val then
      heapSiftUpLoop comp hole (m.place pos (m.h ((pos - 1) / 2))) ((pos - 1) / 2)
    else m.place pos hole
  else m.place pos hole
termination_by pos

/-- `__heap_sift_up`. -/
def heapSiftUp (comp : T → T → Bool) (m : HeapMem T) (pos : Nat) : HeapMem T :=
  heapSiftUpLoop comp (m.h pos) m pos

/-- The kid of `pos` that the sift compares the hole with. -/
def heapKid (comp : T → T → Bool) (m : HeapMem T) (len pos : Nat) : Nat :=
  if pos * 2 + 2 < len ∧ comp (m.h (pos * 2 + 1)).val (m.h (pos * 2 + 2)).val = true
  then pos * 2 + 2 else pos * 2 + 1

theorem heapKid_cases (comp : T → T → Bool) (m : HeapMem T) (len pos : Nat) :
    heapKid comp m len pos = pos * 2 + 1 ∨
      (heapKid comp m len pos = pos * 2 + 2 ∧ pos * 2 + 2 < len) := by
  unfold heapKid
  split
  · rename_i h
    exact .inr ⟨rfl, h.1⟩
  · exact .inl rfl

/-- The loop of `__heap_sift_down`, with the hole at `pos`; the second
component is where the hole was filled. -/
def heapSiftDownLoop (comp : T → T → Bool) (len : Nat) (hole : HeapEntry T) (m : HeapMem T)
    (pos : Nat) : HeapMem T × Nat :=
  if len ≤ pos * 2 + 1 then (m.place pos hole, pos)
  else if comp hole.val (m.h (heapKid comp m len pos)).val then
    heapSiftDownLoop comp len hole (m.place pos (m.h (heapKid comp m len pos)))
      (heapKid comp m len pos)
  else (m.place pos hole, pos)
termination_by len - pos
decreasing_by
  rcases heapKid_cases comp m len pos with h | ⟨h, _⟩ <;> omega

/-- `__heap_sift_down`: whether the entry moved. -/
def heapSiftDown (comp : T → T → Bool) (m : HeapMem T) (len pos : Nat) : HeapMem T × Bool :=
  let r := heapSiftDownLoop comp len (m.h pos) m pos
  (r.1, decide (pos < r.2))

/-- `heap_fix`. -/
def heapFix (comp : T → T → Bool) (m : HeapMem T) (len pos : Nat) : HeapMem T :=
  let r := heapSiftDown comp m len pos
  if r.2 then r.1 else heapSiftUp comp r.1 pos

/-- `heap_push`. -/
def heapPush (comp : T → T → Bool) (m : HeapMem T) (len : Nat) : HeapMem T :=
  heapSiftUp comp m (len - 1)

/-- `heap_pop(h, len)`: the top entry goes to the back. -/
def heapPopTop (comp : T → T → Bool) (m : HeapMem T) (len : Nat) : HeapMem T :=
  (heapSiftDown comp (m.swap 0 (len - 1)) (len - 1) 0).1

/-- `heap_pop(h, len, pos)`: the entry at `pos` goes to the back. -/
def heapPop (comp : T → T → Bool) (m : HeapMem T) (len pos : Nat) : HeapMem T :=
  if pos = 0 then heapPopTop comp m len
  else if pos < len - 1 then heapFix comp (m.swap pos (len - 1)) (len - 1) pos
  else m

end ByoRedis
