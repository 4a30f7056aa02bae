import ByoRedis.Container.Heap

/-!
# Container — what the heap operations keep

Two independent facts are carried through the sifts. `Sift` is about the
entries: the array with the hole filled is a rearrangement of the array at
the start, every other entry knows its position, and nothing outside is
written. `HoleOrd` and its companions are about the order: every parent and
child that do not touch the hole are in order.

`comp` is any strict weak order; the root is a maximal element for it
(`std::greater` makes it a minimum).
-/

namespace ByoRedis

variable {T : Type} {comp : T → T → Bool}

/-- The entries of the heap. -/
def heapList (h : Nat → HeapEntry T) (len : Nat) : List (HeapEntry T) := (List.range len).map h

/-- Every parent is at or above its kids. -/
def HeapOrd (comp : T → T → Bool) (h : Nat → HeapEntry T) (len : Nat) : Prop :=
  ∀ i, 0 < i → i < len → comp (h ((i - 1) / 2)).val (h i).val = false

/-- Every entry's owner knows its position. -/
def Positioned (m : HeapMem T) (len : Nat) : Prop := ∀ i < len, m.refs (m.h i).refPos = some i

/-- No two entries of the heap write to the same cell. -/
def DistinctRefs (h : Nat → HeapEntry T) (len : Nat) : Prop :=
  ∀ i < len, ∀ j < len, (h i).refPos = (h j).refPos → i = j

/-! ## The comparator -/

section Order

variable [IsStrictWeakOrder T (fun a b => comp a b = true)]

theorem comp_asymm {a b : T} (h : comp a b = true) : comp b a = false := by
  by_contra hba
  have hba : comp b a = true := by simpa using hba
  have hirr : ¬ comp a a = true := irrefl_of (fun a b => comp a b = true) a
  exact hirr (trans_of (fun a b => comp a b = true) h hba)

/-- Not-above is transitive. -/
theorem comp_false_trans {a b c : T} (hab : comp a b = false) (hbc : comp b c = false) :
    comp a c = false := by
  by_contra hac
  have hac : comp a c = true := by simpa using hac
  have hba : ¬ comp b a = true := by
    intro hba
    have := trans_of (fun a b => comp a b = true) hba hac
    simp [hbc] at this
  have hcb : ¬ comp c b = true := by
    intro hcb
    have := trans_of (fun a b => comp a b = true) hac hcb
    simp [hab] at this
  have hord : IsStrictWeakOrder T (fun a b => comp a b = true) := inferInstance
  have hinc := hord.incomp_trans a b c ⟨by simp [hab], hba⟩ ⟨by simp [hbc], hcb⟩
  exact hinc.1 hac

/-- The root is above every entry of an ordered heap. -/
theorem HeapOrd.root_first {h : Nat → HeapEntry T} {len : Nat} (ho : HeapOrd comp h len) :
    ∀ i, i < len → comp (h 0).val (h i).val = false := by
  intro i
  induction i using Nat.strongRecOn with
  | ind i ih =>
    intro hi
    by_cases h0 : i = 0
    · subst h0
      by_contra hc
      exact irrefl_of (fun a b => comp a b = true) (h 0).val (by simpa using hc)
    · exact comp_false_trans (ih ((i - 1) / 2) (by omega) (by omega)) (ho i (by omega) hi)

end Order

/-! ## The entries under a sift -/

theorem mem_heapList {h : Nat → HeapEntry T} {len : Nat} {e : HeapEntry T} :
    e ∈ heapList h len ↔ ∃ i < len, h i = e := by
  simp [heapList]

/-- Exchanging two entries rearranges the array. -/
theorem heapList_swap_perm (h : Nat → HeapEntry T) {len i j : Nat} (hi : i < len)
    (hj : j < len) :
    (heapList (Function.update (Function.update h i (h j)) j (h i)) len).Perm
      (heapList h len) := by
  have hfun : Function.update (Function.update h i (h j)) j (h i) = h ∘ Equiv.swap i j := by
    funext k
    by_cases hkj : k = j
    · subst hkj
      simp
    · by_cases hki : k = i
      · subst hki
        simp [hkj]
      · simp [hkj, hki, Equiv.swap_apply_of_ne_of_ne]
  have hrange : ((List.range len).map (Equiv.swap i j)).Perm (List.range len) := by
    rw [List.perm_ext_iff_of_nodup
      (List.Nodup.map (Equiv.swap i j).injective List.nodup_range) List.nodup_range]
    intro k
    simp only [List.mem_map, List.mem_range]
    constructor
    · rintro ⟨a, ha, rfl⟩
      rw [Equiv.swap_apply_def]
      split
      · exact hj
      · split <;> assumption
    · intro hk
      refine ⟨Equiv.swap i j k, ?_, by simp⟩
      rw [Equiv.swap_apply_def]
      split
      · exact hj
      · split <;> assumption
  rw [hfun, heapList, ← List.map_map]
  exact hrange.map h

theorem distinctRefs_iff_nodup {h : Nat → HeapEntry T} {len : Nat} :
    DistinctRefs h len ↔ ((heapList h len).map HeapEntry.refPos).Nodup := by
  rw [heapList, List.map_map, List.nodup_map_iff_inj_on List.nodup_range]
  constructor
  · intro hd i hi j hj hij
    exact hd i (List.mem_range.mp hi) j (List.mem_range.mp hj) hij
  · intro hd i hi j hj hij
    exact hd i (List.mem_range.mpr hi) j (List.mem_range.mpr hj) hij

theorem DistinctRefs.of_perm {h h' : Nat → HeapEntry T} {len : Nat} (hd : DistinctRefs h len)
    (hp : (heapList h' len).Perm (heapList h len)) : DistinctRefs h' len := by
  rw [distinctRefs_iff_nodup] at hd ⊢
  exact (hp.map HeapEntry.refPos).nodup_iff.mpr hd

/-- The state of a sift that started from `m₀`, with the entry `hole` lifted
out of the array at `pos`. -/
structure Sift (m₀ : HeapMem T) (len : Nat) (hole : HeapEntry T) (m : HeapMem T) (pos : Nat) :
    Prop where
  lt : pos < len
  distinct : DistinctRefs m₀.h len
  positioned : ∀ i < len, i ≠ pos → m.refs (m.h i).refPos = some i
  perm : (heapList (Function.update m.h pos hole) len).Perm (heapList m₀.h len)
  frame : ∀ p, (∀ i < len, (m₀.h i).refPos ≠ p) → m.refs p = m₀.refs p
  beyond : ∀ i, len ≤ i → m.h i = m₀.h i

variable {m₀ m : HeapMem T} {len pos : Nat} {hole : HeapEntry T}

/-- A sift starts by lifting the entry out. -/
theorem Sift.start (hd : DistinctRefs m.h len) (hlt : pos < len)
    (hp : ∀ i < len, i ≠ pos → m.refs (m.h i).refPos = some i) :
    Sift m len (m.h pos) m pos where
  lt := hlt
  distinct := hd
  positioned := hp
  perm := by rw [Function.update_eq_self]
  frame := fun _ _ => rfl
  beyond := fun _ _ => rfl

/-- With the hole filled, the entries still write to distinct cells. -/
theorem Sift.distinct_view (s : Sift m₀ len hole m pos) :
    DistinctRefs (Function.update m.h pos hole) len :=
  s.distinct.of_perm s.perm

/-- A cell that no entry of the start writes to is written by no entry now. -/
theorem Sift.refPos_mem (s : Sift m₀ len hole m pos) {i : Nat} (hi : i < len) :
    ∃ j < len, (m₀.h j).refPos = (Function.update m.h pos hole i).refPos := by
  have hmem : Function.update m.h pos hole i ∈ heapList (Function.update m.h pos hole) len :=
    mem_heapList.mpr ⟨i, hi, rfl⟩
  obtain ⟨j, hj, he⟩ := mem_heapList.mp (s.perm.mem_iff.mp hmem)
  exact ⟨j, hj, by rw [he]⟩

/-- The entry at `q` moves into the hole, which is now at `q`. -/
theorem Sift.move (s : Sift m₀ len hole m pos) {q : Nat} (hq : q < len) (hne : q ≠ pos) :
    Sift m₀ len hole (m.place pos (m.h q)) q where
  lt := hq
  distinct := s.distinct
  positioned := by
    intro i hi hiq
    show Function.update m.refs (m.h q).refPos (some pos)
      (Function.update m.h pos (m.h q) i).refPos = some i
    by_cases hip : i = pos
    · subst hip
      simp
    · have hdiff : (m.h i).refPos ≠ (m.h q).refPos := by
        intro heq
        have := s.distinct_view i hi q hq
        simp only [Function.update_of_ne hip, Function.update_of_ne hne] at this
        exact hiq (this heq)
      rw [Function.update_of_ne hip, Function.update_of_ne hdiff]
      exact s.positioned i hi hip
  perm := by
    -- filling the new hole is exchanging two entries of the old array with its hole filled
    have hswap := heapList_swap_perm (Function.update m.h pos hole) s.lt hq
    have hfun : Function.update (m.place pos (m.h q)).h q hole =
        Function.update (Function.update (Function.update m.h pos hole) pos
          (Function.update m.h pos hole q)) q (Function.update m.h pos hole pos) := by
      simp only [HeapMem.place, Function.update_of_ne hne, Function.update_self,
        Function.update_idem]
    rw [hfun]
    exact hswap.trans s.perm
  frame := by
    intro p hp
    obtain ⟨j, hj, he⟩ := s.refPos_mem hq
    rw [Function.update_of_ne hne] at he
    show Function.update m.refs (m.h q).refPos (some pos) p = m₀.refs p
    have hpq : p ≠ (m.h q).refPos := by
      intro h
      exact hp j hj (he.trans h.symm)
    rw [Function.update_of_ne hpq]
    exact s.frame p hp
  beyond := by
    intro i hi
    have hip : i ≠ pos := by have := s.lt; omega
    show Function.update m.h pos (m.h q) i = m₀.h i
    rw [Function.update_of_ne hip]
    exact s.beyond i hi

/-- What any finished operation on the entries leaves behind. -/
structure Rearranged (m₀ : HeapMem T) (len : Nat) (m : HeapMem T) : Prop where
  perm : (heapList m.h len).Perm (heapList m₀.h len)
  frame : ∀ p, (∀ i < len, (m₀.h i).refPos ≠ p) → m.refs p = m₀.refs p
  beyond : ∀ i, len ≤ i → m.h i = m₀.h i

theorem Rearranged.distinct (r : Rearranged m₀ len m) (hd : DistinctRefs m₀.h len) :
    DistinctRefs m.h len := hd.of_perm r.perm

theorem Rearranged.trans {m₁ : HeapMem T} (r₁ : Rearranged m₀ len m₁)
    (r₂ : Rearranged m₁ len m) : Rearranged m₀ len m where
  perm := r₂.perm.trans r₁.perm
  frame := by
    intro p hp
    rw [r₂.frame p, r₁.frame p hp]
    intro i hi he
    have hmem : m₁.h i ∈ heapList m₁.h len := mem_heapList.mpr ⟨i, hi, rfl⟩
    obtain ⟨j, hj, hje⟩ := mem_heapList.mp (r₁.perm.mem_iff.mp hmem)
    exact hp j hj (by rw [hje, he])
  beyond := fun i hi => (r₂.beyond i hi).trans (r₁.beyond i hi)

/-- Filling the hole ends the sift. -/
theorem Sift.finish (s : Sift m₀ len hole m pos) :
    Rearranged m₀ len (m.place pos hole) ∧ Positioned (m.place pos hole) len := by
  obtain ⟨j, hj, he⟩ := s.refPos_mem s.lt
  rw [Function.update_self] at he
  refine ⟨⟨s.perm, ?_, ?_⟩, ?_⟩
  · intro p hp
    have hph : p ≠ hole.refPos := by
      intro h
      exact hp j hj (he.trans h.symm)
    show Function.update m.refs hole.refPos (some pos) p = m₀.refs p
    rw [Function.update_of_ne hph]
    exact s.frame p hp
  · intro i hi
    have hip : i ≠ pos := by have := s.lt; omega
    show Function.update m.h pos hole i = m₀.h i
    rw [Function.update_of_ne hip]
    exact s.beyond i hi
  · intro i hi
    show Function.update m.refs hole.refPos (some pos)
      (Function.update m.h pos hole i).refPos = some i
    by_cases hip : i = pos
    · subst hip
      simp
    · have hdiff : (m.h i).refPos ≠ hole.refPos := by
        intro heq
        have := s.distinct_view i hi pos s.lt
        simp only [Function.update_of_ne hip, Function.update_self] at this
        exact hip (this heq)
      rw [Function.update_of_ne hip, Function.update_of_ne hdiff]
      exact s.positioned i hi hip

end ByoRedis
