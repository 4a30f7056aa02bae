import ByoRedis.Container.HeapOrder
import ByoRedis.Server.Db

/-!
# Server — TTL timers and their owners

`Timers m len S`: the heap of the entries `S` is a min-heap whose items and
whose owners know each other, so that items and entries with a TTL are in
bijection. `deadline` is the TTL of an entry as the entry sees it (through
`heap_idx`); `deadline_iff` is the same through the items of the heap, which
is how every change of the heap is followed to the other entries' TTLs.
-/

namespace ByoRedis

instance : IsStrictWeakOrder Nat (fun a b => greater a b = true) where
  irrefl := by
    intro a
    simp [greater]
  trans := by
    intro a b c hab hbc
    simp only [greater, decide_eq_true_eq] at *
    omega
  incomp_trans := by
    intro a b c hab hbc
    simp only [greater, decide_eq_true_eq] at *
    omega

/-- When the entry expires: the value at its place in the heap. -/
def deadline (m : HeapMem Nat) (p : Ptr) : Option Nat := (m.refs p).map (fun i => (m.h i).val)

/-- The heap of the TTLs of the entries `S`. -/
structure Timers (m : HeapMem Nat) (len : Nat) (S : Finset Ptr) : Prop where
  positioned : Positioned m len
  ordered : HeapOrd greater m.h len
  owned : ∀ i < len, (m.h i).refPos ∈ S
  indexed : ∀ p ∈ S, ∀ i, m.refs p = some i → i < len ∧ (m.h i).refPos = p

variable {m m₁ m' : HeapMem Nat} {len i v : Nat} {S : Finset Ptr} {p q : Ptr} {t : HeapEntry Nat}

theorem Timers.distinct (h : Timers m len S) : DistinctRefs m.h len := by
  intro i hi j hj hij
  have h1 := h.positioned i hi
  rw [hij, h.positioned j hj] at h1
  exact (Option.some.inj h1).symm

/-- The TTL of an entry, read off the items of the heap. -/
theorem Timers.deadline_iff (h : Timers m len S) (hp : p ∈ S) :
    deadline m p = some v ↔ (⟨p, v⟩ : HeapEntry Nat) ∈ heapList m.h len := by
  rw [mem_heapList]
  constructor
  · intro hd
    simp only [deadline, Option.map_eq_some_iff] at hd
    obtain ⟨i, hi, rfl⟩ := hd
    obtain ⟨hlt, href⟩ := h.indexed p hp i hi
    exact ⟨i, hlt, by rw [← href]⟩
  · rintro ⟨i, hi, he⟩
    have href := h.positioned i hi
    rw [he] at href
    rw [deadline, href, Option.map_some, he]

/-- The first item expires first. -/
theorem Timers.root_le (h : Timers m len S) (hi : i < len) : (m.h 0).val ≤ (m.h i).val := by
  have := h.ordered.root_first i hi
  simp only [greater, decide_eq_false_iff_not, not_lt] at this
  exact this

/-- An operation that rearranges the items, puts them in order and records
their positions leaves the timers in order, if whoever has no item says so. -/
theorem Timers.of_rearranged (hr : Rearranged m₁ len m') (hp : Positioned m' len)
    (ho : HeapOrd greater m'.h len) (howned : ∀ i < len, (m₁.h i).refPos ∈ S)
    (hout : ∀ q ∈ S, (∀ i < len, (m₁.h i).refPos ≠ q) → m₁.refs q = none) : Timers m' len S := by
  refine ⟨hp, ho, ?_, ?_⟩
  · intro i hi
    obtain ⟨j, hj, hje⟩ := mem_heapList.mp (hr.perm.mem_iff.mp (mem_heapList.mpr ⟨i, hi, rfl⟩))
    rw [← hje]
    exact howned j hj
  · intro q hq i hi
    by_cases hin : ∃ j < len, (m₁.h j).refPos = q
    · obtain ⟨j, hj, hjq⟩ := hin
      obtain ⟨k, hk, hke⟩ := mem_heapList.mp (hr.perm.symm.mem_iff.mp
        (mem_heapList.mpr ⟨j, hj, rfl⟩))
      have hkq : (m'.h k).refPos = q := by rw [hke, hjq]
      have hki := hp k hk
      rw [hkq, hi] at hki
      obtain rfl : i = k := Option.some.inj hki
      exact ⟨hk, hkq⟩
    · -- no item of `q`: its cell is not written
      have hno : ∀ i < len, (m₁.h i).refPos ≠ q := fun j hj hjq => hin ⟨j, hj, hjq⟩
      rw [hr.frame q hno, hout q hq hno] at hi
      cases hi

theorem heapList_congr {h h' : Nat → HeapEntry Nat} (heq : ∀ i < len, h' i = h i) :
    heapList h' len = heapList h len := by
  apply List.map_congr_left
  intro i hi
  exact heq i (List.mem_range.mp hi)

/-- The others keep their TTL when their items are the same. -/
theorem deadline_congr {len' : Nat} (h : Timers m len S) (h' : Timers m' len' S) (hq : q ∈ S)
    (heq : ∀ v, (⟨q, v⟩ : HeapEntry Nat) ∈ heapList m'.h len' ↔ ⟨q, v⟩ ∈ heapList m.h len) :
    deadline m' q = deadline m q := by
  apply Option.ext
  intro v
  exact ((h'.deadline_iff hq).trans (heq v)).trans (h.deadline_iff hq).symm

/-! ## The operations -/

variable {g : Db}

/-- A new item at the back, sifted up. -/
theorem heapAdd_spec (h : Timers g.heap g.heapSize S) (hp : t.refPos ∈ S)
    (hnone : g.heap.refs t.refPos = none) :
    Timers (heapAdd g t).heap (heapAdd g t).heapSize S ∧
      deadline (heapAdd g t).heap t.refPos = some t.val ∧
      ∀ q ∈ S, q ≠ t.refPos → deadline (heapAdd g t).heap q = deadline g.heap q := by
  let m₁ : HeapMem Nat := { g.heap with h := Function.update g.heap.h g.heapSize t }
  have hold : ∀ i < g.heapSize, m₁.h i = g.heap.h i := by
    intro i hi
    exact Function.update_of_ne (by omega) _ _
  have hlast : m₁.h g.heapSize = t := Function.update_self _ _ _
  have hlist : heapList m₁.h (g.heapSize + 1) = heapList g.heap.h g.heapSize ++ [t] := by
    rw [heapList_succ, heapList_congr hold, hlast]
  have hno : ∀ i < g.heapSize, (g.heap.h i).refPos ≠ t.refPos := by
    intro i hi he
    have := h.positioned i hi
    rw [he, hnone] at this
    cases this
  have hd : DistinctRefs m₁.h (g.heapSize + 1) := by
    rw [distinctRefs_iff_nodup, hlist, List.map_append, List.nodup_append]
    refine ⟨distinctRefs_iff_nodup.mp h.distinct, by simp, ?_⟩
    intro a ha b hb
    simp only [List.map_cons, List.map_nil, List.mem_singleton] at hb
    obtain ⟨e, he, rfl⟩ := List.mem_map.mp ha
    obtain ⟨i, hi, rfl⟩ := mem_heapList.mp he
    rw [hb]
    exact hno i hi
  have hpos : Positioned m₁ (g.heapSize + 1 - 1) := by
    intro i hi
    rw [hold i (by omega)]
    exact h.positioned i (by omega)
  have hord : HeapOrd greater m₁.h (g.heapSize + 1 - 1) := by
    intro i hi0 hi
    rw [hold i (by omega), hold _ (by omega)]
    exact h.ordered i hi0 (by omega)
  obtain ⟨hr, hp', ho'⟩ := heapPush_spec hd (by omega) hpos hord
  have hT : Timers (heapAdd g t).heap (heapAdd g t).heapSize S := by
    apply Timers.of_rearranged hr hp' ho'
    · intro i hi
      by_cases hlt : i < g.heapSize
      · rw [hold i hlt]
        exact h.owned i hlt
      · rw [show i = g.heapSize by omega, hlast]
        exact hp
    · intro q hq hnoq
      by_contra hsome
      obtain ⟨i, href⟩ := Option.ne_none_iff_exists'.mp hsome
      obtain ⟨hi, hiq⟩ := h.indexed q hq i href
      exact hnoq i (by omega) (by rw [hold i hi, hiq])
  have hmem : ∀ e, e ∈ heapList (heapAdd g t).heap.h (g.heapSize + 1) ↔
      e ∈ heapList g.heap.h g.heapSize ∨ e = t := by
    intro e
    show e ∈ heapList (heapPush greater m₁ (g.heapSize + 1)).h (g.heapSize + 1) ↔ _
    rw [hr.perm.mem_iff, hlist, List.mem_append, List.mem_singleton]
  refine ⟨hT, (hT.deadline_iff hp).mpr ((hmem _).mpr (.inr rfl)), ?_⟩
  intro q hq hqp
  apply deadline_congr h hT hq
  intro v
  rw [show (heapAdd g t).heapSize = g.heapSize + 1 from rfl, hmem]
  constructor
  · rintro (hin | rfl)
    · exact hin
    · exact absurd rfl hqp
  · exact .inl

/-- **`heap_upsert`** sets the TTL of one entry. -/
theorem heapUpsert_spec (h : Timers g.heap g.heapSize S) (hp : t.refPos ∈ S) :
    ∃ m' len', heapUpsert g t = { g with heap := m', heapSize := len' } ∧ Timers m' len' S ∧
      deadline m' t.refPos = some t.val ∧
      ∀ q ∈ S, q ≠ t.refPos → deadline m' q = deadline g.heap q := by
  cases href : g.heap.refs t.refPos with
  | none =>
    obtain ⟨hT, hself, hother⟩ := heapAdd_spec h hp href
    refine ⟨_, _, ?_, hT, hself, hother⟩
    rw [heapUpsert, href]
    rfl
  | some pos =>
    obtain ⟨hlt, hown⟩ := h.indexed _ hp pos href
    let m₁ : HeapMem Nat := { g.heap with h := Function.update g.heap.h pos t }
    have hat : m₁.h pos = t := Function.update_self _ _ _
    have hold : ∀ i, i ≠ pos → m₁.h i = g.heap.h i := fun i hi => Function.update_of_ne hi _ _
    have hrefs : ∀ i, (m₁.h i).refPos = (g.heap.h i).refPos := by
      intro i
      by_cases hi : i = pos
      · rw [hi, hat, hown]
      · rw [hold i hi]
    have hd : DistinctRefs m₁.h g.heapSize := by
      intro i hi j hj hij
      rw [hrefs, hrefs] at hij
      exact h.distinct i hi j hj hij
    have hpos : ∀ i < g.heapSize, i ≠ pos → m₁.refs (m₁.h i).refPos = some i := by
      intro i hi _
      rw [hrefs]
      exact h.positioned i hi
    have hole : HoleOrd greater m₁.h g.heapSize pos :=
      h.ordered.holeOrd hlt (fun i _ hi => by rw [hold i hi])
    obtain ⟨hr, hp', ho'⟩ := heapFix_spec hd hlt hpos hole
    have hT : Timers (heapFix greater m₁ g.heapSize pos) g.heapSize S := by
      apply Timers.of_rearranged hr hp' ho'
      · intro i hi
        rw [hrefs]
        exact h.owned i hi
      · intro q hq hno
        by_contra hsome
        obtain ⟨i, hq'⟩ := Option.ne_none_iff_exists'.mp hsome
        obtain ⟨hi, hiq⟩ := h.indexed q hq i hq'
        exact hno i hi ((hrefs i).trans hiq)
    refine ⟨_, g.heapSize, ?_, hT, ?_, ?_⟩
    · rw [heapUpsert, href]
      simp only [if_pos hlt]
      rfl
    · apply (hT.deadline_iff hp).mpr
      rw [hr.perm.mem_iff, mem_heapList]
      exact ⟨pos, hlt, hat⟩
    · intro q hq hqp
      apply deadline_congr h hT hq
      intro v
      rw [hr.perm.mem_iff, mem_heapList, mem_heapList]
      constructor
      · rintro ⟨i, hi, he⟩
        have hip : i ≠ pos := by
          rintro rfl
          rw [hat] at he
          exact hqp (by rw [he])
        exact ⟨i, hi, by rw [← hold i hip, he]⟩
      · rintro ⟨i, hi, he⟩
        have hip : i ≠ pos := by
          rintro rfl
          rw [he] at hown
          exact hqp hown
        exact ⟨i, hi, by rw [hold i hip, he]⟩

/-- **`heap_remove`** with the reset of `heap_idx` takes away the TTL of one
entry. -/
theorem heapRemove_spec (h : Timers g.heap g.heapSize S) (hp : p ∈ S) {pos : Nat}
    (href : g.heap.refs p = some pos) :
    ∃ g₁ m' len', heapRemove g pos = some g₁ ∧
      clearHeapIdx g₁ p = { g with heap := m', heapSize := len' } ∧ Timers m' len' S ∧
      m'.refs p = none ∧ g.heapSize = len' + 1 ∧
      ∀ q ∈ S, q ≠ p → deadline m' q = deadline g.heap q := by
  obtain ⟨hlt, hown⟩ := h.indexed p hp pos href
  have hpop : Popped greater g.heap g.heapSize _ _ :=
    heapPop_spec h.distinct hlt h.positioned h.ordered
  let m₀ := heapPop greater g.heap g.heapSize pos
  let m' : HeapMem Nat := { m₀ with refs := Function.update m₀.refs p none }
  have hsize : g.heapSize = g.heapSize - 1 + 1 := by omega
  have hlist : heapList m₀.h g.heapSize = heapList m₀.h (g.heapSize - 1) ++ [g.heap.h pos] := by
    have hsucc := heapList_succ m₀.h (g.heapSize - 1)
    rw [← hsize] at hsucc
    rw [hsucc, hpop.last]
  have hmem : ∀ e, e ∈ heapList g.heap.h g.heapSize ↔
      e ∈ heapList m₀.h (g.heapSize - 1) ∨ e = g.heap.h pos := by
    intro e
    rw [← hpop.rearranged.perm.mem_iff, hlist, List.mem_append, List.mem_singleton]
  have hd₀ := hpop.rearranged.distinct h.distinct
  -- the popped item is the only one of `p`
  have hnop : ∀ i < g.heapSize - 1, (m₀.h i).refPos ≠ p := by
    intro i hi he
    have hlast : (m₀.h (g.heapSize - 1)).refPos = p := by rw [hpop.last, hown]
    have := hd₀ i (by omega) (g.heapSize - 1) (by omega) (by rw [he, hlast])
    omega
  have hT : Timers m' (g.heapSize - 1) S := by
    refine ⟨?_, hpop.ordered, ?_, ?_⟩
    · intro i hi
      show Function.update m₀.refs p none (m₀.h i).refPos = some i
      rw [Function.update_of_ne (hnop i hi)]
      exact hpop.positioned i hi
    · intro i hi
      obtain ⟨j, hj, hje⟩ := mem_heapList.mp ((hmem _).mpr (.inl (mem_heapList.mpr ⟨i, hi, rfl⟩)))
      show (m₀.h i).refPos ∈ S
      rw [← hje]
      exact h.owned j hj
    · intro q hq i hi
      by_cases hqp : q = p
      · rw [hqp] at hi
        simp [m'] at hi
      · have hi₀ : m₀.refs q = some i := by
          rw [← hi]
          exact (Function.update_of_ne hqp _ _).symm
        by_cases hin : ∃ j < g.heapSize, (g.heap.h j).refPos = q
        · obtain ⟨j, hj, hjq⟩ := hin
          rcases (hmem _).mp (mem_heapList.mpr ⟨j, hj, rfl⟩) with hk | hk
          · obtain ⟨k, hk, hke⟩ := mem_heapList.mp hk
            have hkq : (m₀.h k).refPos = q := by rw [hke, hjq]
            have hki := hpop.positioned k hk
            rw [hkq] at hki
            obtain rfl : i = k := Option.some.inj (hi₀.symm.trans hki)
            exact ⟨hk, hkq⟩
          · rw [hk, hown] at hjq
            exact absurd hjq.symm hqp
        · have hno : ∀ j < g.heapSize, (g.heap.h j).refPos ≠ q := fun j hj hjq => hin ⟨j, hj, hjq⟩
          have hsame := hpop.rearranged.frame q hno
          obtain ⟨hi', hiq⟩ := h.indexed q hq i (hsame.symm.trans hi₀)
          exact absurd hiq (hno i hi')
  refine ⟨{ g with heap := m₀, heapSize := g.heapSize - 1 }, m', g.heapSize - 1, ?_, rfl, hT, ?_,
    hsize, ?_⟩
  · rw [heapRemove, if_neg (by omega)]
  · exact Function.update_self _ _ _
  · intro q hq hqp
    apply deadline_congr h hT hq
    intro v
    show _ ∈ heapList m₀.h (g.heapSize - 1) ↔ _
    rw [hmem]
    constructor
    · exact .inl
    · rintro (hin | he)
      · exact hin
      · have hq' : q = p := by rw [← hown, ← he]
        exact absurd hq' hqp

/-- **`entry_set_ttl`** sets or takes away the TTL of one entry and leaves
those of the others alone. -/
theorem entrySetTtl_spec (h : Timers g.heap g.heapSize S) (hp : p ∈ S) (now : Nat) (ttl : Int) :
    ∃ m' len', entrySetTtl now g p ttl = some { g with heap := m', heapSize := len' } ∧
      Timers m' len' S ∧
      deadline m' p = (if ttl < 0 then none else some ((now + ttl.toNat) % 2 ^ 64)) ∧
      ∀ q ∈ S, q ≠ p → deadline m' q = deadline g.heap q := by
  by_cases hneg : ttl < 0
  · simp only [entrySetTtl, if_pos hneg]
    cases href : g.heap.refs p with
    | none => exact ⟨g.heap, g.heapSize, rfl, h, by rw [deadline, href]; rfl, fun _ _ _ => rfl⟩
    | some pos =>
      obtain ⟨g₁, m', len', hrem, hclear, hT, hnone, -, hother⟩ := heapRemove_spec h hp href
      refine ⟨m', len', ?_, hT, by rw [deadline, hnone]; rfl, hother⟩
      simp only [hrem, Option.bind_eq_bind, Option.bind_some, hclear]
  · obtain ⟨m', len', hups, hT, hself, hother⟩ :=
      heapUpsert_spec (t := ⟨p, (now + ttl.toNat) % 2 ^ 64⟩) h hp
    refine ⟨m', len', ?_, hT, ?_, hother⟩
    · rw [entrySetTtl, if_neg hneg, hups]
    · rw [if_neg hneg]
      exact hself

/-! ## Entries come and go -/

/-- A fresh entry has no TTL. -/
theorem Timers.insert_fresh (h : Timers m len S) (hp : p ∉ S) :
    Timers { m with refs := Function.update m.refs p none } len (insert p S) ∧
      deadline { m with refs := Function.update m.refs p none } p = none ∧
      ∀ q ∈ S, deadline { m with refs := Function.update m.refs p none } q = deadline m q := by
  have hne : ∀ q ∈ S, q ≠ p := fun q hq hqp => hp (hqp ▸ hq)
  refine ⟨⟨?_, h.ordered, ?_, ?_⟩, by simp [deadline], ?_⟩
  · intro i hi
    show Function.update m.refs p none (m.h i).refPos = some i
    rw [Function.update_of_ne (hne _ (h.owned i hi))]
    exact h.positioned i hi
  · exact fun i hi => Finset.mem_insert_of_mem (h.owned i hi)
  · intro q hq i hi
    rcases Finset.mem_insert.mp hq with rfl | hq
    · simp at hi
    · exact h.indexed q hq i (by simpa [Function.update_of_ne (hne q hq)] using hi)
  · intro q hq
    simp only [deadline]
    rw [Function.update_of_ne (hne q hq)]

/-- An entry without a TTL can be unlinked. -/
theorem Timers.erase (h : Timers m len S) (hp : deadline m p = none) :
    Timers m len (S.erase p) := by
  have hnone : m.refs p = none := by
    simpa [deadline] using hp
  refine ⟨h.positioned, h.ordered, ?_, ?_⟩
  · intro i hi
    refine Finset.mem_erase.mpr ⟨?_, h.owned i hi⟩
    intro he
    have := h.positioned i hi
    rw [he, hnone] at this
    cases this
  · exact fun q hq => h.indexed q (Finset.mem_of_mem_erase hq)

end ByoRedis
