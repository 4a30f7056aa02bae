import ByoRedis.Container.HeapOrder
import ByoRedis.Lib.Run

/-!
# Container — the heap in a vector

`container/heap.h` works on a bare array; its users keep a `std::vector` of the
same length, push before `heap_push` and pop behind `heap_pop`. So used it is a
priority queue in which every item has an owner, who can replace or remove it
at any time. The abstract queue is a finite map from owners to values.
-/

namespace ByoRedis

variable {T : Type}

/-- A `std::vector<HeapEntry<T>>`, with the cells behind `ref_pos`. -/
structure HeapVec (T : Type) where
  mem : HeapMem T
  len : Nat

/-- The ways to use the heap. -/
inductive HeapCall (T : Type) where
  | push (owner : Ptr) (val : T)
  | update (owner : Ptr) (val : T)
  | remove (owner : Ptr)
  | popTop

namespace HeapVec

/-- `v.push_back(t); heap_push(v.data(), v.size());` -/
def push (comp : T → T → Bool) (v : HeapVec T) (t : HeapEntry T) : HeapVec T where
  mem := heapPush comp { v.mem with h := Function.update v.mem.h v.len t } (v.len + 1)
  len := v.len + 1

/-- `v[pos] = t; heap_fix(v.data(), v.size(), pos);` -/
def update (comp : T → T → Bool) (v : HeapVec T) (pos : Nat) (t : HeapEntry T) : HeapVec T :=
  { v with
    mem := heapFix comp { v.mem with h := Function.update v.mem.h pos t } v.len pos }

/-- `heap_pop(v.data(), v.size(), pos); t = v.back(); v.pop_back();` -/
def pop (comp : T → T → Bool) (v : HeapVec T) (pos : Nat) : HeapVec T × HeapEntry T :=
  let mem := heapPop comp v.mem v.len pos
  ({ mem := mem, len := v.len - 1 }, mem.h (v.len - 1))

/-- One call. An owner knows the position of its item from its own cell; a cell
that is no index of the vector is a mistake of the caller. -/
def step (comp : T → T → Bool) (v : HeapVec T) :
    HeapCall T → Option (HeapVec T × Option (HeapEntry T))
  | .push owner val => some (v.push comp ⟨owner, val⟩, none)
  | .update owner val => do
    let pos ← v.mem.refs owner
    if pos < v.len then some (v.update comp pos ⟨owner, val⟩, none) else none
  | .remove owner => do
    let pos ← v.mem.refs owner
    if pos < v.len then
      let (v, t) := v.pop comp pos
      some (v, some t)
    else none
  | .popTop =>
    if v.len = 0 then none
    else
      let mem := heapPopTop comp v.mem v.len
      some ({ mem := mem, len := v.len - 1 }, some (mem.h (v.len - 1)))

end HeapVec

/-! ## The queue -/

/-- The items of the queue, by their owners. -/
abbrev Queue (T : Type) := Finmap (fun _ : Ptr => T)

/-- What the calls do to the queue; `popTop` may choose among the items that
have nothing above them. -/
def QueueStep (comp : T → T → Bool) (q : Queue T) :
    HeapCall T → Option (HeapEntry T) → Queue T → Prop
  | .push owner val, o, q' => o = none ∧ q' = q.insert owner val
  | .update owner val, o, q' => o = none ∧ q' = q.insert owner val
  | .remove owner, o, q' =>
    ∃ val, q.lookup owner = some val ∧ o = some ⟨owner, val⟩ ∧ q' = q.erase owner
  | .popTop, o, q' =>
    ∃ owner val, q.lookup owner = some val ∧
      (∀ owner' val', q.lookup owner' = some val' → comp val val' = false) ∧
      o = some ⟨owner, val⟩ ∧ q' = q.erase owner

/-- Who calls has a place, or has none yet. -/
def HeapCall.Fair (q : Queue T) : HeapCall T → Prop
  | .push owner _ => owner ∉ q
  | .update owner _ => owner ∈ q
  | .remove owner => owner ∈ q
  | .popTop => q ≠ ∅

/-- The vector is a heap whose items are those of the queue. -/
structure HeapVec.Shows (comp : T → T → Bool) (v : HeapVec T) (q : Queue T) : Prop where
  ordered : HeapOrd comp v.mem.h v.len
  positioned : Positioned v.mem v.len
  distinct : DistinctRefs v.mem.h v.len
  items : ∀ owner val, q.lookup owner = some val ↔ ⟨owner, val⟩ ∈ heapList v.mem.h v.len

variable {comp : T → T → Bool} {v : HeapVec T} {q : Queue T} {owner : Ptr} {val : T}

/-- Where the item of an owner is. -/
theorem HeapVec.Shows.place (h : v.Shows comp q) (hown : q.lookup owner = some val) :
    ∃ pos < v.len, v.mem.refs owner = some pos ∧ v.mem.h pos = ⟨owner, val⟩ := by
  obtain ⟨pos, hlt, he⟩ := mem_heapList.mp ((h.items owner val).mp hown)
  have href := h.positioned pos hlt
  rw [he] at href
  exact ⟨pos, hlt, href, he⟩

theorem HeapVec.Shows.len_pos (h : v.Shows comp q) (hne : q ≠ ∅) : 0 < v.len := by
  obtain ⟨owner, hmem⟩ : ∃ owner, owner ∈ q := by
    by_contra hnone
    exact hne (Finmap.ext_lookup fun k => by
      rw [Finmap.lookup_empty]
      exact Finmap.lookup_eq_none.mpr fun hk => hnone ⟨k, hk⟩)
  obtain ⟨val, hval⟩ := Finmap.mem_iff.mp hmem
  obtain ⟨pos, hlt, -⟩ := h.place hval
  exact Nat.zero_lt_of_lt hlt

/-- The owners of the items are those of the queue. -/
theorem HeapVec.Shows.mem_iff (h : v.Shows comp q) :
    owner ∈ q ↔ ∃ t ∈ heapList v.mem.h v.len, t.refPos = owner := by
  rw [Finmap.mem_iff]
  constructor
  · rintro ⟨val, hval⟩
    exact ⟨_, (h.items owner val).mp hval, rfl⟩
  · rintro ⟨⟨owner, val⟩, ht, rfl⟩
    exact ⟨val, (h.items owner val).mpr ht⟩

/-- The array with a new last entry. -/
theorem heapList_update_last (h : Nat → HeapEntry T) (len : Nat) (t : HeapEntry T) :
    heapList (Function.update h len t) (len + 1) = heapList h len ++ [t] := by
  rw [heapList_succ, Function.update_self]
  congr 1
  refine List.map_congr_left fun i hi => ?_
  exact Function.update_of_ne (Nat.ne_of_lt (List.mem_range.mp hi)) _ _

section Order

variable [IsStrictWeakOrder T (fun a b => comp a b = true)]

/-! ## One call -/

theorem HeapVec.Shows.push (h : v.Shows comp q) (hnew : owner ∉ q) (val : T) :
    (v.push comp ⟨owner, val⟩).Shows comp (q.insert owner val) := by
  let m₁ : HeapMem T := { v.mem with h := Function.update v.mem.h v.len ⟨owner, val⟩ }
  have hlist : heapList m₁.h (v.len + 1) = heapList v.mem.h v.len ++ [⟨owner, val⟩] :=
    heapList_update_last _ _ _
  have hold : ∀ i < v.len, m₁.h i = v.mem.h i :=
    fun i hi => Function.update_of_ne (Nat.ne_of_lt hi) _ _
  have hd₁ : DistinctRefs m₁.h (v.len + 1) := by
    have hnot : owner ∉ (heapList v.mem.h v.len).map HeapEntry.refPos := by
      rw [List.mem_map]
      exact fun hmem => hnew (h.mem_iff.mpr hmem)
    rw [distinctRefs_iff_nodup, hlist, List.map_append]
    exact (distinctRefs_iff_nodup.mp h.distinct).append (List.nodup_singleton _)
      (List.disjoint_singleton.mpr hnot)
  have hp₁ : Positioned m₁ v.len := by
    intro i hi
    rw [hold i hi]
    exact h.positioned i hi
  have ho₁ : HeapOrd comp m₁.h v.len := by
    intro i hi0 hi
    rw [hold i hi, hold _ (by omega)]
    exact h.ordered i hi0 hi
  obtain ⟨hr, hp, ho⟩ := heapPush_spec hd₁ (Nat.succ_pos _) hp₁ ho₁
  refine ⟨ho, hp, hr.distinct hd₁, fun o x => ?_⟩
  have hmem : (⟨o, x⟩ : HeapEntry T) ∈ heapList (v.push comp ⟨owner, val⟩).mem.h (v.len + 1) ↔
      (⟨o, x⟩ : HeapEntry T) ∈ heapList v.mem.h v.len ∨ o = owner ∧ x = val := by
    rw [← HeapEntry.mk.injEq, ← List.mem_singleton, ← List.mem_append, ← hlist]
    exact hr.perm.mem_iff
  refine Iff.trans ?_ hmem.symm
  by_cases hoo : o = owner
  · subst hoo
    have hnot : (⟨o, x⟩ : HeapEntry T) ∉ heapList v.mem.h v.len :=
      fun hmem => hnew (h.mem_iff.mpr ⟨_, hmem, rfl⟩)
    rw [Finmap.lookup_insert]
    simp [hnot, eq_comm]
  · rw [Finmap.lookup_insert_of_ne _ hoo, h.items o x]
    simp [hoo]

theorem HeapVec.Shows.update (h : v.Shows comp q) {pos : Nat} (hpos : pos < v.len)
    (href : (v.mem.h pos).refPos = owner) (val : T) :
    (v.update comp pos ⟨owner, val⟩).Shows comp (q.insert owner val) := by
  let m₁ : HeapMem T := { v.mem with h := Function.update v.mem.h pos ⟨owner, val⟩ }
  have hself : m₁.h pos = ⟨owner, val⟩ := Function.update_self _ _ _
  have hother : ∀ i, i ≠ pos → m₁.h i = v.mem.h i := fun i hi => Function.update_of_ne hi _ _
  have hrefs : ∀ i, (m₁.h i).refPos = (v.mem.h i).refPos := by
    intro i
    by_cases hi : i = pos
    · rw [hi, hself, href]
    · rw [hother i hi]
  have hd₁ : DistinctRefs m₁.h v.len := by
    intro i hi j hj hij
    rw [hrefs, hrefs] at hij
    exact h.distinct i hi j hj hij
  have hp₁ : ∀ i < v.len, i ≠ pos → m₁.refs (m₁.h i).refPos = some i := by
    intro i hi _
    rw [hrefs]
    exact h.positioned i hi
  have ho₁ : HoleOrd comp m₁.h v.len pos :=
    h.ordered.holeOrd hpos fun i _ hi => by rw [hother i hi]
  obtain ⟨hr, hp, ho⟩ := heapFix_spec hd₁ hpos hp₁ ho₁
  refine ⟨ho, hp, hr.distinct hd₁, fun o x => ?_⟩
  have hmem : (⟨o, x⟩ : HeapEntry T) ∈ heapList (v.update comp pos ⟨owner, val⟩).mem.h v.len ↔
      ∃ i < v.len, m₁.h i = ⟨o, x⟩ := by
    rw [← mem_heapList]
    exact hr.perm.mem_iff
  refine Iff.trans ?_ hmem.symm
  by_cases hoo : o = owner
  · subst hoo
    rw [Finmap.lookup_insert]
    constructor
    · intro he
      exact ⟨pos, hpos, by rw [hself, Option.some.inj he]⟩
    · rintro ⟨i, hi, he⟩
      have hip : i = pos := h.distinct i hi pos hpos (by rw [← hrefs, he, href])
      rw [hip, hself] at he
      cases he
      rfl
  · rw [Finmap.lookup_insert_of_ne _ hoo, h.items o x, mem_heapList]
    -- the entry of another owner is in another place
    refine exists_congr fun i => and_congr_right fun hi => ?_
    by_cases hip : i = pos
    · subst hip
      rw [hself]
      constructor
      · intro he
        rw [he] at href
        exact absurd href hoo
      · intro he
        cases he
        exact absurd rfl hoo
    · rw [hother i hip]

theorem HeapVec.Shows.pop (h : v.Shows comp q) {pos : Nat} (hpos : pos < v.len) :
    (v.pop comp pos).2 = v.mem.h pos ∧
      (v.pop comp pos).1.Shows comp (q.erase (v.mem.h pos).refPos) ∧
      (v.mem.h pos :: heapList (v.pop comp pos).1.mem.h (v.len - 1)).Perm
        (heapList v.mem.h v.len) := by
  obtain ⟨hr, hlast, hp, ho⟩ := heapPop_spec h.distinct hpos h.positioned h.ordered
  have hperm : (v.mem.h pos :: heapList (v.pop comp pos).1.mem.h (v.len - 1)).Perm
      (heapList v.mem.h v.len) := by
    have hlist : ∀ h' : Nat → HeapEntry T,
        heapList h' v.len = heapList h' (v.len - 1) ++ [h' (v.len - 1)] := by
      intro h'
      rw [← heapList_succ, Nat.sub_add_cancel (by omega)]
    have hall := hr.perm
    rw [hlist (heapPop comp v.mem v.len pos).h, hlast] at hall
    exact (List.perm_append_singleton _ _).symm.trans hall
  have hnd : ((v.mem.h pos :: heapList (v.pop comp pos).1.mem.h (v.len - 1)).map
      HeapEntry.refPos).Nodup :=
    ((hperm.map _).nodup_iff).mpr (distinctRefs_iff_nodup.mp h.distinct)
  rw [List.map_cons, List.nodup_cons] at hnd
  refine ⟨hlast, ⟨ho, hp, distinctRefs_iff_nodup.mpr hnd.2, fun o x => ?_⟩, hperm⟩
  have hmem : (⟨o, x⟩ : HeapEntry T) ∈ heapList (v.pop comp pos).1.mem.h (v.len - 1) ↔
      (⟨o, x⟩ : HeapEntry T) ∈ heapList v.mem.h v.len ∧ o ≠ (v.mem.h pos).refPos := by
    rw [← hperm.mem_iff, List.mem_cons]
    constructor
    · intro hin
      refine ⟨.inr hin, fun he => hnd.1 ?_⟩
      rw [← he]
      exact List.mem_map.mpr ⟨_, hin, rfl⟩
    · rintro ⟨he | hin, hne⟩
      · rw [← he] at hne
        exact absurd rfl hne
      · exact hin
  refine Iff.trans ?_ hmem.symm
  by_cases hoo : o = (v.mem.h pos).refPos
  · rw [hoo, Finmap.lookup_erase]
    simp
  · rw [Finmap.lookup_erase_ne hoo, h.items o x]
    simp [hoo]

/-- **One call** of the heap is one step of the queue. -/
theorem HeapVec.Shows.step_queue (h : v.Shows comp q) (call : HeapCall T) (hfair : call.Fair q) :
    ∃ v' o q', v.step comp call = some (v', o) ∧ QueueStep comp q call o q' ∧
      v'.Shows comp q' := by
  cases call with
  | push owner val => exact ⟨_, _, _, rfl, ⟨rfl, rfl⟩, h.push hfair val⟩
  | update owner val =>
    obtain ⟨old, hold⟩ := Finmap.mem_iff.mp hfair
    obtain ⟨pos, hpos, href, hat⟩ := h.place hold
    refine ⟨v.update comp pos ⟨owner, val⟩, none, _, ?_, ⟨rfl, rfl⟩,
      h.update hpos (by rw [hat]) val⟩
    simp [HeapVec.step, href, hpos]
  | remove owner =>
    obtain ⟨val, hval⟩ := Finmap.mem_iff.mp hfair
    obtain ⟨pos, hpos, href, hat⟩ := h.place hval
    obtain ⟨hout, hshows, -⟩ := h.pop hpos
    rw [hat] at hout hshows
    refine ⟨(v.pop comp pos).1, some (v.pop comp pos).2, _, ?_, ⟨val, hval, ?_, rfl⟩, hshows⟩
    · simp [HeapVec.step, href, hpos]
    · rw [hout]
  | popTop =>
    have hlen := h.len_pos hfair
    obtain ⟨hout, hshows, -⟩ := h.pop hlen
    refine ⟨(v.pop comp 0).1, some (v.pop comp 0).2, _, ?_,
      ⟨(v.mem.h 0).refPos, (v.mem.h 0).val, ?_, ?_, by rw [hout], rfl⟩, hshows⟩
    · rw [HeapVec.step, if_neg (by omega), HeapVec.pop, heapPop, if_pos rfl]
    · exact (h.items _ _).mpr (mem_heapList.mpr ⟨0, hlen, rfl⟩)
    · intro owner' val' hval'
      obtain ⟨i, hi, he⟩ := mem_heapList.mp ((h.items _ _).mp hval')
      have hroot := h.ordered.root_first i hi
      rwa [he] at hroot

/-! ## Every run -/

theorem HeapVec.Shows.empty (comp : T → T → Bool) (m : HeapMem T) :
    HeapVec.Shows comp ⟨m, 0⟩ ∅ :=
  ⟨fun i _ hi => absurd hi (Nat.not_lt_zero i), fun i hi => absurd hi (Nat.not_lt_zero i),
    fun i hi => absurd hi (Nat.not_lt_zero i), fun owner val => by simp [heapList]⟩

theorem heapVec_run (m : HeapMem T) {calls : List (HeapCall T)}
    (hfair : Run.Admissible (QueueStep comp) (fun q call => call.Fair q) ∅ calls) :
    ∃ v os q, Run.run (HeapVec.step comp) ⟨m, 0⟩ calls = some (v, os) ∧
      Run.Accepts (QueueStep comp) ∅ calls os q ∧ v.Shows comp q :=
  Run.run_simulates (fun _ _ call h hfair => h.step_queue call hfair) (.empty comp m) hfair

/-- **The heap is a priority queue**, for every strict weak order and every
sequence of calls: what is popped is an item with nothing above it, and what an
owner replaces or removes is its own item, wherever the sifts have moved it. -/
theorem heap_refines_queue (comp : T → T → Bool)
    [IsStrictWeakOrder T (fun a b => comp a b = true)] (m : HeapMem T) (calls : List (HeapCall T))
    (hfair : Run.Admissible (QueueStep comp) (fun q call => call.Fair q) ∅ calls) :
    ∃ v os q, Run.run (HeapVec.step comp) ⟨m, 0⟩ calls = some (v, os) ∧
      Run.Accepts (QueueStep comp) ∅ calls os q ∧ v.Shows comp q :=
  heapVec_run m hfair

/-- The first `n` items, popped one after the other. -/
theorem HeapVec.Shows.pops (h : v.Shows comp q) {n : Nat} (hn : n ≤ v.len) :
    ∃ v' ts, Run.run (HeapVec.step comp) v (List.replicate n .popTop) = some (v', ts.map some) ∧
      ts.length = n ∧ (ts ++ heapList v'.mem.h v'.len).Perm (heapList v.mem.h v.len) ∧
      ts.Pairwise (fun a b => comp a.val b.val = false) ∧
      ∀ a ∈ ts, ∀ b ∈ heapList v'.mem.h v'.len, comp a.val b.val = false := by
  induction n generalizing v q with
  | zero => exact ⟨v, [], rfl, rfl, List.Perm.refl _, .nil, by simp⟩
  | succ n ih =>
    obtain ⟨hout, hshows, hperm⟩ := h.pop (show 0 < v.len by omega)
    obtain ⟨v', ts, hrun, hlen, hperm', hsorted, hrest⟩ := ih hshows (show n ≤ v.len - 1 by omega)
    have hstep : v.step comp .popTop = some ((v.pop comp 0).1, some (v.mem.h 0)) := by
      rw [← hout, HeapVec.step, if_neg (by omega), HeapVec.pop, heapPop, if_pos rfl]
    -- the top was above all that is popped later or left
    have htop : ∀ b ∈ ts ++ heapList v'.mem.h v'.len, comp (v.mem.h 0).val b.val = false := by
      intro b hb
      have hb' := hperm.mem_iff.mp (List.mem_cons_of_mem _ (hperm'.mem_iff.mp hb))
      obtain ⟨i, hi, rfl⟩ := mem_heapList.mp hb'
      exact h.ordered.root_first i hi
    refine ⟨v', v.mem.h 0 :: ts, Run.run_cons_some hstep hrun, by rw [List.length_cons, hlen],
      (hperm'.cons _).trans hperm,
      List.pairwise_cons.mpr ⟨fun b hb => htop b (List.mem_append_left _ hb), hsorted⟩, ?_⟩
    intro a ha b hb
    rcases List.mem_cons.mp ha with rfl | ha
    · exact htop b (List.mem_append_right _ hb)
    · exact hrest a ha b hb

/-- **Popping sorts.** After any calls, the items come out in their order, and none
is left out. -/
theorem heap_pops_sorted (comp : T → T → Bool)
    [IsStrictWeakOrder T (fun a b => comp a b = true)] (m : HeapMem T) (calls : List (HeapCall T))
    (hfair : Run.Admissible (QueueStep comp) (fun q call => call.Fair q) ∅ calls) :
    ∃ (v v' : HeapVec T) (os : List (Option (HeapEntry T))) (ts : List (HeapEntry T)),
      Run.run (HeapVec.step comp) ⟨m, 0⟩ calls = some (v, os) ∧
      Run.run (HeapVec.step comp) v (List.replicate v.len .popTop) = some (v', ts.map some) ∧
      ts.Perm (heapList v.mem.h v.len) ∧ ts.Pairwise (fun a b => comp a.val b.val = false) := by
  obtain ⟨v, os, q, hrun, -, h⟩ := heapVec_run m hfair
  obtain ⟨v', ts, hpops, hlen, hperm, hsorted, -⟩ := h.pops (Nat.le_refl v.len)
  -- nothing is left
  have hnone : heapList v'.mem.h v'.len = [] := by
    have hall := hperm.length_eq
    rw [List.length_append, hlen] at hall
    have hsize : (heapList v.mem.h v.len).length = v.len := by simp [heapList]
    exact List.eq_nil_of_length_eq_zero (by omega)
  rw [hnone, List.append_nil] at hperm
  exact ⟨v, v', os, ts, hrun, hpops, hperm, hsorted⟩

end Order

/-! ## Three items -/

/-- `std::less<>`, the default. -/
def less (a b : Nat) : Bool := decide (a < b)

instance : IsStrictWeakOrder Nat (fun a b => less a b = true) where
  irrefl := by simp [less]
  trans := by
    simp only [less, decide_eq_true_eq]
    omega
  incomp_trans := by
    simp only [less, decide_eq_true_eq]
    omega

/-- Three items are pushed, and the first one is replaced by a greater one. -/
def threeCalls : List (HeapCall Nat) := [.push 1 10, .push 2 30, .push 3 20, .update 1 40]

theorem threeCalls_fair (comp : Nat → Nat → Bool) :
    Run.Admissible (QueueStep comp) (fun q call => call.Fair q) ∅ threeCalls := by
  refine ⟨by simp [HeapCall.Fair, Finmap.notMem_empty], ?_⟩
  rintro o q ⟨-, rfl⟩
  refine ⟨by simp [HeapCall.Fair, Finmap.notMem_empty], ?_⟩
  rintro o q ⟨-, rfl⟩
  refine ⟨by simp [HeapCall.Fair, Finmap.notMem_empty], ?_⟩
  rintro o q ⟨-, rfl⟩
  refine ⟨by simp [HeapCall.Fair, Finmap.notMem_empty], ?_⟩
  rintro o q ⟨-, rfl⟩
  trivial

theorem heap_refines_queue_three : ∃ v os q,
    Run.run (HeapVec.step less) ⟨{ h := fun _ => ⟨0, 0⟩, refs := fun _ => none }, 0⟩ threeCalls =
      some (v, os) ∧
    Run.Accepts (QueueStep less) ∅ threeCalls os q ∧ v.Shows less q :=
  heap_refines_queue less _ threeCalls (threeCalls_fair less)

theorem heap_pops_sorted_three : ∃ (v v' : HeapVec Nat) (os : List (Option (HeapEntry Nat)))
    (ts : List (HeapEntry Nat)),
    Run.run (HeapVec.step less) ⟨{ h := fun _ => ⟨0, 0⟩, refs := fun _ => none }, 0⟩ threeCalls =
      some (v, os) ∧
    Run.run (HeapVec.step less) v (List.replicate v.len .popTop) = some (v', ts.map some) ∧
    ts.Perm (heapList v.mem.h v.len) ∧ ts.Pairwise (fun a b => less a.val b.val = false) :=
  heap_pops_sorted less _ threeCalls (threeCalls_fair less)

end ByoRedis
