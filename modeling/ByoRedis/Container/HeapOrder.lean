import ByoRedis.Container.HeapInv

/-!
# Container — the heap operations restore the order

The order side of the sifts, and one theorem for each of `heap_fix`,
`heap_push` and `heap_pop`. `heap_fix` first sifts down and only then up, and
only if the first sift did not move: an entry that has moved down has a
former grandkid of its parent above it, so there is nothing left to do.
-/

namespace ByoRedis

variable {T : Type} {comp : T → T → Bool}

/-- Every parent and kid that do not touch `pos` are in order, and so are
the parent and the kids of `pos`. -/
structure HoleOrd (comp : T → T → Bool) (h : Nat → HeapEntry T) (len pos : Nat) : Prop where
  except : ∀ i, 0 < i → i < len → i ≠ pos → (i - 1) / 2 ≠ pos →
    comp (h ((i - 1) / 2)).val (h i).val = false
  grand : 0 < pos → ∀ c, 0 < c → c < len → (c - 1) / 2 = pos →
    comp (h ((pos - 1) / 2)).val (h c).val = false

/-- The parent of `pos` is at or above `hole`. -/
def AboveOrd (comp : T → T → Bool) (h : Nat → HeapEntry T) (pos : Nat) (hole : HeapEntry T) :
    Prop :=
  0 < pos → comp (h ((pos - 1) / 2)).val hole.val = false

/-- `hole` is at or above the kids of `pos`. -/
def BelowOrd (comp : T → T → Bool) (h : Nat → HeapEntry T) (len pos : Nat)
    (hole : HeapEntry T) : Prop :=
  ∀ c, 0 < c → c < len → (c - 1) / 2 = pos → comp hole.val (h c).val = false

variable {m₀ m : HeapMem T} {h : Nat → HeapEntry T} {len pos : Nat} {hole : HeapEntry T}

/-- A hole whose neighbours fit is a heap once filled. -/
theorem HoleOrd.finish (o : HoleOrd comp h len pos) (ha : AboveOrd comp h pos hole)
    (hb : BelowOrd comp h len pos hole) : HeapOrd comp (Function.update h pos hole) len := by
  intro i hi0 hi
  by_cases hip : i = pos
  · subst hip
    have hne : (i - 1) / 2 ≠ i := by omega
    rw [Function.update_self, Function.update_of_ne hne]
    exact ha hi0
  · rw [Function.update_of_ne hip]
    by_cases hpp : (i - 1) / 2 = pos
    · rw [hpp, Function.update_self]
      exact hb i hi0 hi hpp
    · rw [Function.update_of_ne hpp]
      exact o.except i hi0 hi hip hpp

theorem Sift.down (s : Sift m₀ len hole m pos) (hl : pos * 2 + 1 < len) :
    Sift m₀ len hole (m.place pos (m.h (heapKid comp m len pos))) (heapKid comp m len pos) := by
  apply s.move
  · rcases heapKid_cases comp m len pos with h | ⟨h, _⟩ <;> omega
  · rcases heapKid_cases comp m len pos with h | ⟨h, _⟩ <;> omega

section Order

variable [IsStrictWeakOrder T (fun a b => comp a b = true)]

/-- A heap stays one around an entry whose value is replaced. -/
theorem HeapOrd.holeOrd {h' : Nat → HeapEntry T} (ho : HeapOrd comp h len)
    (hlt : pos < len) (heq : ∀ i < len, i ≠ pos → (h' i).val = (h i).val) :
    HoleOrd comp h' len pos := by
  constructor
  · intro i hi0 hi hip hpp
    rw [heq i hi hip, heq _ (by omega) hpp]
    exact ho i hi0 hi
  · intro hpos c hc0 hc hcp
    rw [heq c hc (by omega), heq _ (by omega) (by omega)]
    have h1 := ho pos hpos hlt
    have h2 := ho c hc0 hc
    rw [hcp] at h2
    exact comp_false_trans h1 h2

/-! ## Sifting up -/

theorem HoleOrd.up (o : HoleOrd comp h len pos) (hb : BelowOrd comp h len pos hole)
    (h0 : 0 < pos) (hlt : pos < len) (hc : comp (h ((pos - 1) / 2)).val hole.val = true) :
    HoleOrd comp (Function.update h pos (h ((pos - 1) / 2))) len ((pos - 1) / 2) ∧
      BelowOrd comp (Function.update h pos (h ((pos - 1) / 2))) len ((pos - 1) / 2) hole := by
  -- the other kids of the parent are below it
  have hsib : ∀ c, 0 < c → c < len → c ≠ pos → (c - 1) / 2 = (pos - 1) / 2 →
      comp (h ((pos - 1) / 2)).val (h c).val = false := by
    intro c hc0 hcl hcp hpar
    have := o.except c hc0 hcl hcp (by omega)
    rwa [hpar] at this
  refine ⟨⟨?_, ?_⟩, ?_⟩
  · intro i hi0 hi hip hpp
    have hne : i ≠ pos := by
      intro he
      subst he
      exact hpp rfl
    rw [Function.update_of_ne hne]
    by_cases hk : (i - 1) / 2 = pos
    · rw [hk, Function.update_self]
      exact o.grand h0 i hi0 hi hk
    · rw [Function.update_of_ne hk]
      exact o.except i hi0 hi hne hk
  · intro hp0 c hc0 hcl hpar
    have hup : comp (h (((pos - 1) / 2 - 1) / 2)).val (h ((pos - 1) / 2)).val = false :=
      o.except ((pos - 1) / 2) hp0 (by omega) (by omega) (by omega)
    have hne : ((pos - 1) / 2 - 1) / 2 ≠ pos := by omega
    rw [Function.update_of_ne hne]
    by_cases hcp : c = pos
    · subst hcp
      rw [Function.update_self]
      exact hup
    · rw [Function.update_of_ne hcp]
      exact comp_false_trans hup (hsib c hc0 hcl hcp hpar)
  · intro c hc0 hcl hpar
    by_cases hcp : c = pos
    · subst hcp
      rw [Function.update_self]
      exact comp_asymm hc
    · rw [Function.update_of_ne hcp]
      by_contra hlow
      have hlow : comp hole.val (h c).val = true := by simpa using hlow
      have := trans_of (fun a b => comp a b = true) hc hlow
      simp [hsib c hc0 hcl hcp hpar] at this

theorem heapSiftUpLoop_spec (hole : HeapEntry T) (m : HeapMem T) (pos : Nat)
    (s : Sift m₀ len hole m pos) (o : HoleOrd comp m.h len pos)
    (hb : BelowOrd comp m.h len pos hole) :
    Rearranged m₀ len (heapSiftUpLoop comp hole m pos) ∧
      Positioned (heapSiftUpLoop comp hole m pos) len ∧
      HeapOrd comp (heapSiftUpLoop comp hole m pos).h len := by
  induction m, pos using heapSiftUpLoop.induct comp hole with
  | case1 m pos h0 hc ih =>
    rw [heapSiftUpLoop, if_pos h0, if_pos hc]
    have hlt := s.lt
    obtain ⟨o', hb'⟩ := o.up hb h0 hlt hc
    exact ih (s.move (by omega) (by omega)) o' hb'
  | case2 m pos h0 hc =>
    rw [heapSiftUpLoop, if_pos h0, if_neg hc]
    obtain ⟨hr, hp⟩ := s.finish
    exact ⟨hr, hp, o.finish (fun _ => by simpa using hc) hb⟩
  | case3 m pos h0 =>
    rw [heapSiftUpLoop, if_neg h0]
    obtain ⟨hr, hp⟩ := s.finish
    exact ⟨hr, hp, o.finish (fun h => absurd h h0) hb⟩

/-! ## Sifting down -/

/-- The kid the sift looks at is above its sibling. -/
theorem heapKid_first (m : HeapMem T) {len pos c : Nat} (hc0 : 0 < c) (hc : c < len)
    (hpar : (c - 1) / 2 = pos) (hne : c ≠ heapKid comp m len pos) :
    comp (m.h (heapKid comp m len pos)).val (m.h c).val = false := by
  unfold heapKid at hne ⊢
  split at hne
  · rename_i hcond
    have hcl : c = pos * 2 + 1 := by omega
    rw [if_pos hcond, hcl]
    exact comp_asymm hcond.2
  · rename_i hcond
    have hcr : c = pos * 2 + 2 := by omega
    rw [if_neg hcond]
    subst hcr
    simpa [hc] using hcond

theorem HoleOrd.down (o : HoleOrd comp m.h len pos)
    (hl : pos * 2 + 1 < len)
    (hc : comp hole.val (m.h (heapKid comp m len pos)).val = true) :
    HoleOrd comp (Function.update m.h pos (m.h (heapKid comp m len pos))) len
        (heapKid comp m len pos) ∧
      AboveOrd comp (Function.update m.h pos (m.h (heapKid comp m len pos)))
        (heapKid comp m len pos) hole := by
  have hj : 0 < heapKid comp m len pos ∧ heapKid comp m len pos < len ∧
      (heapKid comp m len pos - 1) / 2 = pos ∧ pos < heapKid comp m len pos := by
    rcases heapKid_cases comp m len pos with h | ⟨h, _⟩ <;> omega
  obtain ⟨hj0, hjl, hjp, hlt⟩ := hj
  refine ⟨⟨?_, ?_⟩, ?_⟩
  · intro i hi0 hi hij hpj
    by_cases hip : i = pos
    · subst hip
      have hne : (i - 1) / 2 ≠ i := by omega
      rw [Function.update_self, Function.update_of_ne hne]
      exact o.grand hi0 _ hj0 hjl hjp
    · rw [Function.update_of_ne hip]
      by_cases hpp : (i - 1) / 2 = pos
      · rw [hpp, Function.update_self]
        exact heapKid_first m hi0 hi hpp hij
      · rw [Function.update_of_ne hpp]
        exact o.except i hi0 hi hip hpp
  · intro _ c hc0 hcl hpar
    have hcp : c ≠ pos := by omega
    rw [hjp, Function.update_self, Function.update_of_ne hcp]
    have := o.except c hc0 hcl hcp (by omega)
    rwa [hpar] at this
  · intro _
    rw [hjp, Function.update_self]
    exact comp_asymm hc

/-- Where the sift stops, the hole is above its kids. -/
theorem belowOrd_of_stop
    (hc : ¬ comp hole.val (m.h (heapKid comp m len pos)).val = true) :
    BelowOrd comp m.h len pos hole := by
  intro c hc0 hcl hpar
  have hj : comp hole.val (m.h (heapKid comp m len pos)).val = false := by simpa using hc
  by_cases hcj : c = heapKid comp m len pos
  · rw [hcj]
    exact hj
  · exact comp_false_trans hj (heapKid_first m hc0 hcl hpar hcj)

/-- The loop of the sift from a hole whose parent is above it. -/
theorem heapSiftDownLoop_spec (hole : HeapEntry T) (m : HeapMem T) (pos : Nat)
    (s : Sift m₀ len hole m pos) (o : HoleOrd comp m.h len pos)
    (ha : AboveOrd comp m.h pos hole) :
    Rearranged m₀ len (heapSiftDownLoop comp len hole m pos).1 ∧
      Positioned (heapSiftDownLoop comp len hole m pos).1 len ∧
      HeapOrd comp (heapSiftDownLoop comp len hole m pos).1.h len ∧
      pos ≤ (heapSiftDownLoop comp len hole m pos).2 := by
  induction m, pos using heapSiftDownLoop.induct comp len hole with
  | case1 m pos hl =>
    rw [heapSiftDownLoop, if_pos hl]
    obtain ⟨hr, hp⟩ := s.finish
    exact ⟨hr, hp, o.finish ha (fun c hc0 hcl hpar => by omega), Nat.le_refl _⟩
  | case2 m pos hl hc ih =>
    rw [heapSiftDownLoop, if_neg hl, if_pos hc]
    obtain ⟨o', ha'⟩ := o.down (by omega) hc
    obtain ⟨hr, hp, ho, hle⟩ := ih (s.down (by omega)) o' ha'
    refine ⟨hr, hp, ho, ?_⟩
    rcases heapKid_cases comp m len pos with h | ⟨h, _⟩ <;> omega
  | case3 m pos hl hc =>
    rw [heapSiftDownLoop, if_neg hl, if_neg hc]
    obtain ⟨hr, hp⟩ := s.finish
    exact ⟨hr, hp, o.finish ha (belowOrd_of_stop hc), Nat.le_refl _⟩

/-- `__heap_sift_down` from a hole with nothing known about its parent: if
it moved, the heap is in order; if not, only the parent may be out of order. -/
theorem heapSiftDown_spec (hd : DistinctRefs m.h len) (hlt : pos < len)
    (hp : ∀ i < len, i ≠ pos → m.refs (m.h i).refPos = some i) (o : HoleOrd comp m.h len pos) :
    Rearranged m len (heapSiftDown comp m len pos).1 ∧
      Positioned (heapSiftDown comp m len pos).1 len ∧
      ((heapSiftDown comp m len pos).2 = true →
        HeapOrd comp (heapSiftDown comp m len pos).1.h len) ∧
      ((heapSiftDown comp m len pos).2 = false →
        (heapSiftDown comp m len pos).1.h = m.h ∧ BelowOrd comp m.h len pos (m.h pos)) := by
  have s : Sift m len (m.h pos) m pos := Sift.start hd hlt hp
  obtain ⟨hr, hpos⟩ := s.finish
  have hsame : (m.place pos (m.h pos)).h = m.h := Function.update_eq_self pos m.h
  unfold heapSiftDown
  rw [heapSiftDownLoop]
  by_cases hl : len ≤ pos * 2 + 1
  · rw [if_pos hl]
    refine ⟨hr, hpos, by simp, fun _ => ⟨hsame, ?_⟩⟩
    intro c hc0 hcl hpar
    omega
  · rw [if_neg hl]
    by_cases hc : comp (m.h pos).val (m.h (heapKid comp m len pos)).val = true
    · rw [if_pos hc]
      obtain ⟨o', ha'⟩ := o.down (by omega) hc
      obtain ⟨hr', hp', ho', hle⟩ := heapSiftDownLoop_spec _ _ _ (s.down (by omega)) o' ha'
      refine ⟨hr', hp', fun _ => ho', fun hmoved => ?_⟩
      have hgt : pos < heapKid comp m len pos := by
        rcases heapKid_cases comp m len pos with h | ⟨h, _⟩ <;> omega
      simp only [decide_eq_false_iff_not, not_lt] at hmoved
      omega
    · rw [if_neg hc]
      exact ⟨hr, hpos, by simp, fun _ => ⟨hsame, belowOrd_of_stop hc⟩⟩

/-! ## The operations -/

/-- `heap_fix` repairs a heap in which the entry at `pos` is arbitrary. -/
theorem heapFix_spec (hd : DistinctRefs m.h len) (hlt : pos < len)
    (hp : ∀ i < len, i ≠ pos → m.refs (m.h i).refPos = some i) (o : HoleOrd comp m.h len pos) :
    Rearranged m len (heapFix comp m len pos) ∧ Positioned (heapFix comp m len pos) len ∧
      HeapOrd comp (heapFix comp m len pos).h len := by
  obtain ⟨hr, hpos, hmoved, hstay⟩ := heapSiftDown_spec hd hlt hp o
  unfold heapFix
  cases hb : (heapSiftDown comp m len pos).2 with
  | true =>
    simp only [hb, if_true]
    exact ⟨hr, hpos, hmoved hb⟩
  | false =>
    simp only [hb, Bool.false_eq_true, if_false]
    obtain ⟨hsame, hbelow⟩ := hstay hb
    have s := Sift.start (hr.distinct hd) hlt (fun i hi _ => hpos i hi)
    rw [heapSiftUp]
    obtain ⟨hr', hp', ho'⟩ := heapSiftUpLoop_spec _ _ _ s (by rw [hsame]; exact o)
      (by rw [hsame]; exact hbelow)
    exact ⟨hr.trans hr', hp', ho'⟩

/-- `heap_push` takes in the last entry. -/
theorem heapPush_spec (hd : DistinctRefs m.h len) (hlen : 0 < len)
    (hp : Positioned m (len - 1)) (ho : HeapOrd comp m.h (len - 1)) :
    Rearranged m len (heapPush comp m len) ∧ Positioned (heapPush comp m len) len ∧
      HeapOrd comp (heapPush comp m len).h len := by
  have s : Sift m len (m.h (len - 1)) m (len - 1) :=
    Sift.start hd (by omega) (fun i hi hne => hp i (by omega))
  have o : HoleOrd comp m.h len (len - 1) := by
    constructor
    · intro i hi0 hi hip hpp
      exact ho i hi0 (by omega)
    · intro h0 c hc0 hcl hpar
      omega
  have hb : BelowOrd comp m.h len (len - 1) (m.h (len - 1)) := by
    intro c hc0 hcl hpar
    omega
  exact heapSiftUpLoop_spec _ _ _ s o hb

/-- What `heap_pop` leaves behind: the popped entry at the back, a heap of
the others before it. -/
structure Popped (comp : T → T → Bool) (m : HeapMem T) (len pos : Nat) (m' : HeapMem T) :
    Prop where
  rearranged : Rearranged m len m'
  last : m'.h (len - 1) = m.h pos
  positioned : Positioned m' (len - 1)
  ordered : HeapOrd comp m'.h (len - 1)

theorem heapList_succ (h : Nat → HeapEntry T) (n : Nat) :
    heapList h (n + 1) = heapList h n ++ [h n] := by
  simp [heapList, List.range_succ]

/-- A rearrangement of all but the last entry is one of all. -/
theorem Rearranged.of_pred {m' : HeapMem T} (hlen : 0 < len)
    (r : Rearranged m (len - 1) m') : Rearranged m len m' := by
  obtain ⟨n, rfl⟩ : ∃ n, len = n + 1 := ⟨len - 1, by omega⟩
  simp only [Nat.add_sub_cancel] at r
  constructor
  · rw [heapList_succ, heapList_succ, r.beyond n (Nat.le_refl n)]
    exact r.perm.append_right _
  · intro p hp
    exact r.frame p (fun i hi => hp i (by omega))
  · intro i hi
    exact r.beyond i (by omega)

theorem swap_rearranged (m : HeapMem T) {i j : Nat} (hi : i < len) (hj : j < len) :
    Rearranged m len (m.swap i j) := by
  refine ⟨heapList_swap_perm m.h hi hj, fun _ _ => rfl, ?_⟩
  intro k hk
  have hkj : k ≠ j := by omega
  have hki : k ≠ i := by omega
  show Function.update (Function.update m.h i (m.h j)) j (m.h i) k = m.h k
  rw [Function.update_of_ne hkj, Function.update_of_ne hki]

theorem swap_other (m : HeapMem T) {i j k : Nat} (hk : k ≠ j) (hki : k ≠ i) :
    (m.swap i j).h k = m.h k := by
  show Function.update (Function.update m.h i (m.h j)) j (m.h i) k = m.h k
  rw [Function.update_of_ne hk, Function.update_of_ne hki]

theorem heapPop_spec (hd : DistinctRefs m.h len) (hlt : pos < len)
    (hp : Positioned m len) (ho : HeapOrd comp m.h len) :
    Popped comp m len pos (heapPop comp m len pos) := by
  have hsw := swap_rearranged m hlt (show len - 1 < len by omega)
  have hback : (m.swap pos (len - 1)).h (len - 1) = m.h pos := by simp [HeapMem.swap]
  by_cases hone : pos = len - 1
  · -- the last entry is popped: a one-entry heap rewrites its position, any other is left alone
    subst hone
    by_cases h0 : len - 1 = 0
    · have hlen : len = 1 := by omega
      subst hlen
      have hpop : heapPop comp m 1 0 = (m.swap 0 0).place 0 ((m.swap 0 0).h 0) := by
        rw [heapPop, if_pos rfl, heapPopTop, heapSiftDown, heapSiftDownLoop, if_pos (by omega)]
      have hself : (m.swap 0 0).h = m.h := by simp [HeapMem.swap]
      have s : Sift m 1 (m.h 0) (m.swap 0 0) 0 := by
        have hstart : Sift m 1 (m.h 0) m 0 := Sift.start hd hlt (fun i hi hne => by omega)
        rw [← hself] at hstart
        exact ⟨hlt, hd, fun i hi hne => by omega, hstart.perm, fun _ _ => rfl,
          fun i _ => by rw [hself]⟩
      rw [hpop, hself]
      obtain ⟨hr, -⟩ := s.finish
      refine ⟨hr, ?_, fun i hi => by omega, fun i hi0 hi => by omega⟩
      simp [HeapMem.place]
    · have hpop : heapPop comp m len (len - 1) = m := by
        rw [heapPop, if_neg h0, if_neg (by omega)]
      rw [hpop]
      exact ⟨⟨List.Perm.refl _, fun _ _ => rfl, fun _ _ => rfl⟩, rfl,
        fun i hi => hp i (by omega), fun i hi0 hi => ho i hi0 (by omega)⟩
  · -- an earlier entry is exchanged with the last one, which is then sifted
    have hd' : DistinctRefs (m.swap pos (len - 1)).h (len - 1) := by
      intro i hi j hj hij
      exact hsw.distinct hd i (by omega) j (by omega) hij
    have hp' : ∀ i < len - 1, i ≠ pos →
        (m.swap pos (len - 1)).refs ((m.swap pos (len - 1)).h i).refPos = some i := by
      intro i hi hip
      rw [swap_other m (by omega) hip]
      exact hp i (by omega)
    have o : HoleOrd comp (m.swap pos (len - 1)).h (len - 1) pos := by
      have ho' : HeapOrd comp m.h (len - 1) := fun i hi0 hi => ho i hi0 (by omega)
      refine ho'.holeOrd (by omega) ?_
      intro i hi hip
      rw [swap_other m (by omega) hip]
    by_cases h0 : pos = 0
    · have hpop : heapPop comp m len pos =
          (heapSiftDown comp (m.swap 0 (len - 1)) (len - 1) 0).1 := by
        rw [heapPop, if_pos h0, heapPopTop]
      subst h0
      have ha : AboveOrd comp (m.swap 0 (len - 1)).h 0 ((m.swap 0 (len - 1)).h 0) :=
        fun h => absurd h (by omega)
      obtain ⟨hr, hpos, hord, -⟩ := heapSiftDownLoop_spec _ _ _
        (Sift.start hd' (by omega) hp') o ha
      rw [hpop]
      exact ⟨hsw.trans (hr.of_pred (by omega)), (hr.beyond _ (Nat.le_refl _)).trans hback,
        hpos, hord⟩
    · have hpop : heapPop comp m len pos =
          heapFix comp (m.swap pos (len - 1)) (len - 1) pos := by
        rw [heapPop, if_neg h0, if_pos (by omega)]
      obtain ⟨hr, hpos, hord⟩ := heapFix_spec hd' (by omega) hp' o
      rw [hpop]
      exact ⟨hsw.trans (hr.of_pred (by omega)), (hr.beyond _ (Nat.le_refl _)).trans hback,
        hpos, hord⟩

/-- A heap whose entries' owners know their positions. -/
structure IndexedHeap (comp : T → T → Bool) (m : HeapMem T) (len : Nat) : Prop where
  ordered : HeapOrd comp m.h len
  positioned : Positioned m len

/-- The memory with another value in the entry at `pos`. -/
def HeapMem.setVal (m : HeapMem T) (pos : Nat) (v : T) : HeapMem T :=
  { m with h := Function.update m.h pos { m.h pos with val := v } }

/-- **The operations of the indexed heap**, for every strict weak order and
every array whose entries have owners of their own. `heap_push` takes in the
last entry; `heap_fix` repairs the heap after the value at `pos` was replaced;
`heap_pop` moves the entry at `pos` behind a heap of the others. Each of them
rearranges the entries and writes to no cell but theirs. -/
theorem indexed_heap_operations (comp : T → T → Bool)
    [IsStrictWeakOrder T (fun a b => comp a b = true)] (m : HeapMem T) (len : Nat)
    (hd : DistinctRefs m.h len) :
    (0 < len → IndexedHeap comp m (len - 1) →
      IndexedHeap comp (heapPush comp m len) len ∧ Rearranged m len (heapPush comp m len)) ∧
    (∀ pos v, pos < len → IndexedHeap comp m len →
      IndexedHeap comp (heapFix comp (m.setVal pos v) len pos) len ∧
        Rearranged (m.setVal pos v) len (heapFix comp (m.setVal pos v) len pos)) ∧
    ∀ pos, pos < len → IndexedHeap comp m len →
      (heapPop comp m len pos).h (len - 1) = m.h pos ∧
        IndexedHeap comp (heapPop comp m len pos) (len - 1) ∧
        Rearranged m len (heapPop comp m len pos) := by
  refine ⟨?_, ?_, ?_⟩
  · intro hlen h
    obtain ⟨hr, hp, ho⟩ := heapPush_spec hd hlen h.positioned h.ordered
    exact ⟨⟨ho, hp⟩, hr⟩
  · intro pos v hlt h
    have hother : ∀ i, i ≠ pos → (m.setVal pos v).h i = m.h i :=
      fun i hi => Function.update_of_ne hi _ _
    have href : ∀ i, ((m.setVal pos v).h i).refPos = (m.h i).refPos := by
      intro i
      by_cases hi : i = pos
      · rw [hi]
        show (Function.update m.h pos _ pos).refPos = _
        rw [Function.update_self]
      · rw [hother i hi]
    have hd' : DistinctRefs (m.setVal pos v).h len := by
      intro i hi j hj hij
      rw [href, href] at hij
      exact hd i hi j hj hij
    have hp' : ∀ i < len, i ≠ pos →
        (m.setVal pos v).refs ((m.setVal pos v).h i).refPos = some i := by
      intro i hi _
      rw [href]
      exact h.positioned i hi
    have o : HoleOrd comp (m.setVal pos v).h len pos :=
      h.ordered.holeOrd hlt (fun i _ hi => by rw [hother i hi])
    obtain ⟨hr, hp, ho⟩ := heapFix_spec hd' hlt hp' o
    exact ⟨⟨ho, hp⟩, hr⟩
  · intro pos hlt h
    have hpop := heapPop_spec hd hlt h.positioned h.ordered
    exact ⟨hpop.last, ⟨hpop.ordered, hpop.positioned⟩, hpop.rearranged⟩

end Order

/-- The heap of the numbers 0, 1, 2, each behind the pointer of its position. -/
def threeEntries : HeapMem Nat :=
  { h := fun i => { val := i, refPos := i }, refs := fun p => some p }

/-- The numbers 1, 2, 0; only the last one is out of place. -/
def threePushed : HeapMem Nat :=
  { h := fun i => { val := (i + 1) % 3, refPos := i }, refs := fun p => some p }

/-- A number below the two others is pushed, and comes to the front; the smallest of three
is replaced by the greatest, and the second smallest comes to the front; and the smallest
is popped. -/
theorem indexed_heap_operations_three :
    let comp : Nat → Nat → Bool := fun a b => decide (b < a)
    (IndexedHeap comp (heapPush comp threePushed 3) 3 ∧
      ((heapPush comp threePushed 3).h 0).val = 0) ∧
    (IndexedHeap comp (heapFix comp (threeEntries.setVal 0 5) 3 0) 3 ∧
      ((heapFix comp (threeEntries.setVal 0 5) 3 0).h 0).val = 1) ∧
    (heapPop comp threeEntries 3 0).h 2 = threeEntries.h 0 ∧
      IndexedHeap comp (heapPop comp threeEntries 3 0) 2 ∧
      ((heapPop comp threeEntries 3 0).h 0).val = 1 := by
  have hord : IsStrictWeakOrder Nat (fun a b => decide (b < a) = true) :=
    { irrefl := fun a => by simp
      trans := fun a b c hab hbc => by
        simp only [decide_eq_true_eq] at *
        omega
      incomp_trans := fun a b c hab hbc => by
        simp only [decide_eq_true_eq] at *
        omega }
  have hd : DistinctRefs threeEntries.h 3 := fun i _ j _ hij => hij
  have hd' : DistinctRefs threePushed.h 3 := fun i _ j _ hij => hij
  have hheap : IndexedHeap (fun a b => decide (b < a)) threeEntries 3 := by
    refine ⟨?_, fun i _ => rfl⟩
    intro i hi _
    show decide (i < (i - 1) / 2) = false
    rw [decide_eq_false_iff_not]
    omega
  have hheap' : IndexedHeap (fun a b => decide (b < a)) threePushed 2 := by
    refine ⟨?_, fun i _ => rfl⟩
    intro i hi hlt
    have hone : i = 1 := by omega
    rw [hone]
    decide
  have hpush := (indexed_heap_operations _ threePushed 3 hd').1 (by decide) hheap'
  have hfix := (indexed_heap_operations _ threeEntries 3 hd).2.1 0 5 (by decide) hheap
  have hpop := (indexed_heap_operations _ threeEntries 3 hd).2.2 0 (by decide) hheap
  refine ⟨⟨hpush.1, ?_⟩, ⟨hfix.1, ?_⟩, hpop.1, hpop.2.1, ?_⟩
  · simp [heapPush, heapSiftUp, heapSiftUpLoop, threePushed, HeapMem.place]
  · simp [heapFix, heapSiftDown, heapSiftDownLoop, heapKid, threeEntries, HeapMem.setVal,
      HeapMem.place]
  · simp [heapPop, heapPopTop, heapSiftDown, heapSiftDownLoop, heapKid, threeEntries,
      HeapMem.swap, HeapMem.place]

end ByoRedis
