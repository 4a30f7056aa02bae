import ByoRedis.Container.Lru

/-!
# Container — what the size of a cache costs

A smaller cache forgets more, and nothing else: run on the same calls, it holds a
part of the pairs of a larger one, in the same order. So a value that is found is
the one last put, and only the capacity can make a key go away.
-/

namespace ByoRedis

namespace Lru

variable {K V : Type} {l small big : List (K × V)} {key : K} {value : V} {p : K × V} {c c' : Nat}
  {ops : List (Op K V)}

/-- The pairs of a smaller cache are pairs of a larger one, in the same order; and as
long as it is not full, the smaller one has lost nothing. -/
structure Included (c : Nat) (small big : List (K × V)) : Prop where
  sub : small.Sublist big
  full : small.length = c ∨ small = big

/-! ## Lists of pairs with distinct keys -/

theorem sublist_dropLast (h : small.Sublist big) : small.dropLast.Sublist big.dropLast := by
  have htail := h.reverse.tail
  rw [List.tail_reverse, List.tail_reverse] at htail
  exact List.reverse_sublist.mp htail

variable [BEq K]

theorem Refines.keys_nodup [Hashable K] {cache : Lru K V} (h : Refines c cache l) :
    (l.map Prod.fst).Nodup := by
  rw [← h.entries_eq]
  exact h.index.keys_nodup

/-- What the calls have last put for a key. -/
def lastPut (ops : List (Op K V)) (key : K) : Option V :=
  ops.foldl (fun last op =>
    match op with
    | .get _ => last
    | .put k value => if k == key then some value else last) none

theorem lastPut_get (ops : List (Op K V)) (key : K) : lastPut (ops ++ [.get key]) = lastPut ops := by
  funext k
  simp [lastPut]

theorem lastPut_put (ops : List (Op K V)) (key : K) (value : V) (k : K) :
    lastPut (ops ++ [.put key value]) k = if key == k then some value else lastPut ops k := by
  simp [lastPut]

variable [LawfulBEq K]

theorem find_of_mem (hnd : (l.map Prod.fst).Nodup) (hp : (key, value) ∈ l) :
    l.find? (·.1 == key) = some (key, value) := by
  induction l with
  | nil => cases hp
  | cons a l ih =>
    obtain ⟨hna, hnd'⟩ := List.nodup_cons.mp hnd
    rcases List.mem_cons.mp hp with rfl | hp
    · exact List.find?_cons_of_pos (p := fun x : K × V => x.1 == key) (BEq.refl key)
    · have hne : ¬ (a.1 == key) = true := fun he =>
        hna (eq_of_beq he ▸ List.mem_map_of_mem hp)
      rw [List.find?_cons_of_neg (p := fun x : K × V => x.1 == key) hne]
      exact ih hnd' hp

/-- A pair is moved to the front. -/
theorem perm_front (hnd : (l.map Prod.fst).Nodup) (hf : l.find? (·.1 == key) = some p) :
    (p :: l.filter (!·.1 == key)).Perm l := by
  induction l with
  | nil => cases hf
  | cons a l ih =>
    obtain ⟨hna, hnd'⟩ := List.nodup_cons.mp hnd
    by_cases ha : (a.1 == key) = true
    · rw [List.find?_cons_of_pos (p := fun x : K × V => x.1 == key) ha] at hf
      cases hf
      have hrest : l.filter (!·.1 == key) = l := by
        refine List.filter_eq_self.mpr fun b hb => ?_
        simp only [Bool.not_eq_true', ← Bool.not_eq_true]
        intro hk
        exact hna (eq_of_beq ha ▸ eq_of_beq hk ▸ List.mem_map_of_mem hb)
      rw [List.filter_cons_of_neg (by simp [ha]), hrest]
    · rw [List.find?_cons_of_neg (p := fun x : K × V => x.1 == key) ha] at hf
      rw [List.filter_cons_of_pos (by simpa using ha)]
      exact (List.Perm.swap a p _).trans ((ih hnd' hf).cons a)

theorem filter_absent (hf : l.find? (·.1 == key) = none) : l.filter (!·.1 == key) = l := by
  refine List.filter_eq_self.mpr fun a ha => ?_
  have hne := List.find?_eq_none.mp hf a ha
  simpa using hne

/-! ## A smaller and a larger cache -/

theorem Included.find (h : Included c small big) (hnd : (big.map Prod.fst).Nodup)
    (hf : small.find? (·.1 == key) = some p) : big.find? (·.1 == key) = some p := by
  obtain ⟨k, v⟩ := p
  obtain rfl : k = key := eq_of_beq (List.find?_some (p := fun p : K × V => p.1 == key) hf)
  exact find_of_mem hnd (h.sub.subset (List.mem_of_find?_eq_some hf))

/-- A key that only the larger cache holds shows that the smaller one is full. -/
theorem Included.full_of_missing (h : Included c small big)
    (hf : small.find? (·.1 == key) = none) (hf' : big.find? (·.1 == key) = some p) :
    small.length = c ∧ small.Sublist (big.filter (!·.1 == key)) := by
  constructor
  · refine h.full.resolve_right ?_
    rintro rfl
    rw [hf] at hf'
    cases hf'
  · rw [← filter_absent hf]
    exact h.sub.filter _

/-- A key that both hold. -/
theorem Included.front (h : Included c small big) (hnd : (big.map Prod.fst).Nodup)
    (hf : small.find? (·.1 == key) = some p) (q : K × V) :
    Included c (q :: small.filter (!·.1 == key)) (q :: big.filter (!·.1 == key)) := by
  refine ⟨(h.sub.filter _).cons_cons q, ?_⟩
  have hlen := (perm_front (hnd.sublist (h.sub.map Prod.fst)) hf).length_eq
  rcases h.full with hfull | rfl
  · left
    rw [List.length_cons] at hlen ⊢
    omega
  · exact .inr rfl

theorem Included.get (h : Included c small big) (hnd : (big.map Prod.fst).Nodup) (key : K) :
    Included c (refGet small key).1 (refGet big key).1 ∧
      ∀ v, (refGet small key).2 = some v → (refGet big key).2 = some v := by
  unfold refGet
  cases hf : small.find? (·.1 == key) with
  | some p =>
    rw [h.find hnd hf]
    exact ⟨h.front hnd hf p, fun _ => id⟩
  | none =>
    cases hf' : big.find? (·.1 == key) with
    | none => exact ⟨h, fun _ => id⟩
    | some p =>
      obtain ⟨hfull, hsub⟩ := h.full_of_missing hf hf'
      exact ⟨⟨hsub.cons p, .inl hfull⟩, fun v hv => by cases hv⟩

theorem Included.put (h : Included c small big) (hnd : (big.map Prod.fst).Nodup) (hc : 0 < c)
    (hcc : c ≤ c') (hsmall : small.length ≤ c) (key : K) (value : V) :
    Included c (refPut c small key value) (refPut c' big key value) := by
  unfold refPut
  cases hf : small.find? (·.1 == key) with
  | some p =>
    rw [h.find hnd hf]
    exact h.front hnd hf (key, value)
  | none =>
    cases hf' : big.find? (·.1 == key) with
    | some p =>
      obtain ⟨hfull, hsub⟩ := h.full_of_missing hf hf'
      simp only [if_pos hfull]
      refine ⟨((List.dropLast_sublist small).trans hsub).cons_cons _, .inl ?_⟩
      rw [List.length_cons, List.length_dropLast]
      omega
    | none =>
      simp only
      by_cases hfull : small.length = c
      · rw [if_pos hfull]
        refine ⟨List.Sublist.cons_cons _ ?_, .inl ?_⟩
        · split
          · exact sublist_dropLast h.sub
          · exact (List.dropLast_sublist small).trans h.sub
        · rw [List.length_cons, List.length_dropLast]
          omega
      · -- nothing has been lost so far, and nothing is now
        obtain rfl := h.full.resolve_left hfull
        rw [if_neg hfull, if_neg (by omega)]
        exact ⟨.refl _, .inr rfl⟩

/-! ## The last value put -/

/-- Every pair of the list is the last one put, and its key is one of those that are
ever put. -/
def Current (last : K → Option V) (l : List (K × V)) : Prop := ∀ p ∈ l, last p.1 = some p.2

/-- Nothing that was put has been lost. -/
def Complete (last : K → Option V) (l : List (K × V)) : Prop :=
  ∀ key value, last key = some value → (key, value) ∈ l

theorem mem_refGet (hnd : (l.map Prod.fst).Nodup) (key : K) : p ∈ (refGet l key).1 ↔ p ∈ l := by
  unfold refGet
  cases hf : l.find? (·.1 == key) with
  | none => rfl
  | some q => exact (perm_front hnd hf).mem_iff

/-- The pairs behind the new one are old ones with other keys. -/
theorem mem_of_mem_refPut (h : p ∈ refPut c l key value) :
    p = (key, value) ∨ p ∈ l ∧ ¬ (key == p.1) = true := by
  unfold refPut at h
  cases hf : l.find? (·.1 == key) with
  | none =>
    rw [hf] at h
    refine (List.mem_cons.mp h).imp_right fun hmem => ?_
    have hold : p ∈ l := by
      split at hmem
      · exact (List.dropLast_sublist l).subset hmem
      · exact hmem
    exact ⟨hold, fun hk => List.find?_eq_none.mp hf p hold (by simp [eq_of_beq hk])⟩
  | some q =>
    rw [hf] at h
    refine (List.mem_cons.mp h).imp_right fun hmem => ?_
    obtain ⟨hold, hk⟩ := List.mem_filter.mp hmem
    exact ⟨hold, fun he => by simp [eq_of_beq he] at hk⟩

/-- Only a full list loses a pair. -/
theorem mem_refPut_of_ne (hp : p ∈ l) (hne : ¬ (key == p.1) = true)
    (hroom : l.find? (·.1 == key) = none → l.length ≠ c) : p ∈ refPut c l key value := by
  unfold refPut
  cases hf : l.find? (·.1 == key) with
  | none =>
    simp only [if_neg (hroom hf)]
    exact List.mem_cons_of_mem _ hp
  | some q =>
    refine List.mem_cons_of_mem _ (List.mem_filter.mpr ⟨hp, ?_⟩)
    simpa using fun he => hne (by simp [he])

theorem Current.put (h : Current (lastPut ops) l) :
    Current (lastPut (ops ++ [.put key value])) (refPut c l key value) := by
  intro p hp
  rw [lastPut_put]
  rcases mem_of_mem_refPut hp with rfl | ⟨hold, hne⟩
  · rw [if_pos (BEq.refl key)]
  · rw [if_neg hne]
    exact h p hold

/-- With room for all keys that are ever put, there is room for the next one. -/
theorem Complete.put (h : Complete (lastPut ops) l) (hnd : (l.map Prod.fst).Nodup) {keys : List K}
    (hkeys : ∀ p ∈ l, p.1 ∈ keys) (hkey : key ∈ keys) (hlen : keys.length ≤ c) :
    Complete (lastPut (ops ++ [.put key value])) (refPut c l key value) := by
  intro k v hk
  rw [lastPut_put] at hk
  by_cases he : (key == k) = true
  · rw [if_pos he] at hk
    cases hk
    obtain rfl := eq_of_beq he
    unfold refPut
    split <;> exact List.mem_cons_self
  · rw [if_neg he] at hk
    refine mem_refPut_of_ne (h k v hk) he fun hf hfull => ?_
    -- the new key and the keys of the full list are too many
    have hnew : key ∉ l.map Prod.fst := by
      intro hmem
      obtain ⟨p, hp, rfl⟩ := List.mem_map.mp hmem
      exact List.find?_eq_none.mp hf p hp (BEq.refl _)
    have hsub : (key :: l.map Prod.fst).length ≤ keys.length := by
      refine List.Subperm.length_le (List.Nodup.subperm (List.nodup_cons.mpr ⟨hnew, hnd⟩) ?_)
      intro k' hk'
      rcases List.mem_cons.mp hk' with rfl | hk'
      · exact hkey
      · obtain ⟨p, hp, rfl⟩ := List.mem_map.mp hk'
        exact hkeys p hp
    rw [List.length_cons, List.length_map] at hsub
    omega

/-! ## Every sequence of calls -/

variable [Hashable K]

/-- **A cache is current.** -/
theorem run_current (hc : 0 < c) (ops : List (Op K V)) :
    ∃ (cache : Lru K V) (outs : List (Option V)) (l : List (K × V)),
      Run.run exec (new c) ops = some (cache, outs) ∧ Refines c cache l ∧
      Current (lastPut ops) l ∧
      ∀ keys : List K, keys.length ≤ c → (∀ key value, .put key value ∈ ops → key ∈ keys) →
        Complete (lastPut ops) l ∧ ∀ p ∈ l, p.1 ∈ keys := by
  induction ops using List.reverseRecOn with
  | nil =>
    exact ⟨new c, [], [], rfl, new_refines c, List.forall_mem_nil _,
      fun keys _ _ => ⟨fun key value h => (by cases h), List.forall_mem_nil _⟩⟩
  | append_singleton ops op ih =>
    obtain ⟨cache, outs, l, hrun, h, hcur, hall⟩ := ih
    have hput (key : K) (value : V) (hmem : .put key value ∈ ops) :
        .put key value ∈ ops ++ [op] := List.mem_append_left _ hmem
    cases op with
    | get key =>
      obtain ⟨cache', hget, h'⟩ := h.get key
      refine ⟨cache', _, _, Run.run_concat hrun hget, h', ?_, ?_⟩
      · intro p hp
        rw [lastPut_get]
        exact hcur p ((mem_refGet h.keys_nodup key).mp hp)
      · intro keys hlen hkeys
        obtain ⟨hcomp, hin⟩ := hall keys hlen fun k v hmem => hkeys k v (hput k v hmem)
        refine ⟨?_, fun p hp => hin p ((mem_refGet h.keys_nodup key).mp hp)⟩
        intro k v hk
        rw [lastPut_get] at hk
        exact (mem_refGet h.keys_nodup key).mpr (hcomp k v hk)
    | put key value =>
      obtain ⟨cache', hrun', h'⟩ := h.put hc key value
      have hexec : cache.exec (.put key value) = some (cache', none) := by
        rw [exec, hrun']
        rfl
      refine ⟨cache', _, _, Run.run_concat hrun hexec, h', hcur.put, ?_⟩
      intro keys hlen hkeys
      obtain ⟨hcomp, hin⟩ := hall keys hlen fun k v hmem => hkeys k v (hput k v hmem)
      have hkey : key ∈ keys := hkeys key value (by simp)
      refine ⟨hcomp.put h.keys_nodup hin hkey hlen, fun p hp => ?_⟩
      rcases mem_of_mem_refPut hp with rfl | ⟨hold, -⟩
      · exact hkey
      · exact hin p hold

/-- **A cache answers with the last value, or not at all.** After any calls, a `get`
finds nothing or the value last put for its key; and it does find it if the capacity
admits all keys that are ever put. -/
theorem lru_coherent (capacity : Nat) (hcap : 0 < capacity) (ops : List (Op K V)) (key : K) :
    ∃ (cache : Lru K V) (outs : List (Option V)) (o : Option V),
      Run.run exec (new capacity) (ops ++ [.get key]) = some (cache, outs ++ [o]) ∧
      (∀ v, o = some v → lastPut ops key = some v) ∧
      ∀ keys : List K, keys.length ≤ capacity → (∀ k v, .put k v ∈ ops → k ∈ keys) →
        o = lastPut ops key := by
  obtain ⟨cache, outs, l, hrun, h, hcur, hall⟩ := run_current hcap ops
  obtain ⟨cache', hget, -⟩ := h.get key
  have hfound : ∀ v, (refGet l key).2 = some v → (key, v) ∈ l := by
    intro v hv
    unfold refGet at hv
    cases hf : l.find? (·.1 == key) with
    | none =>
      rw [hf] at hv
      cases hv
    | some p =>
      rw [hf] at hv
      cases hv
      obtain rfl := eq_of_beq (List.find?_some (p := fun p : K × V => p.1 == key) hf)
      exact List.mem_of_find?_eq_some hf
  refine ⟨cache', outs, _, Run.run_concat hrun hget, fun v hv => hcur _ (hfound v hv), ?_⟩
  intro keys hlen hkeys
  obtain ⟨hcomp, -⟩ := hall keys hlen hkeys
  cases hlast : lastPut ops key with
  | none =>
    cases ho : (refGet l key).2 with
    | none => rfl
    | some v =>
      have hsome : lastPut ops key = some v := hcur _ (hfound v ho)
      rw [hlast] at hsome
      cases hsome
  | some v => rw [refGet, find_of_mem h.keys_nodup (hcomp key v hlast)]

/-- A cache of one, and a key that is put twice. -/
theorem lru_coherent_twice : ∃ (cache : Lru Nat Nat) (outs : List (Option Nat)) (o : Option Nat),
    Run.run exec (new 1) ([.put 1 10, .put 1 20] ++ [.get 1]) = some (cache, outs ++ [o]) ∧
    o = some 20 := by
  obtain ⟨cache, outs, o, hrun, -, hall⟩ := lru_coherent (K := Nat) (V := Nat) 1 (by decide)
    [.put 1 10, .put 1 20] 1
  refine ⟨cache, outs, o, hrun, hall [1] (by decide) ?_⟩
  intro k v hmem
  simp only [List.mem_cons, Op.put.injEq, List.not_mem_nil, or_false] at hmem
  rcases hmem with ⟨rfl, -⟩ | ⟨rfl, -⟩
  · exact List.mem_singleton_self 1
  · exact List.mem_singleton_self 1

/-! ## Two capacities -/

theorem run_included {small big : Lru K V} {l l' : List (K × V)} (hc : 0 < c) (hcc : c ≤ c')
    (h : Refines c small l) (h' : Refines c' big l') (hincl : Included c l l') (ops : List (Op K V)) :
    ∃ small₁ big₁ outs outs', Run.run exec small ops = some (small₁, outs) ∧
      Run.run exec big ops = some (big₁, outs') ∧ small₁.entries.Sublist big₁.entries ∧
      List.Forall₂ (fun o o' => ∀ v, o = some v → o' = some v) outs outs' := by
  induction ops generalizing small big l l' with
  | nil =>
    refine ⟨small, big, [], [], rfl, rfl, ?_, .nil⟩
    rw [h.entries_eq, h'.entries_eq]
    exact hincl.sub
  | cons op ops ih =>
    cases op with
    | get key =>
      obtain ⟨small₁, hget, h₁⟩ := h.get key
      obtain ⟨big₁, hget', h₁'⟩ := h'.get key
      obtain ⟨hincl₁, hfound⟩ := hincl.get h'.keys_nodup key
      obtain ⟨small₂, big₂, outs, outs', hrun, hrun', hsub, houts⟩ := ih h₁ h₁' hincl₁
      exact ⟨small₂, big₂, _, _, Run.run_cons_some hget hrun, Run.run_cons_some hget' hrun', hsub,
        .cons hfound houts⟩
    | put key value =>
      obtain ⟨small₁, hput, h₁⟩ := h.put hc key value
      obtain ⟨big₁, hput', h₁'⟩ := h'.put (by omega) key value
      have hincl₁ := hincl.put h'.keys_nodup hc hcc h.size_le key value
      obtain ⟨small₂, big₂, outs, outs', hrun, hrun', hsub, houts⟩ := ih h₁ h₁' hincl₁
      have hexec : small.exec (.put key value) = some (small₁, none) := by
        rw [exec, hput]
        rfl
      have hexec' : big.exec (.put key value) = some (big₁, none) := by
        rw [exec, hput']
        rfl
      exact ⟨small₂, big₂, _, _, Run.run_cons_some hexec hrun, Run.run_cons_some hexec' hrun', hsub,
        .cons (fun _ => id) houts⟩

/-- **A larger cache finds more.** On the same calls, a cache with a smaller capacity
holds a part of the pairs of one with a larger capacity, in the same order of use;
and what the smaller one finds the larger one finds, too. -/
theorem lru_inclusion (capacity capacity' : Nat) (hcap : 0 < capacity) (hle : capacity ≤ capacity')
    (ops : List (Op K V)) :
    ∃ (small big : Lru K V) (outs outs' : List (Option V)),
      Run.run exec (new capacity) ops = some (small, outs) ∧
      Run.run exec (new capacity') ops = some (big, outs') ∧
      small.entries.Sublist big.entries ∧
      List.Forall₂ (fun o o' => ∀ v, o = some v → o' = some v) outs outs' :=
  run_included hcap hle (new_refines capacity) (new_refines capacity') ⟨.refl [], .inr rfl⟩ ops

/-- Two keys in a cache of one and in a cache of two. -/
theorem lru_inclusion_two : ∃ (small big : Lru Nat Nat) (outs outs' : List (Option Nat)),
    Run.run exec (new 1) [.put 1 10, .put 2 20, .get 1] = some (small, outs) ∧
    Run.run exec (new 2) [.put 1 10, .put 2 20, .get 1] = some (big, outs') ∧
    small.entries.Sublist big.entries ∧
    List.Forall₂ (fun o o' => ∀ v, o = some v → o' = some v) outs outs' :=
  lru_inclusion 1 2 (by decide) (by decide) [.put 1 10, .put 2 20, .get 1]

end Lru

end ByoRedis
