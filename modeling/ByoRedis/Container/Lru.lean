import ByoRedis.Lib.Run
import ByoRedis.Lib.NodeList

/-!
# Container — the least-recently-used cache

`container/lru.h`: a list of pairs with the most recent one at the front, and a
hash map from the keys to the nodes of the list. `std::list` is `NodeList`, its
iterators are the handles, and `std::unordered_map` is the hash map of the
library, over any key type with lawful equality.
-/

namespace ByoRedis

variable {K V : Type} [BEq K] [Hashable K]

/-- `class lru`. -/
structure Lru (K V : Type) [BEq K] [Hashable K] where
  mCache : NodeList (K × V)
  mMap : Std.HashMap K Nat
  mCapacity : Nat

namespace Lru

/-- `lru::lru`. -/
def new (capacity : Nat) : Lru K V where
  mCache := .empty
  mMap := ∅
  mCapacity := capacity

/-- `lru::size`. -/
def size (c : Lru K V) : Nat := c.mCache.size

/-- What `begin()` to `end()` runs over. -/
def entries (c : Lru K V) : List (K × V) := c.mCache.toList

/-- `lru::get`. -/
def get (c : Lru K V) (key : K) : Option (Lru K V × Option V) :=
  match c.mMap[key]? with
  | none => some (c, none)
  | some it => do
    let cache ← c.mCache.toFront it
    let p ← cache.deref it
    some ({ c with mCache := cache }, some p.2)

/-- The full cache gives up its last element. -/
def evict (c : Lru K V) : Option (Lru K V) :=
  if c.mCache.size = c.mCapacity then do
    let last ← c.mCache.back
    let cache ← c.mCache.popBack
    some { c with mCache := cache, mMap := c.mMap.erase last.1 }
  else some c

/-- `lru::put`. -/
def put (c : Lru K V) (key : K) (value : V) : Option (Lru K V) :=
  match c.mMap[key]? with
  | none => do
    let c ← c.evict
    let cache := c.mCache.emplaceFront (key, value)
    let it ← cache.begin
    some { c with mCache := cache, mMap := c.mMap.insert key it }
  | some it => do
    let p ← c.mCache.deref it
    let cache ← c.mCache.assign it (p.1, value)
    let it ← c.mMap[key]?
    let cache ← cache.toFront it
    some { c with mCache := cache }

/-- The calls. -/
inductive Op (K V : Type) where
  | get (key : K)
  | put (key : K) (value : V)

/-- One call and its result; `put` has none. -/
def exec (c : Lru K V) : Op K V → Option (Lru K V × Option V)
  | .get key => c.get key
  | .put key value => (c.put key value).map fun c => (c, none)

/-! ## The reference: pairs by most recent use -/

/-- A present key moves to the front; an absent one changes nothing. -/
def refGet (l : List (K × V)) (key : K) : List (K × V) × Option V :=
  match l.find? (·.1 == key) with
  | none => (l, none)
  | some p => (p :: l.filter (!·.1 == key), some p.2)

/-- A present key gets the value and moves to the front; for an absent one, the
last pair of a full list is dropped first. -/
def refPut (capacity : Nat) (l : List (K × V)) (key : K) (value : V) : List (K × V) :=
  match l.find? (·.1 == key) with
  | none => (key, value) :: (if l.length = capacity then l.dropLast else l)
  | some _ => (key, value) :: l.filter (!·.1 == key)

/-- One call on the reference. -/
def refExec (capacity : Nat) (l : List (K × V)) : Op K V → Option (List (K × V) × Option V)
  | .get key => some (refGet l key)
  | .put key value => some (refPut capacity l key value, none)

/-! ## The list and the map in step -/

variable {c : Lru K V} {key : K} {it : Nat} {v : V}

/-- The map and the list index the same keys, and an iterator in the map refers
to the node of its key. -/
def Indexed (c : Lru K V) : Prop :=
  ∀ key it, c.mMap[key]? = some it ↔ ∃ v, (it, (key, v)) ∈ c.mCache.nodes

/-- The nodes of two different handles have different keys. -/
theorem Indexed.key_inj (h : Indexed c) {n n' : Nat × K × V} (hn : n ∈ c.mCache.nodes)
    (hn' : n' ∈ c.mCache.nodes) (hk : n.2.1 = n'.2.1) : n = n' := by
  obtain ⟨it, key, v⟩ := n
  obtain ⟨it', key', v'⟩ := n'
  obtain rfl : key = key' := hk
  have h1 := (h key it).mpr ⟨v, hn⟩
  have h2 := (h key it').mpr ⟨v', hn'⟩
  exact NodeList.handle_inj hn hn' (Option.some.inj (h1.symm.trans h2))

theorem Indexed.keys_nodup (h : Indexed c) : (c.entries.map Prod.fst).Nodup := by
  rw [entries, NodeList.toList, List.map_map]
  exact c.mCache.nodup.of_map.map_on fun n hn n' hn' hk => h.key_inj hn hn' hk

variable [LawfulBEq K]

/-- A key that is not in the map is in no pair. -/
theorem Indexed.find_none (h : Indexed c) (hm : c.mMap[key]? = none) :
    c.entries.find? (·.1 == key) = none := by
  rw [List.find?_eq_none]
  intro p hp hk
  obtain ⟨⟨it, p⟩, hn, rfl⟩ := List.mem_map.mp hp
  obtain rfl : p.1 = key := eq_of_beq hk
  have := (h p.1 it).mpr ⟨p.2, hn⟩
  rw [hm] at this
  cases this

theorem Indexed.find_some (h : Indexed c) (hn : (it, (key, v)) ∈ c.mCache.nodes) :
    c.entries.find? (·.1 == key) = some (key, v) := by
  cases hf : c.entries.find? (·.1 == key) with
  | none =>
    rw [List.find?_eq_none] at hf
    exact absurd (BEq.refl key) (hf (key, v) (List.mem_map.mpr ⟨_, hn, rfl⟩))
  | some p =>
    obtain ⟨⟨it', p⟩, hn', rfl⟩ := List.mem_map.mp (List.mem_of_find?_eq_some hf)
    have hk : (p.1 == key) = true := List.find?_some (p := fun p : K × V => p.1 == key) hf
    exact congrArg some (congrArg Prod.snd (h.key_inj hn' hn (eq_of_beq hk)))

/-- To leave out the node of a key is to leave out the pair of the key. -/
theorem Indexed.filter_entries (h : Indexed c) (hn : (it, (key, v)) ∈ c.mCache.nodes) :
    (c.mCache.nodes.filter (·.1 ≠ it)).map Prod.snd = c.entries.filter (!·.1 == key) := by
  rw [entries, NodeList.toList, List.filter_map]
  congr 1
  apply List.filter_congr
  intro n hmem
  have hiff : n.1 = it ↔ n.2.1 = key := by
    constructor
    · intro he
      exact congrArg (fun n => n.2.1) (NodeList.handle_inj hmem hn he)
    · intro he
      exact congrArg Prod.fst (h.key_inj hmem hn he)
  by_cases he : n.1 = it
  · simp [he, hiff.mp he]
  · simp [he, mt hiff.mpr he]

/-- The cache holds the pairs `l`, in their order. -/
structure Refines (capacity : Nat) (c : Lru K V) (l : List (K × V)) : Prop where
  capacity_eq : c.mCapacity = capacity
  index : Indexed c
  entries_eq : c.entries = l
  size_le : l.length ≤ capacity

variable {capacity : Nat} {l : List (K × V)}

/-- The node of a present key at the front, with the value it had or a new one:
`cache` is the list before the splice. -/
theorem Refines.splice (h : Refines capacity c l) (hn : (it, (key, v)) ∈ c.mCache.nodes)
    {cache : NodeList (K × V)} {v' : V} (hn' : (it, (key, v')) ∈ cache.nodes)
    (hother : cache.nodes.filter (·.1 ≠ it) = c.mCache.nodes.filter (·.1 ≠ it)) :
    ∃ cache', cache.toFront it = some cache' ∧ (it, (key, v')) ∈ cache'.nodes ∧
      Refines capacity { c with mCache := cache' } ((key, v') :: l.filter (!·.1 == key)) := by
  obtain ⟨cache', hfront, hnodes⟩ := NodeList.toFront_spec hn'
  rw [hother] at hnodes
  have hperm := NodeList.toFront_perm hn
  have hentries : cache'.toList = (key, v') :: l.filter (!·.1 == key) := by
    rw [NodeList.toList, hnodes, List.map_cons, h.index.filter_entries hn, h.entries_eq]
  refine ⟨cache', hfront, by rw [hnodes]; exact List.mem_cons_self, h.capacity_eq, ?_, hentries, ?_⟩
  · -- the keys and the handles of the nodes are the same as before
    intro key' it'
    rw [h.index key' it', hnodes]
    constructor
    · rintro ⟨w, hw⟩
      rcases List.mem_cons.mp (hperm.mem_iff.mpr hw) with he | hw
      · cases he
        exact ⟨v', List.mem_cons_self⟩
      · exact ⟨w, List.mem_cons_of_mem _ hw⟩
    · rintro ⟨w, hw⟩
      rcases List.mem_cons.mp hw with he | hw
      · cases he
        exact ⟨v, hn⟩
      · exact ⟨w, (List.mem_filter.mp hw).1⟩
  · have hlen := hperm.length_eq
    rw [List.length_cons, ← List.length_map (f := Prod.snd), h.index.filter_entries hn,
      h.entries_eq] at hlen
    have hsize := h.size_le
    rw [← h.entries_eq, entries, NodeList.toList, List.length_map] at hsize
    rw [List.length_cons]
    omega

theorem Refines.get (h : Refines capacity c l) (key : K) :
    ∃ c', c.get key = some (c', (refGet l key).2) ∧ Refines capacity c' (refGet l key).1 := by
  rw [Lru.get, refGet]
  cases hm : c.mMap[key]? with
  | none =>
    rw [← h.entries_eq, h.index.find_none hm, h.entries_eq]
    exact ⟨c, rfl, h⟩
  | some it =>
    obtain ⟨v, hn⟩ := (h.index key it).mp hm
    obtain ⟨cache, hfront, hmem, h'⟩ := h.splice hn hn rfl
    rw [← h.entries_eq, h.index.find_some hn, h.entries_eq]
    exact ⟨_, by simp [hfront, NodeList.deref_eq_some.mpr hmem], h'⟩

/-- The eviction: the map loses the key of the pair that the list loses, and
there is room for one more. -/
theorem Refines.evict (h : Refines capacity c l) (hcap : 0 < capacity) :
    ∃ c' : Lru K V, c.evict = some c' ∧ (∀ key : K, c.mMap[key]? = none → c'.mMap[key]? = none) ∧
      Refines capacity c' (if l.length = capacity then l.dropLast else l) ∧
      c'.mCache.size < capacity := by
  have hlen : c.mCache.size = l.length := by
    rw [← h.entries_eq, entries, NodeList.toList, List.length_map, NodeList.size]
  have hle := h.size_le
  rw [Lru.evict, hlen, h.capacity_eq]
  by_cases hfull : l.length = capacity
  · obtain ⟨cache, ⟨it, key, v⟩, hpop, hnodes, hback⟩ :=
      NodeList.popBack_spec (show 0 < c.mCache.size by omega)
    have hlast : (it, (key, v)) ∈ c.mCache.nodes := by simp [hnodes]
    have hnot : ∀ it' v', (it', (key, v')) ∉ cache.nodes := by
      intro it' v' hmem
      have hmem' : (it', (key, v')) ∈ c.mCache.nodes := by
        rw [hnodes]
        exact List.mem_append_left _ hmem
      -- the handle of the last node is in the rest, too
      have hnodup := c.mCache.nodup
      rw [h.index.key_inj hmem' hlast rfl] at hmem
      rw [hnodes, List.map_append] at hnodup
      exact (List.nodup_append.mp hnodup).2.2 it (List.mem_map.mpr ⟨_, hmem, rfl⟩) it (by simp) rfl
    have hentries : cache.toList = l.dropLast := by
      rw [← h.entries_eq, entries, NodeList.toList, NodeList.toList, hnodes, List.map_append,
        List.map_singleton, List.dropLast_concat]
    have hsize : cache.size + 1 = c.mCache.size := by
      rw [NodeList.size, NodeList.size, hnodes, List.length_append, List.length_singleton]
    refine ⟨{ c with mCache := cache, mMap := c.mMap.erase key }, ?_, ?_,
      ⟨h.capacity_eq, ?_, ?_, ?_⟩, by show cache.size < capacity; omega⟩
    · simp [hfull, hback, hpop, h.capacity_eq]
    · intro key' hnone
      simp [Std.HashMap.getElem?_erase, hnone]
    · intro key' it'
      rw [Std.HashMap.getElem?_erase]
      by_cases hk : key == key'
      · obtain rfl := eq_of_beq hk
        simp [hnot]
      · rw [if_neg hk, h.index key' it', hnodes]
        have hne : key' ≠ key := fun he => hk (by simp [he])
        simp [hne]
    · rw [if_pos hfull]
      exact hentries
    · rw [if_pos hfull, List.length_dropLast]
      omega
  · refine ⟨c, if_neg hfull, fun _ => id, ?_, by omega⟩
    rw [if_neg hfull]
    exact h

theorem Refines.put (h : Refines capacity c l) (hcap : 0 < capacity) (key : K) (value : V) :
    ∃ c', c.put key value = some c' ∧ Refines capacity c' (refPut capacity l key value) := by
  rw [Lru.put, refPut]
  cases hm : c.mMap[key]? with
  | none =>
    obtain ⟨c', hev, hkeep, h', hroom⟩ := h.evict hcap
    have habsent := hkeep key hm
    rw [← h.entries_eq, h.index.find_none hm, h.entries_eq]
    refine ⟨{ c' with mCache := c'.mCache.emplaceFront (key, value),
                      mMap := c'.mMap.insert key c'.mCache.next },
      by rw [hev]; rfl, h'.capacity_eq, ?_, ?_, ?_⟩
    · intro key' it'
      show (c'.mMap.insert key c'.mCache.next)[key']? = some it' ↔
        ∃ v, (it', (key', v)) ∈ (c'.mCache.next, (key, value)) :: c'.mCache.nodes
      rw [Std.HashMap.getElem?_insert]
      by_cases hk : key == key'
      · obtain rfl := eq_of_beq hk
        have hnot : ∀ v, (it', (key, v)) ∉ c'.mCache.nodes := by
          intro v hmem
          have := (h'.index key it').mpr ⟨v, hmem⟩
          rw [habsent] at this
          cases this
        simp [hnot, eq_comm]
      · have hne : key' ≠ key := fun he => hk (by simp [he])
        rw [if_neg hk, h'.index key' it']
        simp [hne]
    · show (key, value) :: c'.entries = _
      rw [h'.entries_eq]
    · have hsize : c'.mCache.size = c'.entries.length := by
        rw [entries, NodeList.toList, List.length_map, NodeList.size]
      rw [h'.entries_eq] at hsize
      rw [List.length_cons]
      omega
  | some it =>
    obtain ⟨v, hn⟩ := (h.index key it).mp hm
    obtain ⟨cache, hassign, hmem, hother⟩ := NodeList.assign_spec hn (key, value)
    obtain ⟨cache', hfront, -, h'⟩ := h.splice hn hmem hother
    rw [← h.entries_eq, h.index.find_some hn, h.entries_eq]
    exact ⟨_, by simp [NodeList.deref_eq_some.mpr hn, hassign, hfront], h'⟩

/-! ## Every sequence of calls -/

theorem exec_simulates (hcap : 0 < capacity) (c : Lru K V) (l : List (K × V)) (op : Op K V)
    (h : Refines capacity c l) : ∃ c' o l', c.exec op = some (c', o) ∧
      refExec capacity l op = some (l', o) ∧ Refines capacity c' l' := by
  cases op with
  | get key =>
    obtain ⟨c', hget, h'⟩ := h.get key
    exact ⟨c', _, _, hget, rfl, h'⟩
  | put key value =>
    obtain ⟨c', hput, h'⟩ := h.put hcap key value
    exact ⟨c', none, _, by rw [exec, hput]; rfl, rfl, h'⟩

theorem new_refines (capacity : Nat) : Refines capacity (new capacity : Lru K V) [] := by
  refine ⟨rfl, ?_, rfl, Nat.zero_le _⟩
  intro key it
  simp [new, NodeList.empty]

/-- **The cache refines the list of pairs by most recent use.** Every sequence of
calls on an empty cache of any capacity but 0 is answered as on the reference,
and `begin()` to `end()` runs over the pairs of the reference. The keys are
distinct, the map and the list index the same keys, and there are no more than
the capacity admits. -/
theorem lru_refines (capacity : Nat) (hcap : 0 < capacity) (ops : List (Op K V)) :
    ∃ c l outs, Run.run exec (new capacity : Lru K V) ops = some (c, outs) ∧
      Run.run (refExec capacity) [] ops = some (l, outs) ∧ c.entries = l ∧
      (l.map Prod.fst).Nodup ∧
      (∀ key it, c.mMap[key]? = some it ↔ ∃ v, (it, (key, v)) ∈ c.mCache.nodes) ∧
      c.size ≤ capacity := by
  have hstep : ∀ (c : Lru K V) (l : List (K × V)) (op : Op K V), Refines capacity c l → True →
      ∃ c' o l', c.exec op = some (c', o) ∧ refExec capacity l op = some (l', o) ∧
        Refines capacity c' l' := fun c l op h _ => exec_simulates hcap c l op h
  have hadm : Run.Admissible (fun l op o l' => refExec capacity l op = some (l', o))
      (fun _ _ => True) [] ops := Run.admissible_of_forall (fun _ _ _ => trivial) []
  obtain ⟨c, outs, l, hrun, hacc, h⟩ := Run.run_simulates hstep (new_refines capacity) hadm
  refine ⟨c, l, outs, hrun, hacc.run_eq, h.entries_eq, ?_, h.index, ?_⟩
  · rw [← h.entries_eq]
    exact h.index.keys_nodup
  · have hsize := h.size_le
    rw [← h.entries_eq, entries, NodeList.toList, List.length_map] at hsize
    exact hsize

/-- A cache of two: the third key takes the place of the one used longest ago. -/
theorem lru_refines_evicts : ∃ c : Lru Nat Nat,
    Run.run exec (new 2 : Lru Nat Nat) [.put 1 10, .put 2 20, .get 1, .put 3 30, .get 2] =
      some (c, [none, none, some 10, none, none]) ∧
    c.entries = [(3, 30), (1, 10)] ∧ c.size ≤ 2 := by
  obtain ⟨c, l, outs, hrun, href, hentries, -, -, hsize⟩ := lru_refines (K := Nat) (V := Nat) 2
    (by decide) [.put 1 10, .put 2 20, .get 1, .put 3 30, .get 2]
  cases href
  exact ⟨c, hrun, hentries, hsize⟩

end Lru

end ByoRedis
