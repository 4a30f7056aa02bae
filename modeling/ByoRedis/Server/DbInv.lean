import ByoRedis.Container.ZsetQuery
import ByoRedis.Server.Timers
import ByoRedis.Server.Store

/-!
# Server — the keyspace in order

`Db.Inv g S`: the entries `S` are linked in `db` under distinct keys, their
TTLs are the items of the heap, and an entry that was handed over for
destruction is linked nowhere. `Db.Abs g S s` adds that the linked entries
show the finite map `s`. The lemmas here say what each building block of the
commands does to both.
-/

namespace ByoRedis

/-- The key of the entry at an address. -/
def Db.keyOf (g : Db) (p : Ptr) : Bytes := (g.entry p).key

/-- The entry shows the value. -/
def Entry.Carries (e : Entry) : Val → Prop
  | .str s => e.type = .str ∧ e.str = s
  | .zset m => e.type = .zset ∧ e.zset.Shows m

/-- The references between `db`, the heap and the entries. -/
structure Db.Inv (g : Db) (S : Finset Ptr) : Prop where
  index : HashMap.Holds g.keyOf strHash g.db S
  hashed : ∀ p ∈ S, (g.entry p).hashCode = strHash (g.entry p).key
  timers : Timers g.heap g.heapSize S
  live : ∀ p, g.live p = true ↔ p ∈ S ∨ p ∈ g.pool.pending
  poolSets : ∀ p ∈ g.pool.pending, (g.entry p).type = .zset → ∃ m, (g.entry p).zset.Shows m
  poolHanded : ∀ p ∈ g.pool.pending, p ∈ g.handed
  poolNodup : g.pool.pending.Nodup
  poolRuns : g.pool.stop = false
  handedNodup : g.handed.Nodup
  unlinked : ∀ p ∈ g.handed, p ∉ S
  fresh : ∀ p, p ∈ S ∨ p ∈ g.handed → p < g.next

/-- The linked entries show the map. -/
structure Db.Abs (g : Db) (S : Finset Ptr) (s : Store) : Prop where
  inv : g.Inv S
  item : ∀ p ∈ S, ∃ v, s.lookup (g.entry p).key = some ⟨v, deadline g.heap p⟩ ∧
    (g.entry p).Carries v
  keys : ∀ key ∈ s, ∃ p ∈ S, (g.entry p).key = key

variable {g g' : Db} {S : Finset Ptr} {s : Store} {p q : Ptr} {key : Bytes}

theorem Db.Inv.key_inj (h : g.Inv S) (hp : p ∈ S) (hq : q ∈ S)
    (hpq : (g.entry p).key = (g.entry q).key) : p = q := h.index.keys p hp q hq hpq

theorem Db.new_abs (cores : Nat) : ∃ g, Db.new cores = some g ∧ g.Abs ∅ ∅ ∧
    g.pool = TheadPool.new (TheadPool.numWorkers cores 0) ∧ g.handed = [] := by
  obtain ⟨m, hm, hh⟩ := HashMap.new_holds (fun _ : Ptr => ([] : Bytes)) strHash
  obtain ⟨z, hz, -⟩ := ZSet.new_shows
  let g : Db := { db := m
                  heap := { h := fun _ => { refPos := 0, val := 0 }, refs := fun _ => none }
                  entry := fun _ => { zset := z }
                  pool := TheadPool.new (TheadPool.numWorkers cores 0) }
  have hnew : Db.new cores = some g := by simp [Db.new, hm, hz, g]
  refine ⟨g, hnew, ?_, rfl, rfl⟩
  have hpool : g.pool.pending = [] := TheadPool.pending_new _
  have hhanded : g.handed = [] := rfl
  refine ⟨⟨hh.congr (by simp), by simp, ?_, by simp [hpool, g], by simp [hpool], by simp [hpool],
    by simp [hpool], rfl, by simp [hhanded], by simp, by simp [hhanded]⟩, by simp,
    fun key hkey => absurd hkey Finmap.notMem_empty⟩
  exact ⟨fun i hi => absurd hi (Nat.not_lt_zero i), fun i _ hi => absurd hi (Nat.not_lt_zero i),
    fun i hi => absurd hi (Nat.not_lt_zero i), by simp⟩

/-- The hash map after a lookup or a migration step holds the same entries. -/
theorem Db.Abs.with_db {db : HashMap Ptr} (h : g.Abs S s)
    (hdb : HashMap.Holds g.keyOf strHash db S) : Db.Abs { g with db := db } S s :=
  ⟨{ h.inv with index := hdb }, h.item, h.keys⟩

/-- The set of a linked entry is in order. -/
theorem Db.Abs.zset_shows (h : g.Abs S s) (hp : p ∈ S) (hz : (g.entry p).type = .zset) :
    ∃ m, (g.entry p).zset.Shows m := by
  obtain ⟨v, -, hc⟩ := h.item p hp
  cases v with
  | str x => exact absurd (hc.1.symm.trans hz) (by decide)
  | zset x => exact ⟨x, hc.2⟩

/-- The entries show their keys and no others. -/
theorem Db.Abs.lookup_none (h : g.Abs S s) :
    s.lookup key = none ↔ ∀ p ∈ S, (g.entry p).key ≠ key := by
  rw [Finmap.lookup_eq_none]
  constructor
  · intro hno p hp hk
    obtain ⟨v, hv, -⟩ := h.item p hp
    rw [hk] at hv
    exact hno (Finmap.mem_of_lookup_eq_some hv)
  · intro hno hmem
    obtain ⟨p, hp, hk⟩ := h.keys key hmem
    exact hno p hp hk

/-- **The lookup of a key** finds its entry; only the hash map changes. -/
theorem dbLookup_spec (h : g.Abs S s) (key : Bytes) :
    ∃ db r, dbLookup g key = some ({ g with db := db }, r) ∧
      Db.Abs { g with db := db } S s ∧
      (match r with
        | none => s.lookup key = none
        | some p => p ∈ S ∧ (g.entry p).key = key) := by
  obtain ⟨db, r, hl, hf, hh⟩ := h.inv.index.lookup key
  refine ⟨db, r.map HashNode.ptr, ?_, h.with_db hh, ?_⟩
  · have hl' : g.db.lookup (strHash key) (entryEq g key) = some (db, r) := hl
    rw [dbLookup, hl']
    rfl
  · cases r with
    | none =>
      apply h.lookup_none.mpr
      intro p hp hk
      have := (hf p).mpr ⟨hp, hk⟩
      cases this
    | some n => exact (hf n.ptr).mp rfl

/-! ## Changing an entry -/

/-- A linked entry gets another value. -/
theorem Db.Abs.set_entry (h : g.Abs S s) (hp : p ∈ S) {e : Entry} {v : Val}
    (hkey : e.key = (g.entry p).key) (hhash : e.hashCode = (g.entry p).hashCode)
    (hv : e.Carries v) :
    Db.Abs { g with entry := Function.update g.entry p e } S
      (s.insert (g.entry p).key ⟨v, deadline g.heap p⟩) := by
  have hother : ∀ q, q ≠ p → Function.update g.entry p e q = g.entry q :=
    fun q hq => Function.update_of_ne hq _ _
  have hkeys : ∀ q, (Function.update g.entry p e q).key = (g.entry q).key := by
    intro q
    by_cases hq : q = p
    · rw [hq, Function.update_self, hkey]
    · rw [hother q hq]
  have hpool : ∀ q ∈ g.pool.pending, q ≠ p := by
    rintro q hq rfl
    exact h.inv.unlinked q (h.inv.poolHanded q hq) hp
  refine ⟨{ h.inv with
    index := h.inv.index.congr (fun q _ => hkeys q)
    hashed := ?_
    poolSets := ?_ }, ?_, ?_⟩
  · intro q hq
    show (Function.update g.entry p e q).hashCode = strHash (Function.update g.entry p e q).key
    rw [hkeys q, ← h.inv.hashed q hq]
    by_cases hqp : q = p
    · rw [hqp, Function.update_self, hhash]
    · rw [hother q hqp]
  · intro q hq
    show (Function.update g.entry p e q).type = .zset →
      ∃ m, (Function.update g.entry p e q).zset.Shows m
    rw [hother q (hpool q hq)]
    exact h.inv.poolSets q hq
  · intro q hq
    show ∃ v', _ = some (Item.mk v' (deadline g.heap q)) ∧
      (Function.update g.entry p e q).Carries v'
    by_cases hqp : q = p
    · subst hqp
      exact ⟨v, by rw [hkeys q, Finmap.lookup_insert], by rw [Function.update_self]; exact hv⟩
    · obtain ⟨v', hv', hc⟩ := h.item q hq
      have hne : (g.entry q).key ≠ (g.entry p).key := fun hk => hqp (h.inv.key_inj hq hp hk)
      refine ⟨v', ?_, by rw [hother q hqp]; exact hc⟩
      rw [hkeys q, Finmap.lookup_insert_of_ne _ hne]
      exact hv'
  · intro key hkey'
    rcases Finmap.mem_insert.mp hkey' with rfl | hmem
    · exact ⟨p, hp, hkeys p⟩
    · obtain ⟨q, hq, hk⟩ := h.keys key hmem
      exact ⟨q, hq, (hkeys q).trans hk⟩

/-- The TTL of a linked entry changes. -/
theorem Db.Abs.set_ttl (h : g.Abs S s) (hp : p ∈ S) {m : HeapMem Nat} {len : Nat} {v : Val}
    {d : Option Nat} (hT : Timers m len S) (hself : deadline m p = d)
    (hother : ∀ q ∈ S, q ≠ p → deadline m q = deadline g.heap q)
    (hv : s.lookup (g.entry p).key = some ⟨v, deadline g.heap p⟩) :
    Db.Abs { g with heap := m, heapSize := len } S (s.insert (g.entry p).key ⟨v, d⟩) := by
  refine ⟨{ h.inv with timers := hT }, ?_, ?_⟩
  · intro q hq
    show ∃ v', _ = some (Item.mk v' (deadline m q)) ∧ (g.entry q).Carries v'
    obtain ⟨v', hv', hc⟩ := h.item q hq
    by_cases hqp : q = p
    · subst hqp
      rw [hv] at hv'
      cases hv'
      exact ⟨v, by rw [Finmap.lookup_insert, hself], hc⟩
    · have hne : (g.entry q).key ≠ (g.entry p).key := fun hk => hqp (h.inv.key_inj hq hp hk)
      refine ⟨v', ?_, hc⟩
      rw [Finmap.lookup_insert_of_ne _ hne, hother q hq hqp]
      exact hv'
  · intro key hkey
    rcases Finmap.mem_insert.mp hkey with rfl | hmem
    · exact ⟨p, hp, rfl⟩
    · exact h.keys key hmem

/-! ## Linking a new entry -/

/-- The value of a fresh entry of a type. -/
def freshVal (type : EntryType) (str : Bytes) : Val :=
  match type with
  | .zset => .zset ∅
  | _ => .str str

/-- **A new entry** under a key that is not there. -/
theorem dbInsertNew_spec (h : g.Abs S s) (hkey : s.lookup key = none) (type : EntryType)
    (htype : type ≠ .init) (str : Bytes) :
    ∃ g', dbInsertNew g type key str = some (g', g.next) ∧
      g'.Abs (insert g.next S) (s.insert key ⟨freshVal type str, none⟩) ∧
      (g'.entry g.next).key = key ∧ (g'.entry g.next).type = type := by
  obtain ⟨z, hz, hzs⟩ := ZSet.new_shows
  have hnS : g.next ∉ S := fun hmem => absurd (h.inv.fresh _ (.inl hmem)) (Nat.lt_irrefl _)
  have hne : ∀ q, q ∈ S ∨ q ∈ g.handed → q ≠ g.next :=
    fun q hq => Nat.ne_of_lt (h.inv.fresh q hq)
  let e : Entry := { hashCode := strHash key, key := key, type := type, str := str, zset := z }
  let g₁ : Db := { g with
    entry := Function.update g.entry g.next e
    heap := { g.heap with refs := Function.update g.heap.refs g.next none }
    live := Function.update g.live g.next true
    next := g.next + 1 }
  have hself : g₁.entry g.next = e := Function.update_self _ _ _
  have hother : ∀ q, q ∈ S ∨ q ∈ g.handed → g₁.entry q = g.entry q :=
    fun q hq => Function.update_of_ne (hne q hq) _ _
  have hidx : HashMap.Holds g₁.keyOf strHash g.db S := by
    apply h.inv.index.congr
    intro q hq
    rw [Db.keyOf, hother q (.inl hq)]
    rfl
  obtain ⟨db, hins, hh⟩ := hidx.insert g.next hnS (by
    intro q hq
    rw [Db.keyOf, Db.keyOf, hself, hother q (.inl hq)]
    exact h.lookup_none.mp hkey q hq)
  have hcode : strHash (g₁.keyOf g.next) = strHash key := by rw [Db.keyOf, hself]
  rw [hcode] at hins
  obtain ⟨hT, hd, hdo⟩ := h.inv.timers.insert_fresh hnS
  refine ⟨{ g₁ with db := db }, ?_, ⟨?_, ?_, ?_⟩, by rw [hself], by rw [hself]⟩
  · simp only [dbInsertNew, entryNew, hz, Option.bind_eq_bind, Option.bind_some,
      Function.update_self, Function.update_idem, hins]
    rfl
  · refine ⟨hh, ?_, hT, ?_, ?_, h.inv.poolHanded, h.inv.poolNodup, h.inv.poolRuns,
      h.inv.handedNodup, ?_, ?_⟩
    · intro q hq
      show (g₁.entry q).hashCode = strHash (g₁.entry q).key
      rcases Finset.mem_insert.mp hq with rfl | hq
      · rw [hself]
      · rw [hother q (.inl hq)]
        exact h.inv.hashed q hq
    · intro q
      show Function.update g.live g.next true q = true ↔ _
      by_cases hq : q = g.next
      · simp [hq]
      · rw [Function.update_of_ne hq, h.inv.live q, Finset.mem_insert]
        tauto
    · intro q hq
      show (g₁.entry q).type = .zset → ∃ m, (g₁.entry q).zset.Shows m
      rw [hother q (.inr (h.inv.poolHanded q hq))]
      exact h.inv.poolSets q hq
    · intro q hq hmem
      rcases Finset.mem_insert.mp hmem with rfl | hmem
      · exact hne _ (.inr hq) rfl
      · exact h.inv.unlinked q hq hmem
    · intro q hq
      show q < g.next + 1
      rcases hq with hq | hq
      · rcases Finset.mem_insert.mp hq with rfl | hq
        · exact Nat.lt_succ_self _
        · exact Nat.lt_succ_of_lt (h.inv.fresh q (.inl hq))
      · exact Nat.lt_succ_of_lt (h.inv.fresh q (.inr hq))
  · intro q hq
    show ∃ v, (s.insert key _).lookup (g₁.entry q).key = some ⟨v, deadline g₁.heap q⟩ ∧
      (g₁.entry q).Carries v
    rcases Finset.mem_insert.mp hq with rfl | hq
    · refine ⟨freshVal type str, ?_, ?_⟩
      · rw [hself, Finmap.lookup_insert]
        exact congrArg some (congrArg _ hd.symm)
      · rw [hself]
        cases type with
        | init => exact absurd rfl htype
        | str => exact ⟨rfl, rfl⟩
        | zset => exact ⟨rfl, hzs⟩
    · obtain ⟨v, hv, hc⟩ := h.item q hq
      refine ⟨v, ?_, by rw [hother q (.inl hq)]; exact hc⟩
      rw [hother q (.inl hq), Finmap.lookup_insert_of_ne _ (h.lookup_none.mp hkey q hq), hv]
      exact congrArg some (congrArg _ (hdo q hq).symm)
  · intro key' hmem
    show ∃ q ∈ insert g.next S, (g₁.entry q).key = key'
    rcases Finmap.mem_insert.mp hmem with rfl | hmem
    · exact ⟨g.next, Finset.mem_insert_self _ _, by rw [hself]⟩
    · obtain ⟨q, hq, hk⟩ := h.keys key' hmem
      exact ⟨q, Finset.mem_insert_of_mem hq, by rw [hother q (.inl hq)]; exact hk⟩

/-! ## Destroying an entry -/

/-- An entry without a TTL, taken out of the hash map and handed over; the
caller says who is allocated and queued after that. -/
theorem Db.Abs.unlink (h : g.Abs S s) (hp : p ∈ S) {db : HashMap Ptr} {m : HeapMem Nat}
    {len : Nat} {live : Ptr → Bool} {pool : TheadPool Ptr}
    (hdb : HashMap.Holds g.keyOf strHash db (S.erase p)) (hT : Timers m len S)
    (hself : deadline m p = none) (hother : ∀ q ∈ S, q ≠ p → deadline m q = deadline g.heap q)
    (hlive : ∀ q, live q = true ↔ q ∈ S.erase p ∨ q ∈ pool.pending) (hruns : pool.stop = false)
    (hpool : pool.pending = g.pool.pending ∨ pool.pending = g.pool.pending ++ [p]) :
    Db.Abs { g with db := db, heap := m, heapSize := len, live := live, pool := pool,
                    handed := g.handed ++ [p] } (S.erase p) (s.erase (g.entry p).key) := by
  have hph : p ∉ g.handed := fun hmem => h.inv.unlinked p hmem hp
  have hpp : p ∉ g.pool.pending := fun hmem => hph (h.inv.poolHanded p hmem)
  have hmem : ∀ q ∈ pool.pending, q ∈ g.pool.pending ∨ q = p := by
    intro q hq
    rcases hpool with he | he
    · exact .inl (he ▸ hq)
    · rw [he] at hq
      simpa using hq
  refine ⟨⟨hdb, fun q hq => h.inv.hashed q (Finset.mem_of_mem_erase hq), hT.erase hself, hlive, ?_,
    ?_, ?_, hruns, ?_, ?_, ?_⟩, ?_, ?_⟩
  · intro q hq hz
    rcases hmem q hq with hq | rfl
    · exact h.inv.poolSets q hq hz
    · exact h.zset_shows hp hz
  · intro q hq
    rcases hmem q hq with hq | rfl
    · exact List.mem_append_left _ (h.inv.poolHanded q hq)
    · exact List.mem_append_right _ (by simp)
  · show pool.pending.Nodup
    rcases hpool with he | he
    · rw [he]
      exact h.inv.poolNodup
    · rw [he, List.nodup_append]
      refine ⟨h.inv.poolNodup, by simp, ?_⟩
      intro a ha b hb hab
      rw [List.mem_singleton.mp hb] at hab
      exact hpp (hab ▸ ha)
  · rw [List.nodup_append]
    refine ⟨h.inv.handedNodup, by simp, ?_⟩
    intro a ha b hb hab
    rw [List.mem_singleton.mp hb] at hab
    exact hph (hab ▸ ha)
  · intro q hq hqS
    rcases List.mem_append.mp hq with hq | hq
    · exact h.inv.unlinked q hq (Finset.mem_of_mem_erase hqS)
    · rw [List.mem_singleton.mp hq] at hqS
      exact Finset.notMem_erase p S hqS
  · intro q hq
    rcases hq with hq | hq
    · exact h.inv.fresh q (.inl (Finset.mem_of_mem_erase hq))
    · rcases List.mem_append.mp hq with hq | hq
      · exact h.inv.fresh q (.inr hq)
      · rw [List.mem_singleton.mp hq]
        exact h.inv.fresh p (.inl hp)
  · intro q hq
    obtain ⟨hqp, hqS⟩ := Finset.mem_erase.mp hq
    obtain ⟨v, hv, hc⟩ := h.item q hqS
    have hne : (g.entry q).key ≠ (g.entry p).key := fun hk => hqp (h.inv.key_inj hqS hp hk)
    refine ⟨v, ?_, hc⟩
    show (s.erase _).lookup (g.entry q).key = some (Item.mk v (deadline m q))
    rw [Finmap.lookup_erase_ne hne, hother q hqS hqp]
    exact hv
  · intro key hkey
    obtain ⟨hne, hkey⟩ := Finmap.mem_erase.mp hkey
    obtain ⟨q, hq, hk⟩ := h.keys key hkey
    refine ⟨q, Finset.mem_erase.mpr ⟨?_, hq⟩, hk⟩
    rintro rfl
    exact hne hk.symm

/-- `entry_del_sync` on an allocated entry whose set, if it has one, is in
order. -/
theorem entryDelSync_spec (hlive : g.live p = true)
    (hset : (g.entry p).type = .zset → ∃ m, (g.entry p).zset.Shows m) :
    entryDelSync g p = some { g with live := Function.update g.live p false } := by
  rw [entryDelSync, if_pos hlive]
  by_cases hz : (g.entry p).type = .zset
  · obtain ⟨m, t, hi, -⟩ := hset hz
    obtain ⟨live, hclear, -⟩ := hi.paired.clear
    simp [hz, hclear]
  · simp [hz]

/-- **`entry_del`** of an entry that was taken out of the hash map unlinks it
from the heap too and hands it over, once. -/
theorem entryDel_spec (h : g.Abs S s) (hp : p ∈ S) {db : HashMap Ptr}
    (hdb : HashMap.Holds g.keyOf strHash db (S.erase p)) :
    ∃ g', entryDel { g with db := db } p = some g' ∧
      g'.Abs (S.erase p) (s.erase (g.entry p).key) ∧ g'.handed = g.handed ++ [p] := by
  obtain ⟨m, len, hset, hT, hself, hother⟩ :=
    entrySetTtl_spec (g := { g with db := db }) h.inv.timers hp 0 (-1)
  have hself : deadline m p = none := by rw [hself, if_pos (by decide)]
  have hpp : p ∉ g.pool.pending := fun hmem => h.inv.unlinked p (h.inv.poolHanded p hmem) hp
  have hlive : g.live p = true := (h.inv.live p).mpr (.inl hp)
  rw [entryDel, hset]
  simp only [Option.bind_eq_bind, Option.bind_some]
  generalize hsize : (if (g.entry p).type = .zset then (g.entry p).zset.hmap.size else 0) = setSize
  by_cases hlarge : kLargeContainerSize < setSize
  · -- queued for the thread pool
    obtain ⟨hqueue, hpending⟩ := TheadPool.pending_enqueue h.inv.poolRuns p
    rw [hqueue] at hpending
    rw [if_pos hlarge, hqueue]
    refine ⟨_, rfl, h.unlink hp hdb hT hself hother ?_ h.inv.poolRuns (.inr hpending), rfl⟩
    intro q
    rw [h.inv.live q, hpending, List.mem_append, List.mem_singleton, Finset.mem_erase]
    by_cases hqp : q = p
    · simp [hqp, hp]
    · simp [hqp]
  · -- destroyed at once
    rw [if_neg hlarge]
    refine ⟨_, entryDelSync_spec hlive (h.zset_shows hp),
      h.unlink hp hdb hT hself hother ?_ h.inv.poolRuns (.inl rfl), rfl⟩
    intro q
    rw [Finset.mem_erase]
    by_cases hqp : q = p
    · simp [hqp, hpp]
    · rw [Function.update_of_ne hqp, h.inv.live q]
      simp [hqp]

/-- A worker pops a task: who is allocated stays the same. -/
theorem Db.Abs.pop (h : g.Abs S s) {pool : TheadPool Ptr} (hruns : pool.stop = false)
    (hpool : pool.pending.Perm g.pool.pending) : Db.Abs { g with pool := pool } S s :=
  ⟨{ h.inv with
    live := fun q => (h.inv.live q).trans (or_congr_right hpool.mem_iff.symm)
    poolSets := fun q hq => h.inv.poolSets q (hpool.subset hq)
    poolHanded := fun q hq => h.inv.poolHanded q (hpool.subset hq)
    poolNodup := hpool.nodup_iff.mpr h.inv.poolNodup
    poolRuns := hruns }, h.item, h.keys⟩

/-- A worker has run a task. -/
theorem Db.Abs.ran (h : g.Abs S s) {pool : TheadPool Ptr} (hruns : pool.stop = false)
    (hpool : (p :: pool.pending).Perm g.pool.pending) :
    Db.Abs { g with pool := pool, live := Function.update g.live p false } S s := by
  have hmem : p ∈ g.pool.pending := hpool.subset List.mem_cons_self
  have hrest : ∀ q ∈ pool.pending, q ∈ g.pool.pending := fun q hq =>
    hpool.subset (List.mem_cons_of_mem p hq)
  have hnd := List.nodup_cons.mp (hpool.nodup_iff.mpr h.inv.poolNodup)
  have hpS : p ∉ S := h.inv.unlinked p (h.inv.poolHanded p hmem)
  refine ⟨{ h.inv with
    live := ?_
    poolSets := fun q hq => h.inv.poolSets q (hrest q hq)
    poolHanded := fun q hq => h.inv.poolHanded q (hrest q hq)
    poolNodup := hnd.2
    poolRuns := hruns }, h.item, h.keys⟩
  intro q
  show Function.update g.live p false q = true ↔ q ∈ S ∨ q ∈ pool.pending
  by_cases hqp : q = p
  · simp [hqp, hpS, hnd.1]
  · rw [Function.update_of_ne hqp, h.inv.live q, ← hpool.mem_iff]
    simp [hqp]

/-- **A worker** pops a task, or destroys the entry of the one it has popped; the
keyspace does not change. -/
theorem workerStep_spec (h : g.Abs S s) (w : Nat) :
    ∃ g', workerStep g w = some g' ∧ g'.Abs S s ∧ g'.handed = g.handed := by
  unfold workerStep
  cases hwake : g.pool.step (.wake w) with
  | some x =>
    obtain ⟨pool, e⟩ := x
    have hstep := TheadPool.step_cases hwake
    rcases TheadPool.step_wake_inv hwake with ⟨task, rfl⟩ | rfl
    · exact ⟨_, rfl, h.pop ((hstep.stop_eq (by simp)).trans h.inv.poolRuns)
        (TheadPool.pending_pop hstep), rfl⟩
    · -- only a pool that is stopped lets a worker go
      cases hstep with
      | exit hw hs ht => exact absurd (h.inv.poolRuns.symm.trans hs) Bool.false_ne_true
  | none =>
    cases hrun : g.pool.step (.run w) with
    | none => exact ⟨g, rfl, h, rfl⟩
    | some x =>
      obtain ⟨pool, e⟩ := x
      have hstep := TheadPool.step_cases hrun
      obtain ⟨task, rfl⟩ := TheadPool.step_run_inv hrun
      have hpool := TheadPool.pending_run hstep
      have hmem := hpool.subset List.mem_cons_self
      have hdel := entryDelSync_spec (g := { g with pool := pool })
        ((h.inv.live task.func).mpr (.inr hmem)) (h.inv.poolSets task.func hmem)
      exact ⟨_, hdel, h.ran ((hstep.stop_eq (by simp)).trans h.inv.poolRuns) hpool, rfl⟩

end ByoRedis
