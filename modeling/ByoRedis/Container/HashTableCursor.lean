import ByoRedis.Container.HashTableLoad

/-!
# Container — the cursor of the migration

The loop of `rehashing` does not check the cursor, and it does not count the
slots that it skips. What keeps the cursor within the older table are the
counters: a table that says it holds a node does, and not below the cursor.
-/

namespace ByoRedis

open Relation

variable {α : Type}

namespace HashMap

/-- The state in which a call comes to `rehashing`: `insert` has inserted and
looked at the load before. -/
def atRehashing (m : HashMap α) : Call α → Option (HashMap α)
  | .insert node => do
    let newer ← htInsert m.newer node
    inspectRehashing { m with newer := newer }
  | .lookup _ _ => some m
  | .remove _ _ => some m

/-- A call is its way to `rehashing`, `rehashing`, and the rest. -/
theorem call_eq_rehashing (c : Call α) : ∃ rest : HashMap α → Option (HashMap α),
    ∀ m : HashMap α, m.call c = (m.atRehashing c).bind (fun m₀ => m₀.rehashing.bind rest) := by
  cases c with
  | insert node =>
    refine ⟨some, fun m => ?_⟩
    simp only [call, insert, atRehashing, Option.bind_eq_bind, Option.bind_fun_some,
      Option.bind_assoc]
  | lookup hashCode eq =>
    apply Exists.intro
    intro m
    simp only [call, lookup, atRehashing, Option.bind_eq_bind, Option.bind_some, Option.map_bind]
    rfl
  | remove hashCode eq =>
    apply Exists.intro
    intro m
    simp only [call, remove, atRehashing, Option.bind_eq_bind, Option.bind_some, Option.map_bind]
    rfl

theorem atRehashing_spec {m : HashMap α} (h : Inv m) (c : Call α) :
    ∃ m₀, m.atRehashing c = some m₀ ∧ Inv m₀ := by
  cases c with
  | insert node =>
    obtain ⟨t, hins, ht, -⟩ := htInsert_spec h.newer node
    obtain ⟨m₀, hinsp, h₀, -⟩ := inspectRehashing_spec (m := { m with newer := t }) ⟨ht, h.older⟩
    exact ⟨m₀, by simp [atRehashing, hins, hinsp], h₀⟩
  | lookup hashCode eq => exact ⟨m, rfl, h⟩
  | remove hashCode eq => exact ⟨m, rfl, h⟩

/-- The loop of `rehashing`, before its first turn. -/
def rehashStart (m : HashMap α) (older : HashTab α) : Rehash α :=
  { nwork := 0, newer := m.newer, older := older, pos := m.migratePos }

/-- **The cursor of the migration.** In every state between calls the counters
and the places of the nodes are exact and the slots below the cursor empty, and
`ht_make` is asked for a power of two. Whatever call is next, it comes to
`rehashing` once: when the loop looks at a slot, the slot is there; and it ends
with as many nodes moved as it may, or all. -/
theorem migration_cursor_safe (m : HashMap α) (h : Reachable (fun _ _ => True) m) :
    (TabInv m.newer ∧ ∀ o, m.older = some o → TabInv o ∧ Drained o m.migratePos) ∧
    ((htMake 4 : Option (HashTab α)).isSome = true ∧
      (htMake ((m.newer.mask + 1) * 2) : Option (HashTab α)).isSome = true) ∧
    ∀ c, (∃ rest : HashMap α → Option (HashMap α), ∀ m' : HashMap α,
        m'.call c = (m'.atRehashing c).bind (fun m₀ => m₀.rehashing.bind rest)) ∧
      ∃ m₀, m.atRehashing c = some m₀ ∧ ∀ o, m₀.older = some o →
        (∀ r, ReflTransGen Rehash.Turn (m₀.rehashStart o) r → r.Going → r.pos ≤ r.older.mask) ∧
        ∃ r l, ReflTransGen Rehash.Turn (m₀.rehashStart o) r ∧ ¬ r.Going ∧
          rehashingLoop 0 m₀.newer o m₀.migratePos = some (r.newer, r.older, r.pos) ∧
          l.length = min kRehashingWork o.size ∧ o.nodes.Perm (l ++ r.older.nodes) ∧
          r.newer.nodes.Perm (l ++ m₀.newer.nodes) := by
  have hinv := h.inv
  refine ⟨⟨hinv.newer, hinv.older⟩, ⟨rfl, ?_⟩, ?_⟩
  · obtain ⟨k, hk⟩ := hinv.newer.pow
    obtain ⟨t, ht, -⟩ := htMake_pow (α := α) (k + 1)
    rw [hk, show 2 ^ (k + 2) * 2 = 2 ^ (k + 1 + 2) from by ring, ht]
    rfl
  · intro c
    obtain ⟨m₀, hm₀, h₀⟩ := atRehashing_spec hinv c
    refine ⟨call_eq_rehashing c, m₀, hm₀, ?_⟩
    intro o ho
    obtain ⟨hto, hdo⟩ := h₀.older o ho
    have hstart : (m₀.rehashStart o).Inv := ⟨h₀.newer, hto, hdo⟩
    constructor
    · intro r hr hgo
      exact (hstart.leads_turns hr).inv.cursor_le hgo
    · obtain ⟨r, hr, hstop⟩ := hstart.ends
      have hleads := hstart.leads_turns hr
      obtain ⟨l, hlen, hold, hnew⟩ := hleads.moved
      refine ⟨r, l, hr, hstop, (Rehash.loop_turns hr).trans (Rehash.loop_done hstop), ?_, hold, hnew⟩
      have hlen : 0 + l.length = r.nwork := hlen
      have hwork : r.nwork ≤ max 0 kRehashingWork := hleads.work
      have hleft : r.older.size + r.nwork = o.size + 0 := hleads.left
      rw [Rehash.Going, not_and_or] at hstop
      omega

/-- In the middle of a migration, a lookup moves the 128 nodes that are left. -/
theorem migration_cursor_safe_lookup : ∃ m o r l, fill 256 = some m ∧ m.older = some o ∧
    rehashingLoop 0 m.newer o m.migratePos = some (r.newer, r.older, r.pos) ∧
    ReflTransGen Rehash.Turn (m.rehashStart o) r ∧ l.length = 128 ∧
    o.nodes.Perm (l ++ r.older.nodes) := by
  obtain ⟨m, hfill, hr, hshape⟩ := fill_256
  obtain ⟨o, ho, hwide⟩ := Option.map_eq_some_iff.mp (congrArg Shape.older hshape)
  have hsize : o.size = 128 := (Prod.ext_iff.mp hwide).2
  obtain ⟨-, m₀, hm₀, hloop⟩ :=
    (migration_cursor_safe m hr.weaken).2.2 (.lookup 0 (fun p => p == 0))
  cases hm₀
  obtain ⟨-, r, l, hturns, -, hrun, hlen, hold, -⟩ := hloop o ho
  refine ⟨m, o, r, l, hfill, ho, hrun, hturns, ?_, hold⟩
  rw [hlen, hsize]
  rfl

end HashMap

end ByoRedis
