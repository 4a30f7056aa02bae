import Mathlib

/-!
# Container — the progressive-rehashing hash map

`container/hash_table.{h,cc}`. A chain of `HashNode`s is a list, in the order
in which `next` links it; an incoming pointer `HashNode **from` is the slot
and the position in the chain it refers to.

Every operation that the C++ could run into undefined behaviour with (an
index past the slots of a table, a failed `assert`) answers `none` there, so
"never goes wrong" is a statement about these definitions and not a
convention. The counters `mask`, `size` and `migrate_pos` count slots and
nodes that are in memory, so they are plain naturals.
-/

namespace ByoRedis

/-- `struct HashNode`: `ptr` is the payload the node is embedded into. -/
structure HashNode (α : Type) where
  ptr : α
  hashCode : Nat
deriving DecidableEq

/-- `struct HashTab`: `mask + 1` slots, one chain a slot. -/
structure HashTab (α : Type) where
  mask : Nat
  size : Nat
  tab : List (List (HashNode α))
deriving DecidableEq

/-- `HashNode **from`: the link that owns the node at place `idx` of the
chain of `slot` (the slot itself for `idx = 0`, else the `next` field of the
node before it). -/
structure From where
  slot : Nat
  idx : Nat
deriving DecidableEq

variable {α : Type}

/-! ## One table -/

/-- `ht_make`, with its assertion that `n` is a power of two. -/
def htMake (n : Nat) : Option (HashTab α) :=
  if 0 < n ∧ (n - 1) &&& n = 0 then
    some { mask := n - 1, size := 0, tab := List.replicate n [] }
  else none

/-- `ht_insert`: push at the front of the chain of the node's slot. -/
def htInsert (ht : HashTab α) (node : HashNode α) : Option (HashTab α) :=
  let pos := node.hashCode &&& ht.mask
  match ht.tab[pos]? with
  | none => none
  | some next => some { ht with tab := ht.tab.set pos (node :: next), size := ht.size + 1 }

/-- `ht_lookup`: the link that owns the first node of the key's chain with
the key's hash code for which the callback `eq(_, key)` holds. -/
def htLookup (ht : HashTab α) (hashCode : Nat) (eq : α → Bool) : Option (Option From) :=
  let pos := hashCode &&& ht.mask
  match ht.tab[pos]? with
  | none => none
  | some chain =>
    some ((chain.findIdx? (fun cur => cur.hashCode == hashCode && eq cur.ptr)).map
      (fun i => { slot := pos, idx := i }))

/-- `*from`: the node that the link owns. -/
def htDeref (ht : HashTab α) (fr : From) : Option (HashNode α) :=
  match ht.tab[fr.slot]? with
  | none => none
  | some chain => chain[fr.idx]?

/-- `ht_detach`: unlink the node that `from` refers to. -/
def htDetach (ht : HashTab α) (fr : From) : Option (HashNode α × HashTab α) :=
  match ht.tab[fr.slot]? with
  | none => none
  | some chain =>
    match chain[fr.idx]? with
    | none => none
    | some node =>
      some (node, { ht with tab := ht.tab.set fr.slot (chain.eraseIdx fr.idx),
                            size := ht.size - 1 })

/-- The inner loop of `ht_foreach`: one chain, until the callback says no. -/
def chainForeach {β : Type} (f : β → α → β × Bool) : List (HashNode α) → β → β × Bool
  | [], arg => (arg, true)
  | node :: rest, arg =>
    match f arg node.ptr with
    | (arg', false) => (arg', false)
    | (arg', true) => chainForeach f rest arg'

/-- The outer loop of `ht_foreach`, over the slots that are left. -/
def slotsForeach {β : Type} (f : β → α → β × Bool) :
    List (List (HashNode α)) → β → β × Bool
  | [], arg => (arg, true)
  | chain :: rest, arg =>
    match chainForeach f chain arg with
    | (arg', false) => (arg', false)
    | (arg', true) => slotsForeach f rest arg'

/-- `ht_foreach`; a table of one slot (`mask == 0`) is not walked at all. -/
def htForeach {β : Type} (ht : HashTab α) (f : β → α → β × Bool) (arg : β) : β × Bool :=
  if ht.mask = 0 then (arg, true) else slotsForeach f ht.tab arg

/-! ## The map -/

/-- `k_rehashing_work`. -/
def kRehashingWork : Nat := 128

/-- `k_max_load_factor`. -/
def kMaxLoadFactor : Nat := 8

/-- `class HashMap`. -/
structure HashMap (α : Type) where
  newer : HashTab α
  older : Option (HashTab α) := none
  migratePos : Nat := 0
deriving DecidableEq

namespace HashMap

/-- `HashMap::HashMap`. -/
def new : Option (HashMap α) :=
  match htMake 4 with
  | none => none
  | some t => some { newer := t }

/-- `HashMap::size`. -/
def size (m : HashMap α) : Nat :=
  m.newer.size + (match m.older with | some o => o.size | none => 0)

end HashMap

theorem htDetach_tab_length {ht ht' : HashTab α} {fr : From} {n : HashNode α}
    (h : htDetach ht fr = some (n, ht')) : ht'.tab.length = ht.tab.length := by
  unfold htDetach at h
  split at h
  · cases h
  · split at h
    · cases h
    · cases h
      simp

/-- The loop of `HashMap::rehashing`, on the two tables and the cursor. The
skip over an empty slot is not counted as work; reading a slot past the end
of the older table is the `none` branch. -/
def rehashingLoop (nwork : Nat) (newer older : HashTab α) (migratePos : Nat) :
    Option (HashTab α × HashTab α × Nat) :=
  if nwork < kRehashingWork ∧ 0 < older.size then
    match hs : older.tab[migratePos]? with
    | none => none
    | some [] => rehashingLoop nwork newer older (migratePos + 1)
    | some (_ :: _) =>
      match _hd : htDetach older { slot := migratePos, idx := 0 } with
      | none => none
      | some (node, older') =>
        match htInsert newer node with
        | none => none
        | some newer' => rehashingLoop (nwork + 1) newer' older' migratePos
  else some (newer, older, migratePos)
termination_by (kRehashingWork - nwork) + (older.tab.length - migratePos)
decreasing_by
  · have := (List.getElem?_eq_some_iff.mp hs).1
    omega
  · rw [htDetach_tab_length _hd]
    omega

namespace HashMap

/-- `HashMap::rehashing`. -/
def rehashing (m : HashMap α) : Option (HashMap α) :=
  match m.older with
  | none => some m
  | some older =>
    match rehashingLoop 0 m.newer older m.migratePos with
    | none => none
    | some (newer, older, pos) =>
      -- discard the old table if done
      if older.size = 0 then some { newer := newer, older := none, migratePos := 0 }
      else some { newer := newer, older := some older, migratePos := pos }

/-- `HashMap::inspect_rehashing`: start a migration on overload. -/
def inspectRehashing (m : HashMap α) : Option (HashMap α) :=
  match m.older with
  | some _ => some m
  | none =>
    if (m.newer.mask + 1) * kMaxLoadFactor ≤ m.newer.size then
      match htMake ((m.newer.mask + 1) * 2) with
      | none => none
      | some t => some { newer := t, older := some m.newer, migratePos := 0 }
    else some m

/-- `HashMap::insert`. -/
def insert (m : HashMap α) (node : HashNode α) : Option (HashMap α) := do
  let newer ← htInsert m.newer node
  let m ← inspectRehashing { m with newer := newer }
  m.rehashing

/-- `HashMap::lookup`: the map after the migration work, and the node. -/
def lookup (m : HashMap α) (hashCode : Nat) (eq : α → Bool) :
    Option (HashMap α × Option (HashNode α)) := do
  let m ← m.rehashing
  match ← htLookup m.newer hashCode eq with
  | some fr =>
    let node ← htDeref m.newer fr
    some (m, some node)
  | none =>
    match m.older with
    | none => some (m, none)
    | some older =>
      match ← htLookup older hashCode eq with
      | some fr =>
        let node ← htDeref older fr
        some (m, some node)
      | none => some (m, none)

/-- `HashMap::remove`. -/
def remove (m : HashMap α) (hashCode : Nat) (eq : α → Bool) :
    Option (HashMap α × Option (HashNode α)) := do
  let m ← m.rehashing
  match ← htLookup m.newer hashCode eq with
  | some fr =>
    let (node, newer) ← htDetach m.newer fr
    some ({ m with newer := newer }, some node)
  | none =>
    match m.older with
    | none => some (m, none)
    | some older =>
      match ← htLookup older hashCode eq with
      | some fr =>
        let (node, older) ← htDetach older fr
        some ({ m with older := some older }, some node)
      | none => some (m, none)

/-- `HashMap::foreach`; the answer of the first `ht_foreach` is not looked at. -/
def foreach {β : Type} (m : HashMap α) (f : β → α → β × Bool) (arg : β) : β :=
  let arg := (htForeach m.newer f arg).1
  match m.older with
  | none => arg
  | some older => (htForeach older f arg).1

end HashMap

end ByoRedis
