import ByoRedis.Lib.CNumber
import ByoRedis.Container.Heap
import ByoRedis.Container.ThreadPool
import ByoRedis.Container.Zset
import ByoRedis.Server.Conn

/-!
# Server — the keyspace and its commands

The part of `g_data` that commands work on: the hash map `db` of entries, the
heap of TTL timers and the thread pool, whose tasks are entries to destroy, with
the memory the `Entry` objects live in. A command gets the value that `get_monotonic_msec`
answers in it as an argument (no command reads the clock twice).

`none` is undefined behaviour (an index out of range, a deleted object
deleted again), a failed `assert` or a loop that does not end.
-/

namespace ByoRedis

open CNumber

/-- The types of an entry. -/
inductive EntryType where
  | init
  | str
  | zset
deriving DecidableEq

/-- `struct Entry`; `hashCode` is `node.hash_code`, and the field `heap_idx`
is the cell that the heap entry's `ref_pos` points to. -/
structure Entry where
  hashCode : Nat := 0
  key : Bytes := []
  type : EntryType := .init
  str : Bytes := []
  zset : ZSet

/-- `g_data` without the connections. `entry` and `live` are the memory of
the entries, `next` the next address that `new` gives out. `handed` is a
record of the entries handed over for destruction, which no function reads. -/
structure Db where
  db : HashMap Ptr
  heap : HeapMem Nat
  heapSize : Nat := 0
  entry : Ptr → Entry
  live : Ptr → Bool := fun _ => false
  next : Ptr := 0
  pool : TheadPool Ptr
  handed : List Ptr := []

/-- `g_data` before the first event, on a machine that runs `cores` threads at the
same time. -/
def Db.new (cores : Nat) : Option Db := do
  let db ← HashMap.new
  let zset ← ZSet.new
  some { db := db
         heap := { h := fun _ => { refPos := 0, val := 0 }, refs := fun _ => none }
         entry := fun _ => { zset := zset }
         pool := TheadPool.new (TheadPool.numWorkers cores 0) }

/-! ## TTL timers -/

/-- `std::greater<uint64_t>`. -/
def greater (a b : Nat) : Bool := decide (b < a)

/-- `heap_remove`. -/
def heapRemove (g : Db) (pos : Nat) : Option Db :=
  if g.heapSize = 0 then none
  else some { g with heap := heapPop greater g.heap g.heapSize pos, heapSize := g.heapSize - 1 }

/-- `h.push_back(t); heap_push(...)`. -/
def heapAdd (g : Db) (t : HeapEntry Nat) : Db :=
  { g with
    heap := heapPush greater { g.heap with h := Function.update g.heap.h g.heapSize t }
      (g.heapSize + 1)
    heapSize := g.heapSize + 1 }

/-- `heap_upsert`: a position that is no index of the heap means a new item. -/
def heapUpsert (g : Db) (t : HeapEntry Nat) : Db :=
  match g.heap.refs t.refPos with
  | none => heapAdd g t
  | some pos =>
    if pos < g.heapSize then
      { g with
        heap := heapFix greater { g.heap with h := Function.update g.heap.h pos t } g.heapSize pos }
    else heapAdd g t

/-- `ent->heap_idx = -1;` -/
def clearHeapIdx (g : Db) (ent : Ptr) : Db :=
  { g with heap := { g.heap with refs := Function.update g.heap.refs ent none } }

/-- `entry_set_ttl`; only a ttl that is not negative reads the clock. -/
def entrySetTtl (now : Nat) (g : Db) (ent : Ptr) (ttlMs : Int) : Option Db :=
  if ttlMs < 0 then
    match g.heap.refs ent with
    | none => some g
    | some pos => do
      let g ← heapRemove g pos
      some (clearHeapIdx g ent)
  else some (heapUpsert g { refPos := ent, val := (now + ttlMs.toNat) % 2 ^ 64 })

/-! ## Entries -/

/-- `entry_new`. -/
def entryNew (g : Db) (type : EntryType) : Option (Db × Ptr) := do
  let zset ← ZSet.new
  some ({ g with
      entry := Function.update g.entry g.next { type := type, zset := zset }
      heap := { g.heap with refs := Function.update g.heap.refs g.next none }
      live := Function.update g.live g.next true
      next := g.next + 1 }, g.next)

/-- `entry_del_sync`. -/
def entryDelSync (g : Db) (ent : Ptr) : Option Db :=
  if g.live ent then do
    if (g.entry ent).type = .zset then
      let _ ← zsetClear (g.entry ent).zset
      some { g with live := Function.update g.live ent false }
    else some { g with live := Function.update g.live ent false }
  else none

/-- `k_large_container_size`. -/
def kLargeContainerSize : Nat := 1000

/-- `entry_del`: a large set is destroyed by the thread pool. -/
def entryDel (g : Db) (ent : Ptr) : Option Db := do
  -- unlink it from the heap; this reads no clock
  let g ← entrySetTtl 0 g ent (-1)
  let setSize := if (g.entry ent).type = .zset then (g.entry ent).zset.hmap.size else 0
  let g := { g with handed := g.handed ++ [ent] }
  if kLargeContainerSize < setSize then
    match g.pool.enqueue ent with
    | (pool, .accepted _) => some { g with pool := pool }
    | _ => none -- thrown
  else entryDelSync g ent

/-- `entry_del_func`, and what a worker of the thread pool does around it: it pops a
task, or runs the one it has popped, as other workers do at the same time. It may
also have nothing to do. -/
def workerStep (g : Db) (worker : Nat) : Option Db :=
  match g.pool.step (.wake worker) with
  | some (pool, _) => some { g with pool := pool }
  | none =>
    match g.pool.step (.run worker) with
    | some (pool, .ran _ task) => entryDelSync { g with pool := pool } task.func
    | _ => some g

/-! ## Commands on strings and TTLs -/

/-- `entry_eq`. -/
def entryEq (g : Db) (key : Bytes) (p : Ptr) : Bool := decide ((g.entry p).key = key)

/-- `g_data.db.lookup` with a `LookupKey`. -/
def dbLookup (g : Db) (key : Bytes) : Option (Db × Option Ptr) := do
  let (db, node) ← g.db.lookup (strHash key) (entryEq g key)
  some ({ g with db := db }, node.map HashNode.ptr)

/-- A new entry under a key, linked into `db`. -/
def dbInsertNew (g : Db) (type : EntryType) (key str : Bytes) : Option (Db × Ptr) := do
  let (g, ent) ← entryNew g type
  let e := { g.entry ent with key := key, hashCode := strHash key, str := str }
  let g := { g with entry := Function.update g.entry ent e }
  let db ← g.db.insert { ptr := ent, hashCode := (g.entry ent).hashCode }
  some ({ g with db := db }, ent)

/-- `write_frame(code, msg)`. -/
def writeErr (out : Buffer) (code : ErrCode) (msg : String) : Buffer :=
  out.writeFrameError code.code (lit msg)

/-- `do_get`. -/
def doGet (g : Db) (key : Bytes) (out : Buffer) : Option (Db × Buffer) := do
  match ← dbLookup g key with
  | (g, none) => some (g, out.writeFrameNil)
  | (g, some ent) =>
    if (g.entry ent).type ≠ .str then some (g, writeErr out .badTyp "not a string value")
    else some (g, out.writeFrameString (g.entry ent).str)

/-- `do_set`. -/
def doSet (g : Db) (key val : Bytes) (out : Buffer) : Option (Db × Buffer) := do
  match ← dbLookup g key with
  | (g, some ent) =>
    -- found, update the value
    if (g.entry ent).type ≠ .str then some (g, writeErr out .badTyp "a non-string value exists")
    else
      some ({ g with entry := Function.update g.entry ent { g.entry ent with str := val } },
        out.writeFrameNil)
  | (g, none) =>
    let (g, _) ← dbInsertNew g .str key val
    some (g, out.writeFrameNil)

/-- `do_del`. -/
def doDel (g : Db) (key : Bytes) (out : Buffer) : Option (Db × Buffer) := do
  match ← g.db.remove (strHash key) (entryEq g key) with
  | (db, none) => some ({ g with db := db }, out.writeFrameInt64 0)
  | (db, some node) =>
    let g ← entryDel { g with db := db } node.ptr
    some (g, out.writeFrameInt64 1)

/-- `str2int`: the value of a string that is a number to its end. -/
def str2int (s : Bytes) : Option Int :=
  if (strtoll s).2 = s.length then some (strtoll s).1 else none

/-- `str2dbl`. -/
def str2dbl (s : Bytes) : Option Double :=
  if (strtod s).2 = s.length ∧ (strtod s).1.isnan = false then some (strtod s).1 else none

/-- `do_expire`. -/
def doExpire (now : Nat) (g : Db) (key ttl : Bytes) (out : Buffer) : Option (Db × Buffer) :=
  match str2int ttl with
  | none => some (g, writeErr out .badArg "expect int64")
  | some ttlMs => do
    match ← dbLookup g key with
    | (g, none) => some (g, out.writeFrameInt64 0)
    | (g, some ent) =>
      let g ← entrySetTtl now g ent ttlMs
      some (g, out.writeFrameInt64 1)

/-- `do_ttl`; reading past the heap array is undefined. -/
def doTtl (now : Nat) (g : Db) (key : Bytes) (out : Buffer) : Option (Db × Buffer) := do
  match ← dbLookup g key with
  | (g, none) => some (g, out.writeFrameInt64 (-2)) -- not found
  | (g, some ent) =>
    match g.heap.refs ent with
    | none => some (g, out.writeFrameInt64 (-1)) -- no TTL
    | some pos =>
      if g.heapSize ≤ pos then none
      else some (g, out.writeFrameInt64 (((g.heap.h pos).val - now : Nat) : Int))

/-- `cb_keys`. -/
def cbKeys (g : Db) (out : Buffer) (p : Ptr) : Buffer × Bool :=
  (out.writeFrameString (g.entry p).key, true)

/-- `do_keys`. -/
def doKeys (g : Db) (out : Buffer) : Option (Db × Buffer) :=
  some (g, g.db.foreach (cbKeys g) (out.writeFrameArray g.db.size))

/-! ## Commands on sorted sets -/

/-- `do_zadd`. -/
def doZadd (g : Db) (key score name : Bytes) (out : Buffer) : Option (Db × Buffer) :=
  match str2dbl score with
  | none => some (g, writeErr out .badArg "expect float")
  | some score => do
    let (g, ent) ← do
      match ← dbLookup g key with
      | (g, none) => dbInsertNew g .zset key []
      | (g, some ent) => some (g, ent)
    if (g.entry ent).type ≠ .zset then some (g, writeErr out .badTyp "expect zset")
    else
      let (zset, added) ← zsetInsert (g.entry ent).zset name score
      some ({ g with entry := Function.update g.entry ent { g.entry ent with zset := zset } },
        out.writeFrameInt64 (if added then 1 else 0))

/-- What `expect_zset` answers: a null pointer, `k_empty_zset`, or the set of
an entry. -/
inductive ZsetRef where
  | null
  | empty
  | entry (ent : Ptr)
deriving DecidableEq

/-- `expect_zset`. -/
def expectZset (g : Db) (key : Bytes) : Option (Db × ZsetRef) := do
  match ← dbLookup g key with
  | (g, none) => some (g, .empty)
  | (g, some ent) => some (g, if (g.entry ent).type = .zset then .entry ent else .null)

/-- `*zset`, for a pointer that `expect_zset` answered. -/
def zsetAt (g : Db) : ZsetRef → Option ZSet
  | .null => none
  | .empty => ZSet.new
  | .entry ent => some (g.entry ent).zset

/-- `*zset = z`. `k_empty_zset` is constant: a lookup in it stops at its null
root and writes nothing. -/
def zsetStore (g : Db) (z : ZSet) : ZsetRef → Db
  | .entry ent => { g with entry := Function.update g.entry ent { g.entry ent with zset := z } }
  | _ => g

/-- `do_zrem`. -/
def doZrem (g : Db) (key name : Bytes) (out : Buffer) : Option (Db × Buffer) := do
  let (g, ref) ← expectZset g key
  if ref = .null then some (g, writeErr out .badTyp "expect zset")
  else
    let zset ← zsetAt g ref
    match ← zsetLookup zset name with
    | (zset, none) => some (zsetStore g zset ref, out.writeFrameInt64 0)
    | (zset, some znode) =>
      let zset ← zsetDelete zset znode
      some (zsetStore g zset ref, out.writeFrameInt64 1)

/-- `do_zscore`. -/
def doZscore (g : Db) (key name : Bytes) (out : Buffer) : Option (Db × Buffer) := do
  let (g, ref) ← expectZset g key
  if ref = .null then some (g, writeErr out .badTyp "expect zset")
  else
    let zset ← zsetAt g ref
    match ← zsetLookup zset name with
    | (zset, none) => some (zsetStore g zset ref, out.writeFrameNil)
    | (zset, some znode) =>
      some (zsetStore g zset ref, out.writeFrameDouble (zset.node znode).score)

/-- The output loop of `do_zquery`: the buffer and the number of elements. -/
def zqueryLoop (z : ZSet) (limit : Nat) (znode : Option Ptr) (n : Nat) (out : Buffer) :
    Option (Buffer × Nat) :=
  match znode with
  | none => some (out, n)
  | some p =>
    if n < limit then do
      let out := out.writeFrameString (z.node p).name
      let out := out.writeFrameDouble (z.node p).score
      let znode ← znodeOffset z (some p) 1
      zqueryLoop z limit znode (n + 2) out
    else some (out, n)
termination_by limit - n

/-- `do_zquery`. -/
def doZquery (g : Db) (key score name offset limit : Bytes) (out : Buffer) :
    Option (Db × Buffer) :=
  match str2dbl score with
  | none => some (g, writeErr out .badArg "expect fp number")
  | some score =>
    match str2int offset, str2int limit with
    | some offset, some limit => do
      let (g, ref) ← expectZset g key
      if ref = .null then some (g, writeErr out .badTyp "expect zset")
      else if limit ≤ 0 then some (g, out.writeFrameArray 0)
      else
        let zset ← zsetAt g ref
        -- seek to the key
        let znode ← zsetSeekge zset score name
        let znode ← znodeOffset zset znode offset
        -- output
        let (out, ctx) := out.writeFrameArrayBegin
        let (out, n) ← zqueryLoop zset limit.toNat znode 0 out
        let out ← out.writeFrameArrayEnd ctx n
        some (g, out)
    | _, _ => some (g, writeErr out .badArg "expect int")

/-! ## Dispatch and expiry -/

/-- `do_request`. -/
def doRequest (now : Nat) (g : Db) (cmd : List Bytes) (out : Buffer) : Option (Db × Buffer) :=
  let unknown := some (g, writeErr out .unknown "unknown command.")
  match cmd with
  | [name] => if name = lit "keys" then doKeys g out else unknown
  | [name, a] =>
    if name = lit "get" then doGet g a out
    else if name = lit "del" then doDel g a out
    else if name = lit "pttl" then doTtl now g a out
    else unknown
  | [name, a, b] =>
    if name = lit "set" then doSet g a b out
    else if name = lit "pexpire" then doExpire now g a b out
    else if name = lit "zrem" then doZrem g a b out
    else if name = lit "zscore" then doZscore g a b out
    else unknown
  | [name, a, b, c] => if name = lit "zadd" then doZadd g a b c out else unknown
  | [name, a, b, c, d, e] => if name = lit "zquery" then doZquery g a b c d e out else unknown
  | _ => unknown

/-- `hnode_same`. -/
def hnodeSame (key p : Ptr) : Bool := decide (p = key)

/-- `k_max_works`. -/
def kMaxWorks : Nat := 2000

/-- The TTL loop of `process_timers`, after `nworks` deletions. -/
def expireLoop (now : Nat) (nworks : Nat) (g : Db) : Option Db :=
  if 0 < g.heapSize ∧ (g.heap.h 0).val < now then
    let ent := (g.heap.h 0).refPos
    match g.db.remove (g.entry ent).hashCode (hnodeSame ent) with
    | none => none
    | some (_, none) => none
    | some (db, some node) =>
      -- assert(node == &ent->node)
      if node.ptr ≠ ent then none
      else
        match entryDel { g with db := db } ent with
        | none => none
        | some g =>
          -- don't stall the server if too many keys are expiring at once
          if kMaxWorks ≤ nworks then some g else expireLoop now (nworks + 1) g
  else some g
termination_by kMaxWorks - nworks

/-- The part of `process_timers` that is about TTLs. -/
def processTtls (now : Nat) (g : Db) : Option Db := expireLoop now 0 g

end ByoRedis
