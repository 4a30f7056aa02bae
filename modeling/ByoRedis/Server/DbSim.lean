import ByoRedis.Server.DbInv

/-!
# Server — every command means what the map says

One lemma per command: in a state that shows a map, the command answers, its
reply is the map's and the next state shows the next map. Then the dispatch,
and the expiry loop.
-/

namespace ByoRedis

/-- The addition of `uint64_t`. -/
def addU64 (a b : Nat) : Nat := (a + b) % 2 ^ 64

/-- The run of a command answers as the map does, behind whatever is in its
buffer. -/
def Answered (now : Nat) (s : Store) (c : Command) (run : Buffer → Option (Db × Buffer)) : Prop :=
  ∃ g' S' r s', (∀ out, run out = some (g', out ++ r.encode)) ∧
    RefCommand addU64 now s c r s' ∧ g'.Abs S' s'

variable {g : Db} {S : Finset Ptr} {s : Store} {now : Nat}

/-! ## Strings and TTLs -/

theorem doGet_answered (h : g.Abs S s) (key : Bytes) :
    Answered now s (.get key) (doGet g key) := by
  obtain ⟨db, r, hl, h', hr⟩ := dbLookup_spec h key
  cases r with
  | none =>
    refine ⟨_, S, .one .nil, s, by simp [doGet, hl, Reply.encode], ⟨rfl, ?_⟩, h'⟩
    rw [hr]
  | some p =>
    obtain ⟨hp, rfl⟩ := hr
    obtain ⟨v, hv, hc⟩ := h.item p hp
    cases v with
    | str x =>
      refine ⟨_, S, .one (.str x), s, by simp [doGet, hl, hc.1, hc.2, Reply.encode], ⟨rfl, ?_⟩, h'⟩
      rw [hv]
    | zset x =>
      refine ⟨_, S, .one (.err .badTyp "not a string value"), s,
        by simp [doGet, hl, hc.1, Reply.encode, writeErr], ⟨rfl, ?_⟩, h'⟩
      rw [hv]

theorem doSet_answered (h : g.Abs S s) (key val : Bytes) :
    Answered now s (.set key val) (doSet g key val) := by
  obtain ⟨db, r, hl, h', hr⟩ := dbLookup_spec h key
  cases r with
  | none =>
    obtain ⟨g', hins, hg', -, -⟩ := dbInsertNew_spec h' hr .str (by decide) val
    refine ⟨g', _, .one .nil, _, by simp [doSet, hl, hins, Reply.encode], ?_, hg'⟩
    simp [RefCommand, hr, freshVal]
  | some p =>
    obtain ⟨hp, rfl⟩ := hr
    obtain ⟨v, hv, hc⟩ := h.item p hp
    cases v with
    | str x =>
      have hset := h'.set_entry hp (e := { g.entry p with str := val }) (v := .str val) rfl rfl
        ⟨hc.1, rfl⟩
      refine ⟨_, S, .one .nil, _, by simp [doSet, hl, hc.1, Reply.encode], ?_, hset⟩
      simp [RefCommand, hv]
    | zset x =>
      refine ⟨_, S, .one (.err .badTyp "a non-string value exists"), s,
        by simp [doSet, hl, hc.1, Reply.encode, writeErr], ?_, h'⟩
      simp [RefCommand, hv]

theorem doDel_answered (h : g.Abs S s) (key : Bytes) :
    Answered now s (.del key) (doDel g key) := by
  obtain ⟨db, r, hrm, hf, hh⟩ := h.inv.index.remove key
  have hrm' : g.db.remove (strHash key) (entryEq g key) = some (db, r) := hrm
  cases r with
  | none =>
    have hnone : s.lookup key = none := by
      apply h.lookup_none.mpr
      intro p hp hk
      have := (hf p).mpr ⟨hp, hk⟩
      cases this
    have hno : key ∉ s := Finmap.lookup_eq_none.mp hnone
    refine ⟨_, S, .one (.int 0), s, by simp [doDel, hrm', Reply.encode], ⟨?_, ?_⟩, h.with_db hh⟩
    · rw [if_neg hno]
    · apply Finmap.ext_lookup
      intro k
      by_cases hk : k = key
      · rw [hk, Finmap.lookup_erase, hnone]
      · rw [Finmap.lookup_erase_ne hk]
  | some n =>
    obtain ⟨hp, hk⟩ := (hf n.ptr).mp rfl
    obtain ⟨g', hdel, hg', -⟩ := entryDel_spec h hp hh
    have hk : (g.entry n.ptr).key = key := hk
    have hmem : key ∈ s := by
      obtain ⟨v, hv, -⟩ := h.item n.ptr hp
      rw [hk] at hv
      exact Finmap.mem_of_lookup_eq_some hv
    rw [hk] at hg'
    refine ⟨g', _, .one (.int 1), _, by simp [doDel, hrm', hdel, Reply.encode], ⟨?_, rfl⟩, hg'⟩
    rw [if_pos hmem]

theorem doExpire_answered (h : g.Abs S s) (key ttl : Bytes) :
    Answered now s (.pexpire key ttl) (doExpire now g key ttl) := by
  cases ht : str2int ttl with
  | none =>
    refine ⟨g, S, .one (.err .badArg "expect int64"), s,
      by simp [doExpire, ht, Reply.encode, writeErr], ?_, h⟩
    simp [RefCommand, ht]
  | some t =>
    obtain ⟨db, r, hl, h', hr⟩ := dbLookup_spec h key
    cases r with
    | none =>
      refine ⟨_, S, .one (.int 0), s, by simp [doExpire, ht, hl, Reply.encode], ?_, h'⟩
      simp [RefCommand, ht, hr]
    | some p =>
      obtain ⟨hp, rfl⟩ := hr
      obtain ⟨v, hv, -⟩ := h.item p hp
      obtain ⟨m, len, hset, hT, hself, hother⟩ := entrySetTtl_spec h'.inv.timers hp now t
      refine ⟨_, S, .one (.int 1), _, by simp [doExpire, ht, hl, hset, Reply.encode], ?_,
        h'.set_ttl hp hT hself hother hv⟩
      simp [RefCommand, ht, hv, addU64]

theorem doTtl_answered (h : g.Abs S s) (key : Bytes) :
    Answered now s (.pttl key) (doTtl now g key) := by
  obtain ⟨db, r, hl, h', hr⟩ := dbLookup_spec h key
  cases r with
  | none =>
    refine ⟨_, S, .one (.int (-2)), s, by simp [doTtl, hl, Reply.encode], ⟨?_, rfl⟩, h'⟩
    rw [hr]
    rfl
  | some p =>
    obtain ⟨hp, rfl⟩ := hr
    obtain ⟨v, hv, -⟩ := h.item p hp
    cases href : g.heap.refs p with
    | none =>
      have hd : deadline g.heap p = none := by rw [deadline, href]; rfl
      refine ⟨_, S, .one (.int (-1)), s, by simp [doTtl, hl, href, Reply.encode], ⟨?_, rfl⟩, h'⟩
      rw [hv, hd]
      rfl
    | some pos =>
      have hlt := (h.inv.timers.indexed p hp pos href).1
      have hd : deadline g.heap p = some (g.heap.h pos).val := by rw [deadline, href]; rfl
      refine ⟨_, S, .one (.int (((g.heap.h pos).val - now : Nat) : Int)), s,
        by simp [doTtl, hl, href, Nat.not_le.mpr hlt, Reply.encode], ⟨?_, rfl⟩, h'⟩
      rw [hv, hd]
      rfl

/-- The keys are written one after the other. -/
theorem foldl_cbKeys (g : Db) (ps : List Ptr) (out : Buffer) :
    ps.foldl (fun out p => out.writeFrameString (g.entry p).key) out =
      out ++ encodeAll (ps.map (fun p => .str (g.entry p).key)) := by
  induction ps generalizing out with
  | nil => simp [encodeAll]
  | cons p ps ih =>
    rw [List.foldl_cons, ih, writeFrameString_eq]
    simp [encodeAll]

theorem doKeys_answered (h : g.Abs S s) : Answered now s .keys (doKeys g) := by
  let ps := g.db.nodes.map HashNode.ptr
  have hmem : ∀ p, p ∈ ps ↔ p ∈ S := by
    intro p
    rw [← h.inv.index.content, List.mem_toFinset]
  have hlen : g.db.size = ps.length := by
    rw [h.inv.index.inv.size_eq]
    simp [ps]
  refine ⟨g, S, .arr ((ps.map (fun p => (g.entry p).key)).map .str), s, ?_, ⟨rfl, _, rfl, ?_, ?_⟩, h⟩
  · intro out
    have hfold := HashMap.foreach_fold h.inv.index.inv
      (fun out p => out.writeFrameString (g.entry p).key) (out.writeFrameArray g.db.size)
    have hcb : cbKeys g = fun out p => (out.writeFrameString (g.entry p).key, true) := rfl
    rw [doKeys, hcb, hfold, foldl_cbKeys, writeFrameArray_eq, hlen]
    simp [Reply.encode, ps, Function.comp_def]
  · rw [List.nodup_map_iff_inj_on h.inv.index.nodup]
    intro a ha b hb hab
    exact h.inv.key_inj ((hmem a).mp ha) ((hmem b).mp hb) hab
  · intro key
    constructor
    · intro hkey
      obtain ⟨p, hp, rfl⟩ := List.mem_map.mp hkey
      obtain ⟨v, hv, -⟩ := h.item p ((hmem p).mp hp)
      exact Finmap.mem_of_lookup_eq_some hv
    · intro hkey
      obtain ⟨p, hp, rfl⟩ := h.keys key hkey
      exact List.mem_map.mpr ⟨p, (hmem p).mpr hp, rfl⟩

/-! ## Sorted sets -/

theorem Store.insert_same {key : Bytes} {item : Item} (h : s.lookup key = some item) :
    s.insert key item = s := by
  apply Finmap.ext_lookup
  intro k
  by_cases hk : k = key
  · rw [hk, Finmap.lookup_insert, h]
  · rw [Finmap.lookup_insert_of_ne _ hk]

theorem str2dbl_number {x : Bytes} {d : Double} (h : str2dbl x = some d) : d.isnan = false := by
  unfold str2dbl at h
  split at h
  · rename_i hc
    cases h
    exact hc.2
  · cases h

theorem Members.isNone_lookup (m : Members) (name : Bytes) :
    (if (m.lookup name).isNone = true then (1 : Int) else 0) = if name ∈ m then 0 else 1 := by
  by_cases hmem : name ∈ m
  · obtain ⟨x, hx⟩ := Finmap.mem_iff.mp hmem
    simp [hx, hmem]
  · simp [Finmap.lookup_eq_none.mpr hmem, hmem]

theorem doZadd_answered (h : g.Abs S s) (key score name : Bytes) :
    Answered now s (.zadd key score name) (doZadd g key score name) := by
  cases hx : str2dbl score with
  | none =>
    refine ⟨g, S, .one (.err .badArg "expect float"), s,
      by simp [doZadd, hx, Reply.encode, writeErr], ?_, h⟩
    simp [RefCommand, hx]
  | some x =>
    have hnum := str2dbl_number hx
    obtain ⟨db, r, hl, h', hr⟩ := dbLookup_spec h key
    cases r with
    | none =>
      obtain ⟨g', hins, hg', hk, hty⟩ := dbInsertNew_spec h' hr .zset (by decide) []
      have hp : g.next ∈ insert g.next S := Finset.mem_insert_self _ _
      obtain ⟨v, hv, hc⟩ := hg'.item g.next hp
      rw [hk, Finmap.lookup_insert] at hv
      simp only [Option.some.injEq, Item.mk.injEq] at hv
      obtain ⟨rfl, hd⟩ := hv
      obtain ⟨z', hzi, hz'⟩ := zsetInsert_shows hc.2 hnum name
      have hset := hg'.set_entry hp (e := { g'.entry g.next with zset := z' })
        (v := .zset (Members.add ∅ name x)) rfl rfl ⟨hty, hz'⟩
      rw [hk, ← hd, Finmap.insert_insert] at hset
      refine ⟨_, _, .one (.int 1), _, ?_, ?_, hset⟩
      · simp [doZadd, hx, hl, hins, hty, hzi, Reply.encode]
      · simp [RefCommand, hx, hr, Members.add]
    | some p =>
      obtain ⟨hp, rfl⟩ := hr
      obtain ⟨v, hv, hc⟩ := h.item p hp
      cases v with
      | str y =>
        refine ⟨_, S, .one (.err .badTyp "expect zset"), s,
          by simp [doZadd, hx, hl, hc.1, Reply.encode, writeErr], ?_, h'⟩
        simp [RefCommand, hx, hv]
      | zset m =>
        obtain ⟨z', hzi, hz'⟩ := zsetInsert_shows hc.2 hnum name
        have hset := h'.set_entry hp (e := { g.entry p with zset := z' })
          (v := .zset (m.add name x)) rfl rfl ⟨hc.1, hz'⟩
        refine ⟨_, S, .one (.int (if name ∈ m then 0 else 1)), _, ?_, ?_, hset⟩
        · simp [doZadd, hx, hl, hc.1, hzi, Reply.encode, ← Members.isNone_lookup]
        · simp [RefCommand, hx, hv]

/-- What `expect_zset` finds. -/
theorem expectZset_spec (h : g.Abs S s) (key : Bytes) :
    ∃ db ref, expectZset g key = some ({ g with db := db }, ref) ∧
      Db.Abs { g with db := db } S s ∧
      (match ref with
        | .null => ∃ x d, s.lookup key = some ⟨.str x, d⟩
        | .empty => s.lookup key = none
        | .entry p => p ∈ S ∧ (g.entry p).key = key ∧ (g.entry p).type = .zset ∧
            ∃ m, s.lookup key = some ⟨.zset m, deadline g.heap p⟩ ∧ (g.entry p).zset.Shows m) := by
  obtain ⟨db, r, hl, h', hr⟩ := dbLookup_spec h key
  cases r with
  | none => exact ⟨db, .empty, by simp [expectZset, hl], h', hr⟩
  | some p =>
    obtain ⟨hp, rfl⟩ := hr
    obtain ⟨v, hv, hc⟩ := h.item p hp
    cases v with
    | str x => exact ⟨db, .null, by simp [expectZset, hl, hc.1], h', x, _, hv⟩
    | zset m => exact ⟨db, .entry p, by simp [expectZset, hl, hc.1], h', hp, rfl, hc.1, m, hv, hc.2⟩

/-- A set that shows the map of an entry takes the place of the entry's. -/
theorem zsetStore_abs {p : Ptr} (h : g.Abs S s) (hp : p ∈ S) (hty : (g.entry p).type = .zset)
    {z : ZSet} {m : Members} (hz : z.Shows m) :
    (zsetStore g z (.entry p)).Abs S (s.insert (g.entry p).key ⟨.zset m, deadline g.heap p⟩) :=
  h.set_entry hp (e := { g.entry p with zset := z }) (v := .zset m) rfl rfl ⟨hty, hz⟩

/-- A lookup in the constant empty set. -/
theorem zsetLookup_empty {z : ZSet} (hz : z.Shows ∅) (name : Bytes) :
    ∃ z', zsetLookup z name = some (z', none) := by
  obtain ⟨z', r, hrun, -, hsc, -⟩ := zsetLookup_shows hz name
  cases r with
  | none => exact ⟨z', hrun⟩
  | some p =>
    rw [Finmap.lookup_empty] at hsc
    cases hsc

theorem doZrem_answered (h : g.Abs S s) (key name : Bytes) :
    Answered now s (.zrem key name) (doZrem g key name) := by
  obtain ⟨db, ref, hl, h', href⟩ := expectZset_spec h key
  cases ref with
  | null =>
    obtain ⟨x, d, hv⟩ := href
    refine ⟨_, S, .one (.err .badTyp "expect zset"), s,
      by simp [doZrem, hl, Reply.encode, writeErr], ?_, h'⟩
    simp [RefCommand, hv]
  | empty =>
    obtain ⟨z, hz, hzs⟩ := ZSet.new_shows
    obtain ⟨z', hrun⟩ := zsetLookup_empty hzs name
    refine ⟨_, S, .one (.int 0), s,
      by simp [doZrem, hl, zsetAt, hz, hrun, zsetStore, Reply.encode], ?_, h'⟩
    simp [RefCommand, href]
  | entry p =>
    obtain ⟨hp, rfl, hty, m, hv, hz⟩ := href
    obtain ⟨z', r, hrun, hz', hsc, hfound⟩ := zsetLookup_shows hz name
    cases r with
    | none =>
      have hnone : m.lookup name = none := hsc.symm
      have hno : name ∉ m := Finmap.lookup_eq_none.mp hnone
      have herase : m.erase name = m := by
        apply Finmap.ext_lookup
        intro k
        by_cases hk : k = name
        · rw [hk, Finmap.lookup_erase, hnone]
        · rw [Finmap.lookup_erase_ne hk]
      refine ⟨_, S, .one (.int 0), _, by simp [doZrem, hl, zsetAt, hrun, Reply.encode], ?_,
        zsetStore_abs h' hp hty hz'⟩
      simp [RefCommand, hv, hno, herase]
    | some n =>
      obtain ⟨t, hi, hc, hn, hname⟩ := hfound n rfl
      obtain ⟨z'', hdel, hz''⟩ := zsetDelete_shows hi hc hn
      rw [hname] at hz''
      have hmem : name ∈ m := Finmap.mem_iff.mpr ⟨_, hsc.symm⟩
      refine ⟨_, S, .one (.int 1), _, by simp [doZrem, hl, zsetAt, hrun, hdel, Reply.encode], ?_,
        zsetStore_abs h' hp hty hz''⟩
      simp [RefCommand, hv, hmem]

theorem doZscore_answered (h : g.Abs S s) (key name : Bytes) :
    Answered now s (.zscore key name) (doZscore g key name) := by
  obtain ⟨db, ref, hl, h', href⟩ := expectZset_spec h key
  cases ref with
  | null =>
    obtain ⟨x, d, hv⟩ := href
    refine ⟨_, S, .one (.err .badTyp "expect zset"), s,
      by simp [doZscore, hl, Reply.encode, writeErr], ?_, h'⟩
    simp [RefCommand, hv]
  | empty =>
    obtain ⟨z, hz, hzs⟩ := ZSet.new_shows
    obtain ⟨z', hrun⟩ := zsetLookup_empty hzs name
    refine ⟨_, S, .one .nil, s,
      by simp [doZscore, hl, zsetAt, hz, hrun, zsetStore, Reply.encode], ?_, h'⟩
    simp [RefCommand, href]
  | entry p =>
    obtain ⟨hp, rfl, hty, m, hv, hz⟩ := href
    obtain ⟨z', r, hrun, hz', hsc, -⟩ := zsetLookup_shows hz name
    have hstore := zsetStore_abs h' hp hty hz'
    rw [Store.insert_same hv] at hstore
    cases r with
    | none =>
      have hnone : m.lookup name = none := hsc.symm
      refine ⟨_, S, .one .nil, s, by simp [doZscore, hl, zsetAt, hrun, Reply.encode], ?_, hstore⟩
      simp [RefCommand, hv, hnone]
    | some n =>
      have hsome : m.lookup name = some (z'.node n).score := hsc.symm
      refine ⟨_, S, .one (.dbl (z'.node n).score), s,
        by simp [doZscore, hl, zsetAt, hrun, Reply.encode], ?_, hstore⟩
      simp [RefCommand, hv, hsome]

/-- The output loop of `zquery` writes whole elements and counts them. -/
theorem zqueryLoop_spec {z : ZSet} {t : BinaryTree Ptr} (h : z.Inv t) (limit : Nat) (k : Nat)
    {znode : Option Ptr} (hz : ∀ p, znode = some p → p ∈ AvlTree.inorder t) (n : Nat)
    (hk : limit - n ≤ k) :
    ∃ xs, ∀ out, zqueryLoop z limit znode n out = some (out ++ encodeAll xs, n + xs.length) := by
  induction k generalizing znode n with
  | zero =>
    cases znode with
    | none => exact ⟨[], by simp [zqueryLoop, encodeAll]⟩
    | some p => exact ⟨[], by simp [zqueryLoop, encodeAll, show ¬ n < limit by omega]⟩
  | succ k ih =>
    cases znode with
    | none => exact ⟨[], by simp [zqueryLoop, encodeAll]⟩
    | some p =>
      by_cases hlt : n < limit
      · obtain ⟨next, hnext, hmem⟩ := znodeOffset_spec h hz 1
        obtain ⟨xs, hrun⟩ := ih hmem (n + 2) (by omega)
        refine ⟨.str (z.node p).name :: .dbl (z.node p).score :: xs, ?_⟩
        intro out
        rw [zqueryLoop, if_pos hlt]
        simp only [hnext, Option.bind_eq_bind, Option.bind_some, hrun]
        simp [encodeAll]
        omega
      · exact ⟨[], by simp [zqueryLoop, encodeAll, hlt]⟩

/-- `do_zquery`, once the arguments are parsed and the walk is known. -/
theorem doZquery_walk {g : Db} {key name sc off lim : Bytes} {db : HashMap Ptr} {ref : ZsetRef}
    {z : ZSet} {score : Double} {offset limit : Int} (znode : Option Ptr) (xs : List Scalar)
    (hs : str2dbl sc = some score) (ho : str2int off = some offset) (hl : str2int lim = some limit)
    (href : expectZset g key = some ({ g with db := db }, ref)) (hnull : ref ≠ .null)
    (hz : zsetAt { g with db := db } ref = some z) (hpos : 0 < limit)
    (hseek : (zsetSeekge z score name).bind (fun p => znodeOffset z p offset) = some znode)
    (hloop : ∀ out, zqueryLoop z limit.toNat znode 0 out = some (out ++ encodeAll xs, xs.length))
    (out : Buffer) : doZquery g key sc name off lim out =
      some ({ g with db := db }, out ++ (Reply.arr xs).encode) := by
  obtain ⟨p, hp, hznode⟩ := Option.bind_eq_some_iff.mp hseek
  have hend := writeFrameArrayEnd_eq out xs.length (encodeAll xs)
  have hle : ¬ limit ≤ 0 := by omega
  simp only [doZquery, hs, ho, hl, href, hnull, hle, Option.bind_eq_bind, Option.bind_some,
    if_false, hz, hp, hznode, writeFrameArrayBegin_eq, hloop]
  simp only [List.append_assoc, List.cons_append] at hend ⊢
  simp only [hend, Option.bind_some, Reply.encode]

/-- `do_zquery` answers with an array, in a set of any size. -/
theorem doZquery_array {g : Db} {key sc off lim : Bytes} (name : Bytes) {db : HashMap Ptr}
    {ref : ZsetRef}
    {z : ZSet} {t : BinaryTree Ptr} {score : Double} {offset limit : Int}
    (hs : str2dbl sc = some score) (ho : str2int off = some offset) (hl : str2int lim = some limit)
    (href : expectZset g key = some ({ g with db := db }, ref)) (hnull : ref ≠ .null)
    (hz : zsetAt { g with db := db } ref = some z) (hi : z.Inv t) :
    ∃ xs, ∀ out, doZquery g key sc name off lim out =
      some ({ g with db := db }, out ++ (Reply.arr xs).encode) := by
  by_cases hle : limit ≤ 0
  · refine ⟨[], ?_⟩
    simp [doZquery, hs, ho, hl, href, hnull, hle, Reply.encode, encodeAll]
  · obtain ⟨seek, hseek, hsmem⟩ : ∃ seek, zsetSeekge z score name = some seek ∧
        ∀ q, seek = some q → q ∈ AvlTree.inorder t :=
      ⟨_, zsetSeekge_spec hi score name, fun q hq => List.mem_of_find?_eq_some hq⟩
    obtain ⟨first, hfirst, hfmem⟩ := znodeOffset_spec hi hsmem offset
    obtain ⟨xs, hrun⟩ := zqueryLoop_spec hi limit.toNat _ hfmem 0 (le_refl _)
    refine ⟨xs, doZquery_walk first xs hs ho hl href hnull hz (by omega) ?_ ?_⟩
    · rw [hseek]
      exact hfirst
    · intro out
      rw [hrun, Nat.zero_add]

theorem doZquery_answered (h : g.Abs S s) (key score name offset limit : Bytes) :
    Answered now s (.zquery key score name offset limit)
      (doZquery g key score name offset limit) := by
  cases hx : str2dbl score with
  | none =>
    refine ⟨g, S, .one (.err .badArg "expect fp number"), s,
      by simp [doZquery, hx, Reply.encode, writeErr], ?_, h⟩
    simp [RefCommand, hx]
  | some x =>
    cases ho : str2int offset with
    | none =>
      refine ⟨g, S, .one (.err .badArg "expect int"), s,
        by simp [doZquery, hx, ho, Reply.encode, writeErr], ?_, h⟩
      simp [RefCommand, hx, ho]
    | some off =>
      cases hlim : str2int limit with
      | none =>
        refine ⟨g, S, .one (.err .badArg "expect int"), s,
          by simp [doZquery, hx, ho, hlim, Reply.encode, writeErr], ?_, h⟩
        simp [RefCommand, hx, ho, hlim]
      | some lim =>
        obtain ⟨db, ref, hl, h', href⟩ := expectZset_spec h key
        by_cases hnull : ref = .null
        · subst hnull
          obtain ⟨y, d, hv⟩ := href
          refine ⟨_, S, .one (.err .badTyp "expect zset"), s,
            by simp [doZquery, hx, ho, hlim, hl, Reply.encode, writeErr], ?_, h'⟩
          simp [RefCommand, hx, ho, hlim, hv]
        · -- a set, of the entry or the empty one
          have hset : ∃ z m, zsetAt { g with db := db } ref = some z ∧ z.Shows m := by
            cases ref with
            | null => exact absurd rfl hnull
            | empty =>
              obtain ⟨z, hz, hzs⟩ := ZSet.new_shows
              exact ⟨z, ∅, hz, hzs⟩
            | entry p => exact ⟨_, href.2.2.2.choose, rfl, href.2.2.2.choose_spec.2⟩
          have hany : ∀ xs,
              RefCommand addU64 now s (.zquery key score name offset limit) (.arr xs) s := by
            intro xs
            cases ref with
            | null => exact absurd rfl hnull
            | empty => simp [RefCommand, hx, ho, hlim, (href : s.lookup key = none)]
            | entry p =>
              obtain ⟨-, -, -, m, hv, -⟩ := href
              simp [RefCommand, hx, ho, hlim, hv]
          obtain ⟨z, m, hz, t, hi, -⟩ := hset
          obtain ⟨xs, hrun⟩ := doZquery_array name hx ho hlim hl hnull hz hi
          exact ⟨_, S, .arr xs, s, hrun, hany _, h'⟩

/-! ## Dispatch -/

theorem Answered.of_eq {c : Command} {run run' : Buffer → Option (Db × Buffer)}
    (h : Answered now s c run) (he : ∀ out, run' out = run out) : Answered now s c run' := by
  obtain ⟨g', S', r, s', hrun, href, habs⟩ := h
  exact ⟨g', S', r, s', fun out => (he out).trans (hrun out), href, habs⟩

/-- **`do_request`** answers every request as the map does. -/
theorem doRequest_answered (h : g.Abs S s) (now : Nat) (cmd : List Bytes) :
    Answered now s (Command.ofRequest cmd) (doRequest now g cmd) := by
  have hunknown : Answered now s .unknown
      (fun out => some (g, writeErr out .unknown "unknown command.")) :=
    ⟨g, S, .one (.err .unknown "unknown command."), s, by simp [writeErr, Reply.encode],
      ⟨rfl, rfl⟩, h⟩
  -- one case for each number of arguments, up to the seven that no command takes
  rcases cmd with _ | ⟨name, _ | ⟨a, _ | ⟨b, _ | ⟨c, _ | ⟨d, _ | ⟨e, _ | ⟨_, _⟩⟩⟩⟩⟩⟩⟩
  · exact hunknown
  · simp only [Command.ofRequest]
    split_ifs with h1
    · exact (doKeys_answered h).of_eq (fun _ => by simp only [doRequest, if_pos h1])
    · exact hunknown.of_eq (fun _ => by simp only [doRequest, if_neg h1])
  · simp only [Command.ofRequest]
    split_ifs with h1 h2 h3
    · exact (doGet_answered h a).of_eq (fun _ => by simp only [doRequest, if_pos h1])
    · exact (doDel_answered h a).of_eq (fun _ => by simp only [doRequest, if_neg h1, if_pos h2])
    · exact (doTtl_answered h a).of_eq (fun _ => by
      simp only [doRequest, if_neg h1, if_neg h2, if_pos h3])
    · exact hunknown.of_eq (fun _ => by simp only [doRequest, if_neg h1, if_neg h2, if_neg h3])
  · simp only [Command.ofRequest]
    split_ifs with h1 h2 h3 h4
    · exact (doSet_answered h a b).of_eq (fun _ => by simp only [doRequest, if_pos h1])
    · exact (doExpire_answered h a b).of_eq (fun _ => by
      simp only [doRequest, if_neg h1, if_pos h2])
    · exact (doZrem_answered h a b).of_eq (fun _ => by
      simp only [doRequest, if_neg h1, if_neg h2, if_pos h3])
    · exact (doZscore_answered h a b).of_eq (fun _ => by
      simp only [doRequest, if_neg h1, if_neg h2, if_neg h3, if_pos h4])
    · exact hunknown.of_eq (fun _ => by
      simp only [doRequest, if_neg h1, if_neg h2, if_neg h3, if_neg h4])
  · simp only [Command.ofRequest]
    split_ifs with h1
    · exact (doZadd_answered h a b c).of_eq (fun _ => by simp only [doRequest, if_pos h1])
    · exact hunknown.of_eq (fun _ => by simp only [doRequest, if_neg h1])
  · exact hunknown
  · simp only [Command.ofRequest]
    split_ifs with h1
    · exact (doZquery_answered h a b c d e).of_eq (fun _ => by simp only [doRequest, if_pos h1])
    · exact hunknown.of_eq (fun _ => by simp only [doRequest, if_neg h1])
  · exact hunknown

/-- A `set` of a key that is not there. -/
theorem doRequest_set_new (h : g.Abs S s) (now : Nat) (key val : Bytes)
    (hkey : s.lookup key = none) :
    ∃ g' S', (∀ out, doRequest now g [lit "set", key, val] out = some (g', out ++ Scalar.nil.encode)) ∧
      g'.Abs S' (s.insert key ⟨.str val, none⟩) := by
  obtain ⟨g', S', r, s', hrun, href, h'⟩ := doRequest_answered h now [lit "set", key, val]
  have hset : Command.ofRequest [lit "set", key, val] = .set key val := by
    simp only [Command.ofRequest, if_true]
  rw [hset] at href
  simp only [RefCommand, hkey] at href
  obtain ⟨rfl, rfl⟩ := href
  exact ⟨g', S', hrun, h'⟩

/-- A `pexpire` of a key that is there, with a TTL that `str2int` accepts. -/
theorem doRequest_pexpire_present (h : g.Abs S s) (now : Nat) (key : Bytes) {ttl : Bytes}
    {item : Item} {t : Int} (hkey : s.lookup key = some item) (ht : str2int ttl = some t) :
    ∃ g' S', (∀ out, doRequest now g [lit "pexpire", key, ttl] out =
        some (g', out ++ (Scalar.int 1).encode)) ∧
      g'.Abs S' (s.insert key
        { item with deadline := if t < 0 then none else some (addU64 now t.toNat) }) := by
  obtain ⟨g', S', r, s', hrun, href, h'⟩ := doRequest_answered h now [lit "pexpire", key, ttl]
  have hexp : Command.ofRequest [lit "pexpire", key, ttl] = .pexpire key ttl := by
    simp only [Command.ofRequest, if_neg (show lit "pexpire" ≠ lit "set" by decide), if_true]
  rw [hexp] at href
  simp only [RefCommand, hkey, ht] at href
  obtain ⟨rfl, rfl⟩ := href
  exact ⟨g', S', hrun, h'⟩

/-! ## Expiry -/

theorem Store.mem_due {key : Bytes} :
    key ∈ s.due now ↔ ∃ v d, s.lookup key = some ⟨v, some d⟩ ∧ d < now := by
  unfold Store.due
  rw [Finset.mem_filter, Finmap.mem_keys]
  constructor
  · rintro ⟨-, ⟨v, dl⟩, hitem, d, hd, hlt⟩
    have hd : dl = some d := hd
    exact ⟨v, d, by rw [← hd]; exact hitem, hlt⟩
  · rintro ⟨v, d, hl, hlt⟩
    exact ⟨Finmap.mem_of_lookup_eq_some hl, ⟨v, some d⟩, hl, d, rfl, hlt⟩

/-- Nothing is due: nothing expires. -/
theorem Expires.refl_of_due_empty {limit : Nat} (h : s.due now = ∅) : Expires limit now s s :=
  ⟨∅, by simp, by simp [h], by simp, by simp⟩

/-- The limit is reached: nothing expires. -/
theorem Expires.refl_zero : Expires 0 now s s := ⟨∅, by simp, by simp, by simp, by simp⟩

/-- Nothing is due: the map stays as it is. -/
theorem Expires.eq_of_due_empty {limit : Nat} {s' : Store} (h : Expires limit now s s')
    (hdue : s.due now = ∅) : s' = s := by
  obtain ⟨D, hD, -, hlook, -⟩ := h
  rw [hdue, Finset.subset_empty] at hD
  apply Finmap.ext_lookup
  intro key
  rw [hlook key, hD, if_neg (Finset.notMem_empty key)]

theorem Store.due_zero (s : Store) : s.due 0 = ∅ := by
  apply Finset.eq_empty_of_forall_notMem
  intro key hkey
  obtain ⟨v, d, -, hd⟩ := Store.mem_due.mp hkey
  exact absurd hd (Nat.not_lt_zero d)

/-- The only key is due. -/
theorem Store.due_only {key : Bytes} {v : Val} {d : Nat} {s : Store}
    (hkey : s.lookup key = some ⟨v, some d⟩) (hdue : d < now) (honly : ∀ key' ∈ s, key' = key) :
    s.due now = {key} := by
  ext key'
  rw [Finset.mem_singleton, Store.mem_due]
  constructor
  · rintro ⟨v', d', hv', -⟩
    exact honly key' (Finmap.mem_iff.mpr ⟨_, hv'⟩)
  · rintro rfl
    exact ⟨v, d, hkey, hdue⟩

/-- A key that expires first, and then the others. -/
theorem Expires.cons {limit : Nat} {s' : Store} {key : Bytes} {v : Val} {d : Nat}
    (hkey : s.lookup key = some ⟨v, some d⟩) (hdue : d < now)
    (hmin : ∀ key' item d', s.lookup key' = some item → item.deadline = some d' → d ≤ d')
    (h : Expires limit now (s.erase key) s') : Expires (limit + 1) now s s' := by
  obtain ⟨D, hD, hcard, hlook, hord⟩ := h
  have hmem : key ∈ s.due now := Store.mem_due.mpr ⟨v, d, hkey, hdue⟩
  have hdueErase : Store.due (s.erase key) now = (s.due now).erase key := by
    ext k
    rw [Finset.mem_erase, Store.mem_due, Store.mem_due]
    by_cases hk : k = key
    · subst hk
      simp
    · simp [hk, Finmap.lookup_erase_ne hk]
  rw [hdueErase] at hD hcard
  have hnot : key ∉ D := fun hin => Finset.notMem_erase key _ (hD hin)
  refine ⟨insert key D, ?_, ?_, ?_, ?_⟩
  · intro k hk
    rcases Finset.mem_insert.mp hk with rfl | hk
    · exact hmem
    · exact Finset.mem_of_mem_erase (hD hk)
  · rw [Finset.card_insert_of_notMem hnot, hcard, Finset.card_erase_of_mem hmem]
    have := Finset.card_pos.mpr ⟨key, hmem⟩
    omega
  · intro k
    rw [hlook k]
    by_cases hk : k = key
    · subst hk
      simp
    · simp [hk, Finmap.lookup_erase_ne hk]
  · intro k hk item e hl hd' k' item' e' hl' hde'
    have hl'' : s.lookup k' = some item' := by
      have := hlook k'
      rw [hl'] at this
      split at this
      · cases this
      · by_cases hk' : k' = key
        · rw [hk', Finmap.lookup_erase] at this
          cases this
        · rw [Finmap.lookup_erase_ne hk'] at this
          exact this.symm
    rcases Finset.mem_insert.mp hk with rfl | hk
    · rw [hkey] at hl
      cases hl
      cases hd'
      exact hmin k' item' e' hl'' hde'
    · have hne : k ≠ key := fun he => hnot (he ▸ hk)
      exact hord k hk item e (by rw [Finmap.lookup_erase_ne hne]; exact hl) hd' k' item' e' hl' hde'

/-- The first item of the heap is the earliest deadline of the map. -/
theorem Db.Abs.root_earliest (h : g.Abs S s) (hlen : 0 < g.heapSize) :
    (g.heap.h 0).refPos ∈ S ∧ (∃ v, s.lookup (g.entry (g.heap.h 0).refPos).key =
        some ⟨v, some (g.heap.h 0).val⟩) ∧
      ∀ key item d, s.lookup key = some item → item.deadline = some d → (g.heap.h 0).val ≤ d := by
  have hown := h.inv.timers.owned 0 hlen
  refine ⟨hown, ?_, ?_⟩
  · obtain ⟨v, hv, -⟩ := h.item _ hown
    have hd : deadline g.heap (g.heap.h 0).refPos = some (g.heap.h 0).val := by
      rw [deadline, h.inv.timers.positioned 0 hlen]
      rfl
    rw [hd] at hv
    exact ⟨v, hv⟩
  · intro key item d hl hd
    obtain ⟨p, hp, rfl⟩ := h.keys key (Finmap.mem_of_lookup_eq_some hl)
    obtain ⟨v, hv, -⟩ := h.item p hp
    rw [hl] at hv
    cases hv
    obtain ⟨i, hi, hval⟩ := Option.map_eq_some_iff.mp
      (show Option.map _ (g.heap.refs p) = some d from hd)
    rw [← hval]
    exact h.inv.timers.root_le (h.inv.timers.indexed p hp i hi).1

/-- Without a due item at the root nothing is due. -/
theorem Db.Abs.due_empty (h : g.Abs S s) (hroot : ¬ (0 < g.heapSize ∧ (g.heap.h 0).val < now)) :
    s.due now = ∅ := by
  apply Finset.eq_empty_of_forall_notMem
  intro key hkey
  obtain ⟨v, d, hl, hlt⟩ := Store.mem_due.mp hkey
  obtain ⟨p, hp, rfl⟩ := h.keys key (Finmap.mem_of_lookup_eq_some hl)
  obtain ⟨v', hv, -⟩ := h.item p hp
  rw [hl] at hv
  simp only [Option.some.injEq, Item.mk.injEq] at hv
  obtain ⟨i, hi, -⟩ := Option.map_eq_some_iff.mp
    (show Option.map _ (g.heap.refs p) = some d from hv.2.symm)
  have hlen : 0 < g.heapSize := by
    have := (h.inv.timers.indexed p hp i hi).1
    omega
  have hle := (h.root_earliest hlen).2.2 _ _ d hl rfl
  exact hroot ⟨hlen, by omega⟩

/-- **The expiry loop** passes its assertion and removes due keys, earliest
first, up to its limit. -/
theorem expireLoop_spec (k nworks : Nat) (hk : kMaxWorks - nworks = k)
    (hn : nworks ≤ kMaxWorks) (h : g.Abs S s) :
    ∃ g' S' s', expireLoop now nworks g = some g' ∧ g'.Abs S' s' ∧
      Expires (kMaxWorks - nworks + 1) now s s' := by
  induction k generalizing nworks g S s with
  | zero =>
    rw [expireLoop]
    by_cases hroot : 0 < g.heapSize ∧ (g.heap.h 0).val < now
    · obtain ⟨hown, ⟨v, hv⟩, hmin⟩ := h.root_earliest hroot.1
      obtain ⟨db, n, hrm, hnp, hh⟩ := h.inv.index.remove_only
        (hnodeSame (g.heap.h 0).refPos) hown (fun b _ => by simp [hnodeSame])
      rw [show strHash (g.keyOf (g.heap.h 0).refPos) = (g.entry (g.heap.h 0).refPos).hashCode from
        (h.inv.hashed _ hown).symm] at hrm
      obtain ⟨g', hdel, hg', -⟩ := entryDel_spec h hown hh
      refine ⟨g', _, _, ?_, hg', ?_⟩
      · rw [if_pos hroot]
        simp only [hrm, hnp, ne_eq, not_true, if_false, hdel]
        rw [if_pos (by omega)]
      · rw [show kMaxWorks - nworks + 1 = 0 + 1 by omega]
        exact Expires.cons hv hroot.2 hmin Expires.refl_zero
    · rw [if_neg hroot]
      exact ⟨g, S, s, rfl, h, Expires.refl_of_due_empty (h.due_empty hroot)⟩
  | succ k ih =>
    rw [expireLoop]
    by_cases hroot : 0 < g.heapSize ∧ (g.heap.h 0).val < now
    · obtain ⟨hown, ⟨v, hv⟩, hmin⟩ := h.root_earliest hroot.1
      obtain ⟨db, n, hrm, hnp, hh⟩ := h.inv.index.remove_only
        (hnodeSame (g.heap.h 0).refPos) hown (fun b _ => by simp [hnodeSame])
      rw [show strHash (g.keyOf (g.heap.h 0).refPos) = (g.entry (g.heap.h 0).refPos).hashCode from
        (h.inv.hashed _ hown).symm] at hrm
      obtain ⟨g₁, hdel, hg₁, -⟩ := entryDel_spec h hown hh
      obtain ⟨g', S', s', hrun, hg', hexp⟩ := ih (nworks + 1) (by omega) (by omega) hg₁
      refine ⟨g', S', s', ?_, hg', ?_⟩
      · rw [if_pos hroot]
        simp only [hrm, hnp, ne_eq, not_true, if_false, hdel]
        rw [if_neg (by omega)]
        exact hrun
      · rw [show kMaxWorks - nworks + 1 = (kMaxWorks - (nworks + 1) + 1) + 1 by omega]
        exact Expires.cons hv hroot.2 hmin hexp
    · rw [if_neg hroot]
      exact ⟨g, S, s, rfl, h, Expires.refl_of_due_empty (h.due_empty hroot)⟩

/-- The TTL part of `process_timers`. -/
theorem processTtls_spec (h : g.Abs S s) (now : Nat) :
    ∃ g' S' s', processTtls now g = some g' ∧ g'.Abs S' s' ∧ Expires (kMaxWorks + 1) now s s' :=
  expireLoop_spec kMaxWorks 0 rfl (Nat.zero_le _) h

end ByoRedis
