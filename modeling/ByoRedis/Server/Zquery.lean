import ByoRedis.Server.Response

/-!
# Server — the slice that `zquery` answers

`zquery` seeks the first member at or behind a (score, name) tuple, jumps by an
offset, and walks on from there. The members are followed as a list in the
order of (score, name); ranks in the tree are indexes in that list, as long as
the counters of the tree, which are `uint32_t`, do not wrap. A slice that is too
long for a response is not sent, as any other answer.
-/

namespace ByoRedis

open BinaryTree AvlTree ByteBuf CString

/-! ## What the slice is -/

/-- (score, name) of a member, in their order: the scores as numbers, and then
the names byte by byte. -/
def memberKey (x : Bytes × Double) : ℤ ×ₗ List ℕ := toLex (x.2.key, codes x.1)

/-- The members of a set, in strictly increasing order. -/
structure Ranked (xs : List (Bytes × Double)) (m : Members) : Prop where
  sorted : xs.Pairwise (fun a b => memberKey a < memberKey b)
  mem : ∀ name score, (name, score) ∈ xs ↔ m.lookup name = some score

/-- The members that `zquery` answers: from `offset` ranks behind the first one
that is not below the tuple, and one for every two of `limit`, rounded up. -/
def zslice (xs : List (Bytes × Double)) (score : Double) (name : Bytes) (offset limit : Int) :
    List (Bytes × Double) :=
  if limit ≤ 0 then []
  else
    match xs.findIdx? (fun x => decide (memberKey (name, score) ≤ memberKey x)) with
    | none => []
    | some i =>
      if 0 ≤ i + offset ∧ i + offset < xs.length then
        (xs.drop (i + offset).toNat).take ((limit + 1) / 2).toNat
      else []

/-- The elements of the answer: names and scores in turn. -/
def elements (xs : List (Bytes × Double)) : List Scalar :=
  xs.flatMap (fun x => [.str x.1, .dbl x.2])

theorem length_elements (xs : List (Bytes × Double)) : (elements xs).length = 2 * xs.length := by
  induction xs with
  | nil => rfl
  | cons x xs ih =>
    rw [elements, List.flatMap_cons, List.length_append, ← elements, ih, List.length_cons]
    simp only [List.length_cons, List.length_nil]
    omega

/-- The count of an array that fits in a response does not wrap. -/
theorem length_lt_of_fits {xs : List Scalar} (h : (Reply.arr xs).encode.length ≤ kMaxMsg) :
    xs.length < 2 ^ 32 := by
  have hmax : kMaxMsg = 33554432 := rfl
  have hlen := length_le_encodeAll xs
  rw [Reply.encode, List.length_cons, List.length_append, length_le] at h
  omega

/-- The set at a key, which is empty where there is no key. -/
def Store.setAt (s : Store) (key : Bytes) : Option Members :=
  match s.lookup key with
  | none => some ∅
  | some ⟨.zset m, _⟩ => some m
  | some ⟨.str _, _⟩ => none

/-! ## The members of a tree -/

/-- Name and score of the node at an address. -/
def ZSet.member (z : ZSet) (p : Ptr) : Bytes × Double := ((z.node p).name, (z.node p).score)

variable {z : ZSet} {t : BinaryTree Ptr} {m : Members} {score : Double} {name : Bytes} {p : Ptr}

theorem ZSet.Inv.ranked (h : z.Inv t) (hc : z.Carries t m) :
    Ranked ((inorder t).map z.member) m := by
  constructor
  · rw [List.pairwise_map]
    exact h.sorted
  · intro name score
    rw [hc name score, List.mem_map]
    constructor
    · rintro ⟨p, hp, he⟩
      exact ⟨p, hp, congrArg Prod.fst he, congrArg Prod.snd he⟩
    · rintro ⟨p, hp, rfl, rfl⟩
      exact ⟨p, hp, rfl⟩

theorem findIdx?_congr {α : Type} {f f' : α → Bool} {xs : List α} (h : ∀ x ∈ xs, f x = f' x) :
    xs.findIdx? f = xs.findIdx? f' := by
  induction xs with
  | nil => rfl
  | cons x xs ih =>
    rw [List.findIdx?_cons, List.findIdx?_cons, h x List.mem_cons_self,
      ih (fun y hy => h y (List.mem_cons_of_mem x hy))]

/-- **`zset_seekge`**, by ranks: the first member that is not below the tuple. -/
theorem zsetSeekge_rank (h : z.Inv t) (hs : score.isnan = false) (name : Bytes) :
    zsetSeekge z score name = some
      ((((inorder t).map z.member).findIdx? (fun x =>
        decide (memberKey (name, score) ≤ memberKey x))).bind (fun i => (inorder t)[i]?)) := by
  have hsame : ∀ p ∈ inorder t, (!zlessTuple (z.node p) score name) =
      decide (memberKey (name, score) ≤ memberKey (z.member p)) := by
    intro p hp
    have hiff : zlessTuple (z.node p) score name = true ↔
        (z.node p).key < memberKey (name, score) := zlessTuple_iff (h.number p hp) hs
    rw [Bool.eq_iff_iff, decide_eq_true_iff, Bool.not_eq_true', ← Bool.not_eq_true, hiff]
    exact not_lt
  rw [zsetSeekge_spec h, List.find?_eq_bind_findIdx?_getElem?, List.findIdx?_map,
    findIdx?_congr hsame]
  rfl

/-- The walk of `zquery` from the member of rank `j` on. -/
theorem zqueryLoop_rank (h : z.Inv t) (hsize : (inorder t).length < 2 ^ 32) (limit j n : Nat)
    (out : Buffer) :
    zqueryLoop z limit (inorder t)[j]? n out =
      let xs := elements ((((inorder t).map z.member).drop j).take ((limit - n + 1) / 2))
      some (out ++ encodeAll xs, n + xs.length) := by
  induction hk : limit - n using Nat.strong_induction_on generalizing j n out with
  | _ k ih =>
    subst hk
    by_cases hj : j < (inorder t).length
    · have hget : (inorder t)[j]? = some (inorder t)[j] := List.getElem?_eq_getElem hj
      rw [hget, zqueryLoop]
      by_cases hlt : n < limit
      · have hnext : znodeOffset z (some (inorder t)[j]) 1 = some (inorder t)[j + 1]? :=
          znodeOffset_rank h hsize hget 1
        have hdrop : ((inorder t).map z.member).drop j =
            z.member (inorder t)[j] :: ((inorder t).map z.member).drop (j + 1) := by
          rw [List.drop_eq_getElem_cons (by rw [List.length_map]; exact hj), List.getElem_map]
        have hhalf : (limit - n + 1) / 2 = (limit - (n + 2) + 1) / 2 + 1 := by omega
        rw [if_pos hlt, hnext]
        simp only [Option.bind_eq_bind, Option.bind_some]
        rw [ih _ (by omega) (j + 1) (n + 2) _ rfl, hdrop, hhalf, List.take_succ_cons]
        simp [elements, encodeAll, ZSet.member]
        omega
      · rw [if_neg hlt, Nat.sub_eq_zero_of_le (by omega)]
        simp [elements, encodeAll]
    · have hlen : ((inorder t).map z.member).length ≤ j := by
        rw [List.length_map]
        omega
      rw [List.getElem?_eq_none (by omega), List.drop_eq_nil_of_le hlen, zqueryLoop]
      simp [elements, encodeAll]

/-! ## The command -/

variable {g : Db} {S : Finset Ptr} {st : Store} {key : Bytes}

/-- `expect_zset` where there is no value of another type. -/
theorem expectZset_set (h : g.Abs S st) (hm : st.setAt key = some m) :
    ∃ db ref z t, expectZset g key = some ({ g with db := db }, ref) ∧ ref ≠ .null ∧
      zsetAt { g with db := db } ref = some z ∧ z.Inv t ∧ z.Carries t m ∧
      Db.Abs { g with db := db } S st := by
  obtain ⟨db, ref, hl, h', href⟩ := expectZset_spec h key
  cases ref with
  | null =>
    obtain ⟨y, d, hv⟩ := href
    rw [Store.setAt, hv] at hm
    cases hm
  | empty =>
    have hnone : st.lookup key = none := href
    rw [Store.setAt, hnone] at hm
    cases hm
    obtain ⟨z, hz, t, hi, hc⟩ := ZSet.new_shows
    exact ⟨db, .empty, z, t, hl, by simp, hz, hi, hc, h'⟩
  | entry p =>
    obtain ⟨-, -, -, m', hv, t, hi, hc⟩ := href
    rw [Store.setAt, hv] at hm
    cases hm
    exact ⟨db, .entry p, (g.entry p).zset, t, hl, by simp, rfl, hi, hc, h'⟩

/-- `do_zquery` answers the slice, in a set of fewer than `2^32` members. -/
theorem doZquery_slice {db : HashMap Ptr} {ref : ZsetRef} {sc off lim : Bytes} {offset limit : Int}
    (hs : str2dbl sc = some score) (ho : str2int off = some offset) (hl : str2int lim = some limit)
    (href : expectZset g key = some ({ g with db := db }, ref)) (hnull : ref ≠ .null)
    (hz : zsetAt { g with db := db } ref = some z) (h : z.Inv t)
    (hsize : (inorder t).length < 2 ^ 32) (out : Buffer) :
    doZquery g key sc name off lim out = some ({ g with db := db }, out ++
      (Reply.arr (elements (zslice ((inorder t).map z.member) score name offset limit))).encode) := by
  by_cases hpos : 0 < limit
  · rw [zslice, if_neg (by omega)]
    have hseek := zsetSeekge_rank h (str2dbl_number hs) name
    have hlen : ((inorder t).map z.member).length = (inorder t).length := List.length_map _
    have hnone : ∀ out, zqueryLoop z limit.toNat none 0 out =
        some (out ++ encodeAll (elements []), (elements []).length) := by
      intro out
      rw [zqueryLoop]
      simp [elements, encodeAll]
    cases hfind : ((inorder t).map z.member).findIdx?
        (fun x => decide (memberKey (name, score) ≤ memberKey x)) with
    | none =>
      rw [hfind] at hseek
      refine doZquery_walk none _ hs ho hl href hnull hz hpos ?_ hnone out
      rw [hseek]
      rfl
    | some i =>
      have hi : i < (inorder t).length := by
        rw [← hlen]
        exact (List.findIdx?_eq_some_iff_getElem.mp hfind).1
      have hget := List.getElem?_eq_getElem hi
      have hjump : (zsetSeekge z score name).bind (fun p => znodeOffset z p offset) =
          some (atRank (inorder t) (i + offset)) := by
        rw [hseek, hfind, Option.bind_some, Option.bind_some, hget]
        exact znodeOffset_rank h hsize hget offset
      simp only [hlen]
      by_cases hin : 0 ≤ i + offset ∧ i + offset < (inorder t).length
      · rw [atRank, if_pos hin.1] at hjump
        rw [if_pos hin]
        refine doZquery_walk _ _ hs ho hl href hnull hz hpos hjump ?_ out
        intro out
        have hhalf : ((limit + 1) / 2).toNat = (limit.toNat - 0 + 1) / 2 := by omega
        rw [hhalf, zqueryLoop_rank h hsize]
        simp only [Nat.zero_add]
      · rw [atRank_of_out (by omega)] at hjump
        rw [if_neg hin]
        exact doZquery_walk none _ hs ho hl href hnull hz hpos hjump hnone out
  · rw [zslice, if_pos (by omega)]
    have hle : limit ≤ 0 := by omega
    simp [doZquery, hs, ho, hl, href, hnull, hle, Reply.encode, encodeAll, elements]

theorem doRequest_zquery (now : Nat) (g : Db) (key sc name off lim : Bytes) (out : Buffer) :
    doRequest now g [lit "zquery", key, sc, name, off, lim] out =
      doZquery g key sc name off lim out := by
  simp [doRequest]

/-- What `do_zquery` answers where there is no value of another type. -/
theorem doRequest_slice (h : g.Abs S st) (hm : st.setAt key = some m) :
    ∃ g', g'.Abs S st ∧ ∃ xs, Ranked xs m ∧
      ∀ sc off lim name score offset limit, str2dbl sc = some score → str2int off = some offset →
        str2int lim = some limit → ∃ r : Reply,
        (∀ now out, doRequest now g [lit "zquery", key, sc, name, off, lim] out =
          some (g', out ++ r.encode)) ∧
        (xs.length < 2 ^ 32 → r = .arr (elements (zslice xs score name offset limit))) := by
  obtain ⟨db, ref, z, t, href, hnull, hz, hi, hc, h'⟩ := expectZset_set h hm
  refine ⟨{ g with db := db }, h', _, hi.ranked hc, ?_⟩
  rw [List.length_map]
  intro sc off lim name score offset limit hs ho hl
  by_cases hsize : (inorder t).length < 2 ^ 32
  · refine ⟨_, ?_, fun _ => rfl⟩
    intro now out
    rw [doRequest_zquery]
    exact doZquery_slice hs ho hl href hnull hz hi hsize out
  · obtain ⟨xs, hrun⟩ := doZquery_array name hs ho hl href hnull hz hi
    refine ⟨.arr xs, ?_, fun hlt => absurd hlt hsize⟩
    intro now out
    rw [doRequest_zquery]
    exact hrun out

/-- What `do_zquery` answers where there is one. -/
theorem doRequest_zquery_other (h : g.Abs S st) (hm : st.setAt key = none) :
    ∃ g', g'.Abs S st ∧ ∀ sc off lim name score offset limit, str2dbl sc = some score →
      str2int off = some offset → str2int lim = some limit → ∀ now out,
      doRequest now g [lit "zquery", key, sc, name, off, lim] out =
        some (g', out ++ (Reply.one (.err .badTyp "expect zset")).encode) := by
  obtain ⟨db, ref, href, h', hspec⟩ := expectZset_spec h key
  refine ⟨{ g with db := db }, h', ?_⟩
  have hnull : ref = .null := by
    cases ref with
    | null => rfl
    | empty =>
      have hnone : st.lookup key = none := hspec
      rw [Store.setAt, hnone] at hm
      cases hm
    | entry p =>
      obtain ⟨-, -, -, m, hv, -⟩ := hspec
      rw [Store.setAt, hv] at hm
      cases hm
  intro sc off lim name score offset limit hs ho hl now out
  rw [doRequest_zquery]
  simp [doZquery, hs, ho, hl, href, hnull, Reply.encode, writeErr]

/-- **`zquery` answers the right slice.** Every reachable state shows a map. For
all arguments that parse, the response for a key with a value of another type is an
error, and else the members of the set, of which there is none where there is no
key, have an order; if they are fewer than `2^32`, the response is the array of names
and scores of the slice, with a count of twice as many, or an error in its place
where that is too long to be sent. The map stays as it is. -/
theorem zquery_slice (g : Db) (hg : g.Reachable) (now : Nat) (key sc name off lim : Bytes)
    (hfits : (enc [lit "zquery", key, sc, name, off, lim]).length ≤ kMaxMsg)
    (score : Double) (offset limit : Int) (hs : str2dbl sc = some score)
    (ho : str2int off = some offset) (hl : str2int lim = some limit) :
    (∃ S st, g.Abs S st) ∧ ∀ S st, g.Abs S st → ∃ g' r, g'.Abs S st ∧
      Responds now g [lit "zquery", key, sc, name, off, lim] g' r ∧
      match st.setAt key with
      | none => r = .one (.err .badTyp "expect zset")
      | some m => ∃ xs, Ranked xs m ∧ (xs.length < 2 ^ 32 →
          let slice := zslice xs score name offset limit
          let array := Reply.arr (elements slice)
          kMaxMsg < array.encode.length ∧ r = .one tooBig ∨
            array.encode.length ≤ kMaxMsg ∧ r = array ∧
              (elements slice).length = 2 * slice.length ∧ 2 * slice.length < 2 ^ 32) := by
  obtain ⟨st₀, S₀, h₀⟩ := hg.abs
  refine ⟨⟨S₀, st₀, h₀⟩, ?_⟩
  intro S st h
  have hargs : 6 ≤ kMaxArgs := by decide
  cases hm : st.setAt key with
  | none =>
    obtain ⟨g', h', hrun⟩ := doRequest_zquery_other h hm
    refine ⟨g', _, h', responds_of_run hargs hfits
      (hrun sc off lim name score offset limit hs ho hl now), ?_⟩
    rw [Reply.limited, if_neg (by decide)]
  | some m =>
    obtain ⟨g', h', xs, hx, hans⟩ := doRequest_slice h hm
    obtain ⟨r, hrun, hr⟩ := hans sc off lim name score offset limit hs ho hl
    refine ⟨g', _, h', responds_of_run hargs hfits (hrun now), xs, hx, ?_⟩
    intro hsize
    rw [hr hsize, Reply.limited]
    split
    · rename_i hbig
      exact .inl ⟨hbig, rfl⟩
    · rename_i hbig
      have hfit := Nat.le_of_not_lt hbig
      refine .inr ⟨hfit, rfl, length_elements _, ?_⟩
      rw [← length_elements]
      exact length_lt_of_fits hfit

/-! ## Sets that are reached -/

/-- The members of a set, in any order. -/
structure Lists (ys : List (Bytes × Double)) (m : Members) : Prop where
  nodup : (ys.map Prod.fst).Nodup
  mem : ∀ name score, (name, score) ∈ ys ↔ m.lookup name = some score

variable {xs ys : List (Bytes × Double)}

theorem Lists.nil : Lists [] ∅ := ⟨List.nodup_nil, by simp⟩

theorem Lists.lookup_eq_none (h : Lists ys m) (hnew : name ∉ ys.map Prod.fst) :
    m.lookup name = none := by
  rw [Option.eq_none_iff_forall_ne_some]
  intro score hl
  exact hnew (List.mem_map.mpr ⟨_, (h.mem name score).mpr hl, rfl⟩)

theorem Lists.insert (h : Lists ys m) (hnew : name ∉ ys.map Prod.fst) :
    Lists ((name, score) :: ys) (m.insert name score) := by
  constructor
  · exact List.nodup_cons.mpr ⟨hnew, h.nodup⟩
  · intro name' score'
    by_cases hname : name' = name
    · subst hname
      have hold : (name', score') ∉ ys := fun hy => hnew (List.mem_map.mpr ⟨_, hy, rfl⟩)
      simp [Finmap.lookup_insert, hold, eq_comm]
    · rw [Finmap.lookup_insert_of_ne _ hname, ← h.mem]
      simp [hname]

theorem Ranked.nodup (h : Ranked xs m) : xs.Nodup :=
  h.sorted.imp (fun hab he => absurd hab (by rw [he]; exact lt_irrefl _))

theorem Ranked.perm (hx : Ranked xs m) (hy : Lists ys m) : xs.Perm ys := by
  rw [List.perm_ext_iff_of_nodup hx.nodup hy.nodup.of_map]
  intro x
  exact (hx.mem x.1 x.2).trans (hy.mem x.1 x.2).symm

/-- The order of the members is determined by the set. -/
theorem Ranked.unique (hx : Ranked xs m) (hy : Ranked ys m) : xs = ys := by
  have hperm : xs.Perm ys := by
    rw [List.perm_ext_iff_of_nodup hx.nodup hy.nodup]
    intro x
    exact (hx.mem x.1 x.2).trans (hy.mem x.1 x.2).symm
  exact hperm.eq_of_pairwise
    (fun a b _ _ hab hba => absurd (hab.trans hba) (lt_irrefl _)) hx.sorted hy.sorted

/-- The members, once they are put in order. -/
theorem Lists.ranked (hy : Lists ys m) (xs : List (Bytes × Double)) (hperm : xs.Perm ys)
    (hsort : xs.Pairwise (fun a b => memberKey a < memberKey b)) : Ranked xs m :=
  ⟨hsort, fun name score => hperm.mem_iff.trans (hy.mem name score)⟩

/-- A reachable state with a set of these members at a key. -/
def HasSet (g : Db) (key : Bytes) (ys : List (Bytes × Double)) : Prop :=
  Db.Reachable g ∧ ∃ S st m, g.Abs S st ∧ st.setAt key = some m ∧ Lists ys m

/-- The first state, which has no key. -/
theorem HasSet.new (key : Bytes) : ∃ g, Db.new 4 = some g ∧ HasSet g key [] := by
  obtain ⟨g, hnew, h, -⟩ := Db.new_abs 4
  exact ⟨g, hnew, Db.new_reachable hnew, ∅, ∅, ∅, h, rfl, .nil⟩

/-- A new member. -/
theorem HasSet.zadd {sc : Bytes} (h : HasSet g key ys) (now : Nat) (name : Bytes)
    (hs : str2dbl sc = some score) (hnew : name ∉ ys.map Prod.fst)
    (hfits : (enc [lit "zadd", key, sc, name]).length ≤ kMaxMsg) :
    ∃ g', Responds now g [lit "zadd", key, sc, name] g' (.one (.int 1)) ∧
      HasSet g' key ((name, score) :: ys) := by
  obtain ⟨hg, S, st, m, h, hm, hy⟩ := h
  have hnone := hy.lookup_eq_none hnew
  have hno : name ∉ m := Finmap.lookup_eq_none.mp hnone
  obtain ⟨g', S', r, st', hrun, href, h'⟩ := doRequest_answered h now [lit "zadd", key, sc, name]
  have hcmd : Command.ofRequest [lit "zadd", key, sc, name] = .zadd key sc name := by
    simp [Command.ofRequest]
  rw [hcmd] at href
  simp only [RefCommand, hs] at href
  have hset : r = .one (.int 1) ∧ st'.setAt key = some (m.insert name score) := by
    cases hl : st.lookup key with
    | none =>
      rw [hl] at href
      rw [Store.setAt, hl] at hm
      cases hm
      rw [Store.setAt, href.2, Finmap.lookup_insert]
      exact ⟨href.1, rfl⟩
    | some item =>
      obtain ⟨v, d⟩ := item
      rw [hl] at href
      rw [Store.setAt, hl] at hm
      cases v with
      | str x => cases hm
      | zset m' =>
        cases hm
        rw [Store.setAt, href.2, Finmap.lookup_insert, Members.add, hnone, href.1, if_neg hno]
        exact ⟨rfl, rfl⟩
  obtain ⟨rfl, hset⟩ := hset
  have hargs : [lit "zadd", key, sc, name].length ≤ kMaxArgs := (by decide : 4 ≤ kMaxArgs)
  have hstep : g.step (.request now [lit "zadd", key, sc, name] []) = some (g', _) := hrun []
  exact ⟨g', responds_of_run hargs hfits hrun, hg.step hstep, S', st', _, h', hset, hy.insert hnew⟩

/-- The size of a `zadd` to the set that is queried below. -/
theorem length_enc_zadd (sc name : Bytes) :
    (enc [lit "zadd", lit "z", sc, name]).length = 25 + sc.length + name.length := by
  have hzadd : (lit "zadd").length = 4 := by decide
  have hz : (lit "z").length = 1 := by decide
  simp only [length_enc, reqSize, List.map_cons, List.map_nil, List.sum_cons, List.sum_nil, hzadd, hz]
  omega

theorem length_enc_zquery (sc name off lim : Bytes) :
    (enc [lit "zquery", lit "z", sc, name, off, lim]).length =
      35 + sc.length + name.length + off.length + lim.length := by
  have hzquery : (lit "zquery").length = 6 := by decide
  have hz : (lit "z").length = 1 := by decide
  simp only [length_enc, reqSize, List.map_cons, List.map_nil, List.sum_cons, List.sum_nil,
    hzquery, hz]
  omega

theorem str2dbl_zero : str2dbl (lit "0") = some ⟨0⟩ := by decide +kernel

/-- Two members with the score 1, and one with the score 2. -/
def three : List (Bytes × Double) :=
  [(lit "a", ⟨0x3ff0000000000000⟩), (lit "b", ⟨0x3ff0000000000000⟩),
    (lit "c", ⟨0x4000000000000000⟩)]

theorem str2dbl_one : str2dbl (lit "1") = some ⟨0x3ff0000000000000⟩ := by decide +kernel

theorem three_reached : ∃ g S st m, Db.Reachable g ∧ g.Abs S st ∧ st.setAt (lit "z") = some m ∧
    Ranked three m := by
  have htwo : str2dbl (lit "2") = some ⟨0x4000000000000000⟩ := by decide +kernel
  obtain ⟨g₀, -, h₀⟩ := HasSet.new (lit "z")
  obtain ⟨g₁, -, h₁⟩ := h₀.zadd 0 (lit "b") str2dbl_one (by simp) (by decide)
  obtain ⟨g₂, -, h₂⟩ := h₁.zadd 0 (lit "c") htwo (by decide) (by decide)
  obtain ⟨g, -, hg, S, st, m, h, hm, hy⟩ :=
    h₂.zadd 0 (lit "a") str2dbl_one (by decide) (by decide)
  exact ⟨g, S, st, m, hg, h, hm, hy.ranked three (by decide) (by decide)⟩

/-- All but the first of the three, with a limit of three elements, which takes two
members. -/
theorem zquery_slice_three : ∃ g g' S st m, Db.Reachable g ∧ g.Abs S st ∧
    st.setAt (lit "z") = some m ∧ Ranked three m ∧ g'.Abs S st ∧
    Responds 7 g [lit "zquery", lit "z", lit "1", lit "a", lit "1", lit "3"] g'
      (.arr [.str (lit "b"), .dbl ⟨0x3ff0000000000000⟩,
        .str (lit "c"), .dbl ⟨0x4000000000000000⟩]) := by
  obtain ⟨g, S, st, m, hg, h, hm, hx⟩ := three_reached
  obtain ⟨-, hans⟩ := zquery_slice g hg 7 (lit "z") (lit "1") (lit "a") (lit "1") (lit "3")
    (by decide) ⟨0x3ff0000000000000⟩ 1 3 str2dbl_one (by decide +kernel) (by decide +kernel)
  obtain ⟨g', r, h', hresp, hr⟩ := hans S st h
  rw [hm] at hr
  obtain ⟨xs, hxs, hr⟩ := hr
  obtain rfl := hxs.unique hx
  rcases hr (by decide) with ⟨hbig, -⟩ | ⟨-, rfl, -⟩
  · exact absurd hbig (by decide)
  · exact ⟨g, g', S, st, m, hg, h, hm, hx, h', hresp⟩

/-! ## Slices that are not sent -/

theorem nil_le_memberKey (name : Bytes) (score : Double) :
    memberKey ([], score) ≤ memberKey (name, score) :=
  Prod.Lex.toLex_le_toLex.mpr (.inr ⟨rfl, not_lt.mp (List.not_lt_nil _)⟩)

/-- Two members are added to the empty keyspace, each with a request that is accepted,
and then asked for: the answer would be both, and is an error. -/
theorem tooBig_of_long {a b : Bytes} (ha : a.length = 20 * 2 ^ 20) (hb : b.length = 20 * 2 ^ 20)
    (hlt : codes a < codes b) : ∃ g₀ g₁ g S st m g',
    Db.new 4 = some g₀ ∧
    Responds 0 g₀ [lit "zadd", lit "z", lit "0", a] g₁ (.one (.int 1)) ∧
    Responds 0 g₁ [lit "zadd", lit "z", lit "0", b] g (.one (.int 1)) ∧
    Db.Reachable g ∧ g.Abs S st ∧ st.setAt (lit "z") = some m ∧
    Ranked [(a, ⟨0⟩), (b, ⟨0⟩)] m ∧
    zslice [(a, ⟨0⟩), (b, ⟨0⟩)] ⟨0⟩ [] 0 4 = [(a, ⟨0⟩), (b, ⟨0⟩)] ∧
    Responds 7 g [lit "zquery", lit "z", lit "0", [], lit "0", lit "4"] g' (.one tooBig) := by
  have hmax : kMaxMsg = 33554432 := rfl
  have hzero : (lit "0").length = 1 := by decide
  have hne : b ≠ a := fun he => absurd (he ▸ hlt) (lt_irrefl _)
  obtain ⟨g₀, hnew, h₀⟩ := HasSet.new (lit "z")
  obtain ⟨g₁, hadd₁, h₁⟩ := h₀.zadd 0 a str2dbl_zero (by simp) (by
    rw [length_enc_zadd, hzero, ha, hmax]
    decide)
  obtain ⟨g, hadd₂, hg, S, st, m, h, hm, hy⟩ :=
    h₁.zadd 0 b str2dbl_zero (by simpa using hne) (by
      rw [length_enc_zadd, hzero, hb, hmax]
      decide)
  have hkey : memberKey (a, ⟨0⟩) < memberKey (b, ⟨0⟩) :=
    Prod.Lex.toLex_lt_toLex.mpr (.inr ⟨rfl, hlt⟩)
  have hx := hy.ranked [(a, ⟨0⟩), (b, ⟨0⟩)] (List.Perm.swap _ _ _) (by simpa using hkey)
  have hslice : zslice [(a, ⟨0⟩), (b, ⟨0⟩)] ⟨0⟩ [] 0 4 = [(a, ⟨0⟩), (b, ⟨0⟩)] := by
    simp [zslice, List.findIdx?_cons, nil_le_memberKey]
  obtain ⟨g', -, xs, hxs, hans⟩ := doRequest_slice h hm
  obtain ⟨r, hrun, hr⟩ := hans (lit "0") (lit "0") (lit "4") [] ⟨0⟩ 0 4 str2dbl_zero
    (by decide +kernel) (by decide +kernel)
  obtain rfl := hxs.unique hx
  have hbig : kMaxMsg < r.encode.length := by
    rw [hr (by simp), hslice]
    simp only [Reply.encode, elements, encodeAll, Scalar.encode, List.flatMap_cons, List.map_append,
      List.map_cons, List.flatten_append, List.flatten_cons, List.length_cons, List.length_append,
      length_le, ha, hb]
    omega
  have hargs : [lit "zquery", lit "z", lit "0", [], lit "0", lit "4"].length ≤ kMaxArgs :=
    (by decide : 6 ≤ kMaxArgs)
  have hresp := responds_of_run hargs (by decide) (hrun 7)
  rw [Reply.limited, if_pos hbig] at hresp
  exact ⟨g₀, g₁, g, S, st, m, g', hnew, hadd₁, hadd₂, hg, h, hm, hx, hslice, hresp⟩

/-- A name of 20 MiB, all of one letter. -/
def longName (b : UInt8) : Bytes := List.replicate (20 * 2 ^ 20) b

theorem length_longName (b : UInt8) : (longName b).length = 20 * 2 ^ 20 := List.length_replicate

theorem codes_replicate_lt {n : Nat} (hn : 0 < n) :
    codes (List.replicate n 97) < codes (List.replicate n 98) := by
  obtain ⟨k, rfl⟩ := Nat.exists_eq_succ_of_ne_zero hn.ne'
  rw [List.replicate_succ, List.replicate_succ]
  exact List.Lex.rel (by decide)

/-! ## Counters that wrap -/

/-- The names that encode the numbers below `n`, all with score 0. -/
def numbered (n : Nat) : List (Bytes × Double) :=
  (List.range n).map (fun i => (le 8 i, ⟨0⟩))

theorem le_inj {i j : Nat} (hi : i < 2 ^ 64) (hj : j < 2 ^ 64) (h : le 8 i = le 8 j) : i = j := by
  have := congrArg ofLe h
  rwa [ofLe_le_of_lt (by omega), ofLe_le_of_lt (by omega)] at this

theorem mem_numbered {n : Nat} {x : Bytes × Double} (h : x ∈ numbered n) :
    x.1.length = 8 ∧ x.2 = ⟨0⟩ := by
  obtain ⟨i, -, rfl⟩ := List.mem_map.mp h
  exact ⟨length_le 8 i, rfl⟩

/-- Such a set is reached, for every `n`. -/
theorem hasSet_numbered (n : Nat) (hn : n ≤ 2 ^ 64) :
    ∃ g, HasSet g (lit "z") (numbered n).reverse := by
  induction n with
  | zero =>
    obtain ⟨g, -, h⟩ := HasSet.new (lit "z")
    exact ⟨g, h⟩
  | succ n ih =>
    obtain ⟨g, h⟩ := ih (by omega)
    have hnew : le 8 n ∉ (numbered n).reverse.map Prod.fst := by
      simp only [numbered, List.mem_map, List.mem_reverse, List.mem_range]
      rintro ⟨x, ⟨i, hi, rfl⟩, he⟩
      have := le_inj (by omega) (by omega) he
      omega
    obtain ⟨g', -, h'⟩ := h.zadd 0 (le 8 n) str2dbl_zero hnew (by
      rw [length_enc_zadd, length_le]
      decide)
    refine ⟨g', ?_⟩
    rw [numbered, List.range_succ, List.map_append, List.reverse_append]
    exact h'

/-- A subtree of `2^32` nodes is taken for a smaller one, and the walk gives up
at the root. -/
theorem avlOffset_wraps {root : Option Ptr} {mem : AvlMem} {l r : BinaryTree Ptr} {offset : Int}
    (h : AvlValid mem root (node p l r))
    (hout : offset = 2 ^ 32 ∨ offset = -2 ^ 32) : avlOffset mem p 0 offset = some none := by
  have hp := h.repr.linked
  have hcl : avlCnt mem (mem p).left < 2 ^ 32 := by
    rw [hp.left, hp.reprL.cnt_eq]
    exact Nat.mod_lt _ (by decide)
  have hcr : avlCnt mem (mem p).right < 2 ^ 32 := by
    rw [hp.right, hp.reprR.cnt_eq]
    exact Nat.mod_lt _ (by decide)
  rw [avlOffset, avlOffset_parent (by omega) rfl rfl, hp.parent]

/-- The rank of the root among the members. -/
theorem findIdx?_root {l r : BinaryTree Ptr} (h : z.Inv (node p l r)) :
    ((inorder (node p l r)).map z.member).findIdx?
      (fun x => decide (memberKey (z.member p) ≤ memberKey x)) = some l.numNodes := by
  have hbefore : ((inorder l).map z.member).findIdx?
      (fun x => decide (memberKey (z.member p) ≤ memberKey x)) = none := by
    rw [List.findIdx?_eq_none_iff]
    intro x hx
    obtain ⟨q, hq, rfl⟩ := List.mem_map.mp hx
    have hsort := h.sorted
    rw [inorder_node, List.pairwise_append] at hsort
    have hlt : z.key q < z.key p := hsort.2.2 q hq p List.mem_cons_self
    exact decide_eq_false (not_le.mpr hlt)
  rw [inorder_node, List.map_append, List.findIdx?_append, hbefore, List.map_cons,
    List.findIdx?_cons]
  simp [numNodes_eq_length]

/-- From a rank of the set on there is something to answer. -/
theorem zslice_ne_nil {offset limit : Int} {i : Nat} (hlimit : 0 < limit)
    (hfind : xs.findIdx? (fun x => decide (memberKey (name, score) ≤ memberKey x)) = some i)
    (hlo : 0 ≤ i + offset) (hhi : i + offset < xs.length) :
    zslice xs score name offset limit ≠ [] := by
  rw [zslice, if_neg (by omega), hfind]
  simp only
  rw [if_pos ⟨hlo, hhi⟩]
  intro hnil
  have hlen := congrArg List.length hnil
  rw [List.length_take, List.length_drop, List.length_nil] at hlen
  omega

/-- Behind the root or in front of it there are `2^32` nodes. -/
theorem exists_far_offset {l r : Nat} (h : l + r = 2 ^ 33) : ∃ off offset,
    str2int off = some offset ∧ off.length ≤ 11 ∧ (offset = 2 ^ 32 ∨ offset = -2 ^ 32) ∧
    0 ≤ l + offset ∧ l + offset < 2 ^ 33 + 1 := by
  by_cases hr : 2 ^ 32 ≤ r
  · exact ⟨lit "4294967296", 2 ^ 32, by decide +kernel, by decide, .inl rfl, by omega, by omega⟩
  · exact ⟨lit "-4294967296", -2 ^ 32, by decide +kernel, by decide, .inr rfl, by omega, by omega⟩

/-- **The counters wrap.** In a reachable state with a set of `2^33 + 1` members,
the query for a member and an offset of `2^32`, one way or the other, leads to
a member, but the answer is empty. -/
theorem zquery_slice_wraps : ∃ g S st m xs name off offset g',
    Db.Reachable g ∧ g.Abs S st ∧ st.setAt (lit "z") = some m ∧ Ranked xs m ∧
    str2dbl (lit "0") = some ⟨0⟩ ∧ str2int off = some offset ∧ str2int (lit "2") = some 2 ∧
    zslice xs ⟨0⟩ name offset 2 ≠ [] ∧
    Responds 7 g [lit "zquery", lit "z", lit "0", name, off, lit "2"] g' (.arr []) := by
  obtain ⟨g, hg, S, st, m, h, hm, hy⟩ := hasSet_numbered (2 ^ 33 + 1) (by decide)
  obtain ⟨db, ref, z, t, href, hnull, hz, hi, hc, -⟩ := expectZset_set h hm
  have hlim : str2int (lit "2") = some 2 := by decide +kernel
  have hx := hi.ranked hc
  have hlen : (inorder t).length = 2 ^ 33 + 1 := by
    have := (hx.perm hy).length_eq
    rwa [List.length_map, List.length_reverse, numbered, List.length_map, List.length_range] at this
  -- one of the subtrees of the root has `2^32` nodes
  obtain ⟨p, l, r, rfl⟩ : ∃ p l r, t = node p l r := by
    cases t with
    | nil => cases hlen
    | node p l r => exact ⟨p, l, r, rfl⟩
  have hnodes : l.numNodes + r.numNodes = 2 ^ 33 := by
    rw [← numNodes_eq_length, numNodes] at hlen
    omega
  obtain ⟨off, offset, hoff, hshort, hout, hlo, hhi⟩ := exists_far_offset hnodes
  have hmem : z.member p ∈ (inorder (node p l r)).map z.member := List.mem_map_of_mem (by simp)
  rw [(hx.perm hy).mem_iff, List.mem_reverse] at hmem
  obtain ⟨hname, hscore⟩ := mem_numbered hmem
  have hfind := findIdx?_root hi
  rw [show z.member p = ((z.node p).name, ⟨0⟩) from Prod.ext rfl hscore] at hfind
  have hget : (inorder (node p l r))[l.numNodes]? = some p := by
    rw [inorder_node, numNodes_eq_length, List.getElem?_append_right (Nat.le_refl _), Nat.sub_self]
    rfl
  have hjump : (zsetSeekge z ⟨0⟩ (z.node p).name).bind (fun q => znodeOffset z q offset) =
      some none := by
    rw [zsetSeekge_rank hi (by decide), hfind, Option.bind_some, Option.bind_some, hget]
    exact avlOffset_wraps hi.tree hout
  refine ⟨g, S, st, m, _, (z.node p).name, off, offset, { g with db := db }, hg, h, hm, hx,
    str2dbl_zero, hoff, hlim, ?_, ?_⟩
  · refine zslice_ne_nil (by decide) hfind hlo ?_
    rw [List.length_map, hlen]
    exact hhi
  · have hfits : (enc [lit "zquery", lit "z", lit "0", (z.node p).name, off, lit "2"]).length ≤
        kMaxMsg := by
      have hmax : kMaxMsg = 33554432 := rfl
      have hzero : (lit "0").length = 1 := by decide
      have htwo : (lit "2").length = 1 := by decide
      rw [length_enc_zquery, show (z.node p).name.length = 8 from hname, hzero, htwo]
      omega
    have hargs : 6 ≤ kMaxArgs := by decide
    refine responds_of_run (r := .arr []) hargs hfits ?_
    intro out
    rw [doRequest_zquery]
    refine doZquery_walk none [] str2dbl_zero hoff hlim href hnull hz (by decide) hjump ?_ out
    intro out
    rw [zqueryLoop]
    simp [encodeAll]

/-- Where a query for a slice is not answered with the slice: where the slice is too
long for a response, here with two names of 20 MiB, and where the counters of the tree
wrap. -/
theorem zquery_slice_fails :
    (∃ g₀ g₁ g S st m g',
      Db.new 4 = some g₀ ∧
      Responds 0 g₀ [lit "zadd", lit "z", lit "0", longName 97] g₁ (.one (.int 1)) ∧
      Responds 0 g₁ [lit "zadd", lit "z", lit "0", longName 98] g (.one (.int 1)) ∧
      Db.Reachable g ∧ g.Abs S st ∧ st.setAt (lit "z") = some m ∧
      Ranked [(longName 97, ⟨0⟩), (longName 98, ⟨0⟩)] m ∧
      zslice [(longName 97, ⟨0⟩), (longName 98, ⟨0⟩)] ⟨0⟩ [] 0 4 =
        [(longName 97, ⟨0⟩), (longName 98, ⟨0⟩)] ∧
      Responds 7 g [lit "zquery", lit "z", lit "0", [], lit "0", lit "4"] g' (.one tooBig)) ∧
    ∃ g S st m xs name off offset g',
      Db.Reachable g ∧ g.Abs S st ∧ st.setAt (lit "z") = some m ∧ Ranked xs m ∧
      str2dbl (lit "0") = some ⟨0⟩ ∧ str2int off = some offset ∧ str2int (lit "2") = some 2 ∧
      zslice xs ⟨0⟩ name offset 2 ≠ [] ∧
      Responds 7 g [lit "zquery", lit "z", lit "0", name, off, lit "2"] g' (.arr []) :=
  ⟨tooBig_of_long (length_longName 97) (length_longName 98) (codes_replicate_lt (by decide)),
    zquery_slice_wraps⟩

end ByoRedis
