import ByoRedis.Server.Zquery

/-!
# Server — a sorted set, page by page

A set that is too large for one response is read with several queries, each with
an offset further on than the one before. Whatever else the server does between
the pages, as long as the set stays the same they fit together: no member is left
out and none comes twice.
-/

namespace ByoRedis

open AvlTree CString

variable {m : Members} {xs ys : List (Bytes × Double)} {score : Double} {name : Bytes}

/-- The members that are not below a tuple. -/
def membersFrom (xs : List (Bytes × Double)) (score : Double) (name : Bytes) :
    List (Bytes × Double) :=
  xs.dropWhile (fun x => decide (memberKey x < memberKey (name, score)))

/-- The `k`-th page of `n` of these members. -/
def page (xs : List (Bytes × Double)) (score : Double) (name : Bytes) (n k : Nat) :
    List (Bytes × Double) :=
  ((membersFrom xs score name).drop (k * n)).take n

/-- The page behind `j` members. -/
theorem zslice_page (xs : List (Bytes × Double)) (score : Double) (name : Bytes) (j : Nat) {n : Nat}
    (hn : 0 < n) :
    zslice xs score name j (2 * n) = ((membersFrom xs score name).drop j).take n := by
  have hhalf : (((2 * n : Int) + 1) / 2).toNat = n := by omega
  have hbelow : (fun x => !decide (memberKey x < memberKey (name, score))) =
      fun x => decide (memberKey (name, score) ≤ memberKey x) := by
    funext x
    rw [← decide_not, decide_eq_decide]
    exact not_lt
  rw [zslice, if_neg (by omega), membersFrom, List.dropWhile_eq_drop_findIdx_not, hbelow,
    List.drop_drop, hhalf]
  cases hfind : xs.findIdx? (fun x => decide (memberKey (name, score) ≤ memberKey x)) with
  | none =>
    rw [List.findIdx?_eq_none_iff_findIdx_eq.mp hfind, List.drop_of_length_le (by omega),
      List.take_nil]
  | some i =>
    obtain rfl := (List.findIdx?_eq_some_iff_findIdx_eq.mp hfind).2
    simp only
    split
    · congr 2
    · rw [List.drop_of_length_le (by omega), List.take_nil]

/-- Pages of one size, put together. -/
theorem flatMap_pages {α : Type} (l : List α) (n K : Nat) :
    (List.range K).flatMap (fun k => (l.drop (k * n)).take n) = l.take (K * n) := by
  induction K with
  | zero => simp
  | succ K ih =>
    rw [List.range_succ, List.flatMap_append, ih, List.flatMap_singleton, Nat.succ_mul,
      List.take_add]

/-- **Paging.** A set of fewer than `2^32` members is read in `K` pages of `n` members
from a tuple on. Each page is asked for in any state and at any time, as long as the key
has the set. Where the pages are not too long for a response, each response is its page,
and put together they are the first `K * n` members that are not below the tuple, in
their order; so enough pages give each of these members once. -/
theorem zquery_pages (g : Nat → Db) (key sc name lim : Bytes) (off : Nat → Bytes) (score : Double)
    (n K : Nat) (hn : 0 < n) (xs : List (Bytes × Double)) (m : Members) (hx : Ranked xs m)
    (hsize : xs.length < 2 ^ 32)
    (hg : ∀ k < K, ∃ S st, (g k).Abs S st ∧ st.setAt key = some m)
    (hs : str2dbl sc = some score)
    (ho : ∀ k < K, str2int (off k) = some ((k * n : Nat) : Int))
    (hl : str2int lim = some (2 * (n : Int)))
    (hreq : ∀ k < K, (enc [lit "zquery", key, sc, name, off k, lim]).length ≤ kMaxMsg)
    (hfit : ∀ k < K, (Reply.arr (elements (page xs score name n k))).encode.length ≤ kMaxMsg) :
    (∀ k < K, ∃ g', ∀ now, Responds now (g k) [lit "zquery", key, sc, name, off k, lim] g'
      (.arr (elements (page xs score name n k)))) ∧
    (List.range K).flatMap (page xs score name n) = (membersFrom xs score name).take (K * n) ∧
    (xs.length ≤ K * n →
      (List.range K).flatMap (page xs score name n) = membersFrom xs score name) := by
  have hall : (List.range K).flatMap (page xs score name n) =
      (membersFrom xs score name).take (K * n) := flatMap_pages _ n K
  refine ⟨?_, hall, ?_⟩
  · intro k hk
    obtain ⟨S, st, h, hm⟩ := hg k hk
    obtain ⟨g', -, ys, hy, hans⟩ := doRequest_slice h hm
    obtain rfl := hy.unique hx
    obtain ⟨r, hrun, hr⟩ := hans sc (off k) lim name score _ _ hs (ho k hk) hl
    have hpage : r = .arr (elements (page ys score name n k)) := by
      rw [hr hsize, zslice_page ys score name (k * n) hn, page]
    have hlim : r.limited = .arr (elements (page ys score name n k)) := by
      rw [hpage, Reply.limited, if_neg (Nat.not_lt.mpr (hfit k hk))]
    have hargs : 6 ≤ kMaxArgs := by decide
    refine ⟨g', ?_⟩
    intro now
    rw [← hlim]
    exact responds_of_run hargs (hreq k hk) (hrun now)
  · intro hlen
    rw [hall, List.take_of_length_le]
    exact ((List.dropWhile_sublist _).length_le).trans hlen

/-- Three members in pages of two. -/
theorem zquery_pages_three : ∃ g, Db.Reachable g ∧
    (∀ k < 2, ∃ g', ∀ now, Responds now g
      [lit "zquery", lit "z", lit "0", [], if k = 0 then lit "0" else lit "2", lit "4"] g'
        (.arr (elements (page three ⟨0⟩ [] 2 k)))) ∧
    elements (page three ⟨0⟩ [] 2 0) = [.str (lit "a"), .dbl ⟨0x3ff0000000000000⟩,
      .str (lit "b"), .dbl ⟨0x3ff0000000000000⟩] ∧
    elements (page three ⟨0⟩ [] 2 1) = [.str (lit "c"), .dbl ⟨0x4000000000000000⟩] ∧
    (List.range 2).flatMap (page three ⟨0⟩ [] 2) = three := by
  obtain ⟨g, S, st, m, hg, h, hm, hx⟩ := three_reached
  have hoff : ∀ k < 2, str2int (if k = 0 then lit "0" else lit "2") =
      some ((k * 2 : Nat) : Int) := by
    intro k hk
    interval_cases k
    · decide +kernel
    · decide +kernel
  obtain ⟨hans, -, hall⟩ := zquery_pages (fun _ => g) (lit "z") (lit "0") [] (lit "4")
    (fun k => if k = 0 then lit "0" else lit "2") ⟨0⟩ 2 2 (by decide) three m hx (by decide)
    (fun _ _ => ⟨S, st, h, hm⟩) str2dbl_zero hoff (by decide +kernel) (by decide) (by decide)
  exact ⟨g, hg, hans, by decide, by decide, hall (by decide)⟩

end ByoRedis
