import ByoRedis.Lib.Buckets
import ByoRedis.Container.HashTable

/-!
# Container — what the hash map keeps

One table first (`TabInv`: the slots are there, the counter is exact, every
node sits in the slot of its hash code), then the map in any state of the
migration (`HashMap.Inv`: both tables are fine and the slots of the older
one below the cursor are empty). Each operation gets one lemma that says
which state it answers and what it does to `nodes`, the content of the two
tables taken together, up to order.
-/

namespace ByoRedis

open Buckets

variable {α : Type}

/-- The nodes of a table, slot by slot. -/
def HashTab.nodes (ht : HashTab α) : List (HashNode α) := ht.tab.flatten

/-- A table in order: `mask + 1` slots, a power of two of them and no fewer
than the four of a new map, an exact counter, and every node in the slot of
its hash code. -/
structure TabInv (ht : HashTab α) : Prop where
  len : ht.tab.length = ht.mask + 1
  pow : ∃ k, ht.mask + 1 = 2 ^ (k + 2)
  count : ht.size = ht.nodes.length
  slot : ∀ i chain, ht.tab[i]? = some chain → ∀ n ∈ chain, n.hashCode &&& ht.mask = i

/-! ## One table -/

theorem TabInv.slot_exists {ht : HashTab α} (h : TabInv ht) (hc : Nat) :
    ∃ chain, ht.tab[hc &&& ht.mask]? = some chain := by
  have hlt : hc &&& ht.mask < ht.tab.length := by
    rw [h.len]
    exact Nat.lt_succ_of_le Nat.and_le_right
  exact ⟨_, List.getElem?_eq_getElem hlt⟩

/-- `ht_make` on a power of two passes its assertion. -/
theorem htMake_pow (k : Nat) :
    ∃ ht : HashTab α, htMake (2 ^ (k + 2)) = some ht ∧ TabInv ht ∧
      ht.mask + 1 = 2 ^ (k + 2) ∧ ht.nodes = [] := by
  have hpos : 0 < 2 ^ (k + 2) := Nat.two_pow_pos _
  have hand : (2 ^ (k + 2) - 1) &&& 2 ^ (k + 2) = 0 := by
    rw [Nat.and_comm, Nat.and_two_pow_sub_one_eq_mod, Nat.mod_self]
  have hmask : 2 ^ (k + 2) - 1 + 1 = 2 ^ (k + 2) := by omega
  have hnil : (List.replicate (2 ^ (k + 2)) ([] : List (HashNode α))).flatten = [] := by simp
  refine ⟨_, if_pos ⟨hpos, hand⟩, ⟨?_, ⟨k, hmask⟩, ?_, ?_⟩, hmask, hnil⟩
  · rw [List.length_replicate, hmask]
  · show 0 = (List.replicate (2 ^ (k + 2)) ([] : List (HashNode α))).flatten.length
    rw [hnil]
    rfl
  · intro i chain hi n hn
    have hc : chain = [] := List.eq_of_mem_replicate (List.mem_of_getElem? hi)
    rw [hc] at hn
    cases hn

theorem TabInv.mask_ne_zero {ht : HashTab α} (h : TabInv ht) : ht.mask ≠ 0 := by
  obtain ⟨k, hk⟩ := h.pow
  have : 2 ^ (k + 2) = 4 * 2 ^ k := by rw [Nat.pow_add]; omega
  have := Nat.two_pow_pos k
  omega

theorem htInsert_spec {ht : HashTab α} (h : TabInv ht) (node : HashNode α) :
    ∃ ht', htInsert ht node = some ht' ∧ TabInv ht' ∧ ht'.mask = ht.mask ∧
      ht'.size = ht.size + 1 ∧ ht'.nodes.Perm (node :: ht.nodes) := by
  obtain ⟨chain, hchain⟩ := h.slot_exists node.hashCode
  have hperm : (ht.tab.set (node.hashCode &&& ht.mask) (node :: chain)).flatten.Perm
      (node :: ht.nodes) := flatten_set_perm_cons hchain (List.Perm.refl _)
  refine ⟨{ ht with tab := ht.tab.set (node.hashCode &&& ht.mask) (node :: chain),
                    size := ht.size + 1 }, by simp [htInsert, hchain], ⟨?_, h.pow, ?_, ?_⟩,
    rfl, rfl, hperm⟩
  · simpa using h.len
  · show ht.size + 1 = (ht.tab.set _ (node :: chain)).flatten.length
    rw [hperm.length_eq, h.count]
    rfl
  · refine forall_set (fun i (c : List (HashNode α)) => ∀ n ∈ c, n.hashCode &&& ht.mask = i)
      ?_ h.slot
    intro n hn
    rcases List.mem_cons.mp hn with rfl | hn
    · rfl
    · exact h.slot _ chain hchain n hn

/-- `ht_lookup` finds a matching node of the table, or there is none: the
chain it walks is the only one a match can be in. -/
theorem htLookup_spec {ht : HashTab α} (h : TabInv ht) (hc : Nat) (eq : α → Bool) :
    (∃ fr n, htLookup ht hc eq = some (some fr) ∧ htDeref ht fr = some n ∧ n ∈ ht.nodes ∧
      n.hashCode = hc ∧ eq n.ptr = true) ∨
    (htLookup ht hc eq = some none ∧
      ∀ n ∈ ht.nodes, ¬ (n.hashCode = hc ∧ eq n.ptr = true)) := by
  obtain ⟨chain, hchain⟩ := h.slot_exists hc
  cases hf : chain.findIdx? (fun cur => cur.hashCode == hc && eq cur.ptr) with
  | some i =>
    left
    obtain ⟨hi, hm, -⟩ := List.findIdx?_eq_some_iff_getElem.mp hf
    simp only [Bool.and_eq_true, beq_iff_eq] at hm
    refine ⟨{ slot := hc &&& ht.mask, idx := i }, chain[i], ?_, ?_, ?_, hm⟩
    · simp [htLookup, hchain, hf]
    · simp [htDeref, hchain]
    · exact mem_flatten_of_getElem? hchain (List.getElem_mem hi)
  | none =>
    right
    refine ⟨by simp [htLookup, hchain, hf], ?_⟩
    rintro n hn ⟨hhash, heq⟩
    obtain ⟨j, c, hj, hnc⟩ := exists_getElem?_of_mem_flatten hn
    have hslot : hc &&& ht.mask = j := by rw [← hhash]; exact h.slot j c hj n hnc
    rw [hslot, hj] at hchain
    cases hchain
    have := List.findIdx?_eq_none_iff.mp hf n hnc
    simp [hhash, heq] at this

theorem htDetach_spec {ht : HashTab α} (h : TabInv ht) {fr : From} {n : HashNode α}
    (hd : htDeref ht fr = some n) :
    ∃ ht', htDetach ht fr = some (n, ht') ∧ TabInv ht' ∧ ht'.mask = ht.mask ∧
      ht'.size = ht.size - 1 ∧ 0 < ht.size ∧ ht.nodes.Perm (n :: ht'.nodes) ∧
      ∃ chain, ht.tab[fr.slot]? = some chain ∧
        ht'.tab = ht.tab.set fr.slot (chain.eraseIdx fr.idx) := by
  unfold htDeref at hd
  split at hd
  · cases hd
  · rename_i chain hchain
    obtain ⟨hlt, hget⟩ := List.getElem?_eq_some_iff.mp hd
    have hcp : chain.Perm (n :: chain.eraseIdx fr.idx) := by
      rw [← hget]
      exact (List.getElem_cons_eraseIdx_perm hlt).symm
    have hperm : ht.nodes.Perm (n :: (ht.tab.set fr.slot (chain.eraseIdx fr.idx)).flatten) :=
      flatten_perm_cons_set hchain hcp
    have hlen : ht.size = (ht.tab.set fr.slot (chain.eraseIdx fr.idx)).flatten.length + 1 := by
      rw [h.count, hperm.length_eq]
      rfl
    refine ⟨{ ht with tab := ht.tab.set fr.slot (chain.eraseIdx fr.idx),
                      size := ht.size - 1 }, by simp [htDetach, hchain, hd],
      ⟨?_, h.pow, ?_, ?_⟩, rfl, rfl, by omega, hperm, chain, hchain, rfl⟩
    · simpa using h.len
    · show ht.size - 1 = _
      rw [hlen]
      rfl
    · refine forall_set (fun i (c : List (HashNode α)) => ∀ n ∈ c, n.hashCode &&& ht.mask = i)
        ?_ h.slot
      exact fun x hx => h.slot _ chain hchain x (List.mem_of_mem_eraseIdx hx)

/-! ## The migration -/

/-- The slots of the older table below the cursor are empty. -/
def Drained (older : HashTab α) (migratePos : Nat) : Prop :=
  ∀ i chain, i < migratePos → older.tab[i]? = some chain → chain = []

/-- A table with a node in it has a slot at the cursor. -/
theorem Drained.cursor_lt {older : HashTab α} {pos : Nat} (hd : Drained older pos)
    (h : TabInv older) (hs : 0 < older.size) : pos < older.tab.length := by
  by_contra hge
  have hnil : older.nodes = [] := by
    apply flatten_eq_nil
    intro j c hj
    have := (List.getElem?_eq_some_iff.mp hj).1
    exact hd j c (by omega) hj
  rw [h.count, hnil] at hs
  exact absurd hs (by simp)

theorem Drained.succ {older : HashTab α} {pos : Nat} (hd : Drained older pos)
    (he : older.tab[pos]? = some []) : Drained older (pos + 1) := by
  intro i chain hi hc
  rcases Nat.lt_succ_iff_lt_or_eq.mp hi with hlt | rfl
  · exact hd i chain hlt hc
  · rw [he] at hc
    cases hc
    rfl

/-- Emptying a chain further keeps the slots below the cursor empty. -/
theorem Drained.set_erase {older older' : HashTab α} {pos slot idx : Nat}
    {chain : List (HashNode α)} (hd : Drained older pos)
    (hchain : older.tab[slot]? = some chain)
    (htab : older'.tab = older.tab.set slot (chain.eraseIdx idx)) : Drained older' pos := by
  intro i c hi hc
  rw [htab, List.getElem?_set] at hc
  split at hc
  · rename_i heq
    subst heq
    split at hc
    · cases hc
      rw [hd slot chain hi hchain]
      rfl
    · cases hc
  · exact hd i c hi hc

/-! ## The loop of the migration -/

/-- The variables of the loop of `rehashing`. -/
structure Rehash (α : Type) where
  nwork : Nat
  newer : HashTab α
  older : HashTab α
  pos : Nat

namespace Rehash

/-- The condition of the loop; the body then looks at `older->tab[pos]`. -/
def Going (c : Rehash α) : Prop := c.nwork < kRehashingWork ∧ 0 < c.older.size

/-- The loop from here on. -/
def loop (c : Rehash α) : Option (HashTab α × HashTab α × Nat) :=
  rehashingLoop c.nwork c.newer c.older c.pos

/-- One turn of the loop: an empty slot is skipped, or the first node of the
slot is moved. -/
inductive Turn : Rehash α → Rehash α → Prop
  | skip {c : Rehash α} (hgo : c.Going) (hslot : c.older.tab[c.pos]? = some []) :
      Turn c { c with pos := c.pos + 1 }
  | move {c : Rehash α} {node first : HashNode α} {next : List (HashNode α)}
      {newer older : HashTab α} (hgo : c.Going) (hslot : c.older.tab[c.pos]? = some (first :: next))
      (hdet : htDetach c.older { slot := c.pos, idx := 0 } = some (node, older))
      (hins : htInsert c.newer node = some newer) :
      Turn c { nwork := c.nwork + 1, newer := newer, older := older, pos := c.pos }

theorem Turn.loop_eq {c c' : Rehash α} (h : Turn c c') : c.loop = c'.loop := by
  unfold loop
  cases h with
  | skip hgo hslot =>
    rw [rehashingLoop, if_pos ⟨hgo.1, hgo.2⟩]
    split
    · simp_all
    · rfl
    · simp_all
  | move hgo hslot hdet hins =>
    rw [rehashingLoop, if_pos ⟨hgo.1, hgo.2⟩]
    split
    · simp_all
    · simp_all
    · split
      · simp_all
      · rename_i heq
        rw [hdet] at heq
        cases heq
        rw [hins]

theorem loop_done {c : Rehash α} (h : ¬ c.Going) : c.loop = some (c.newer, c.older, c.pos) := by
  rw [loop, rehashingLoop, if_neg (show ¬ (_ ∧ _) from h)]

/-- The tables are in order, and the slots below the cursor empty. -/
structure Inv (c : Rehash α) : Prop where
  newer : TabInv c.newer
  older : TabInv c.older
  drained : Drained c.older c.pos

/-- The cursor is at a slot whenever the loop looks there. -/
theorem Inv.cursor_le {c : Rehash α} (h : c.Inv) (hgo : c.Going) : c.pos ≤ c.older.mask := by
  have hlt := h.drained.cursor_lt h.older hgo.2
  rw [h.older.len] at hlt
  omega

/-- What the turns from one state to another do to the tables. -/
structure Leads (c c' : Rehash α) : Prop where
  inv : c'.Inv
  newerMask : c'.newer.mask = c.newer.mask
  olderMask : c'.older.mask = c.older.mask
  more : c.nwork ≤ c'.nwork
  work : c'.nwork ≤ max c.nwork kRehashingWork
  left : c'.older.size + c'.nwork = c.older.size + c.nwork
  total : c'.newer.size + c'.older.size = c.newer.size + c.older.size
  moved : ∃ l : List (HashNode α), c.nwork + l.length = c'.nwork ∧
    c.older.nodes.Perm (l ++ c'.older.nodes) ∧ c'.newer.nodes.Perm (l ++ c.newer.nodes)

theorem Inv.leads {c : Rehash α} (h : c.Inv) : Leads c c :=
  ⟨h, rfl, rfl, Nat.le_refl _, Nat.le_max_left _ _, rfl, rfl, [], rfl, .refl _, .refl _⟩

/-- The content of the two tables stays. -/
theorem Leads.nodes {c c' : Rehash α} (h : Leads c c') :
    (c'.newer.nodes ++ c'.older.nodes).Perm (c.newer.nodes ++ c.older.nodes) := by
  obtain ⟨l, -, hold, hnew⟩ := h.moved
  have h1 : (c'.newer.nodes ++ c'.older.nodes).Perm (l ++ c.newer.nodes ++ c'.older.nodes) :=
    hnew.append_right _
  have h2 : (l ++ c.newer.nodes ++ c'.older.nodes).Perm (c.newer.nodes ++ (l ++ c'.older.nodes)) := by
    rw [← List.append_assoc]
    exact List.perm_append_comm.append_right _
  exact (h1.trans h2).trans (hold.symm.append_left _)

/-- **One turn.** A node that is moved leaves the older table for the newer. -/
theorem Leads.turn {c c₁ c₂ : Rehash α} (h : Leads c c₁) (ht : Turn c₁ c₂) : Leads c c₂ := by
  obtain ⟨hn, ho, hd⟩ := h.inv
  have hm := h.more
  have hw := h.work
  have hl := h.left
  have htot := h.total
  cases ht with
  | skip hgo hslot =>
    exact ⟨⟨hn, ho, hd.succ hslot⟩, h.newerMask, h.olderMask, hm, hw, hl, htot, h.moved⟩
  | @move node first next newer older hgo hslot hdet hins =>
    have hder : htDeref c₁.older { slot := c₁.pos, idx := 0 } = some first := by
      simp [htDeref, hslot]
    obtain ⟨o₁, hdet₁, ho₁, hmo, hso, hpos, hpo, chain, hchain, htab⟩ := htDetach_spec ho hder
    cases hdet.symm.trans hdet₁
    obtain ⟨n₁, hins₁, hn₁, hmn, hsn, hpn⟩ := htInsert_spec hn node
    cases hins.symm.trans hins₁
    have hgo₁ := hgo.1
    refine ⟨⟨hn₁, ho₁, hd.set_erase hchain htab⟩, hmn.trans h.newerMask, hmo.trans h.olderMask,
      ?_, ?_, ?_, ?_, ?_⟩
    · exact Nat.le_succ_of_le hm
    · show c₁.nwork + 1 ≤ _
      omega
    · show older.size + (c₁.nwork + 1) = _
      omega
    · show newer.size + older.size = _
      omega
    · obtain ⟨l, hlen, hold, hnew⟩ := h.moved
      refine ⟨node :: l, ?_, ?_, ?_⟩
      · show c.nwork + (l.length + 1) = c₁.nwork + 1
        omega
      · exact (hold.trans (hpo.append_left l)).trans List.perm_middle
      · exact hpn.trans (hnew.cons node)

/-- **The turns**, any number of them. -/
theorem Inv.leads_turns {c c' : Rehash α} (h : c.Inv) (ht : Relation.ReflTransGen Turn c c') :
    Leads c c' := by
  induction ht with
  | refl => exact h.leads
  | tail _ hlast ih => exact ih.turn hlast

/-- The body of the loop always goes through. -/
theorem Inv.turn {c : Rehash α} (h : c.Inv) (hgo : c.Going) : ∃ c', Turn c c' := by
  have hlt := h.drained.cursor_lt h.older hgo.2
  have hslot : c.older.tab[c.pos]? = some c.older.tab[c.pos] := List.getElem?_eq_getElem hlt
  cases hchain : c.older.tab[c.pos] with
  | nil => exact ⟨_, .skip hgo (hslot.trans (congrArg some hchain))⟩
  | cons first next =>
    rw [hchain] at hslot
    have hder : htDeref c.older { slot := c.pos, idx := 0 } = some first := by
      simp [htDeref, hslot]
    obtain ⟨o₁, hdet, -⟩ := htDetach_spec h.older hder
    obtain ⟨n₁, hins, -⟩ := htInsert_spec h.newer first
    exact ⟨_, .move hgo hslot hdet hins⟩

/-- A turn is progress: work done, or a slot passed. -/
theorem Turn.shorter {c c' : Rehash α} (h : Turn c c') (hlt : c.pos < c.older.tab.length) :
    (kRehashingWork - c'.nwork) + (c'.older.tab.length - c'.pos) <
      (kRehashingWork - c.nwork) + (c.older.tab.length - c.pos) := by
  cases h with
  | skip hgo hslot =>
    show (kRehashingWork - c.nwork) + (c.older.tab.length - (c.pos + 1)) < _
    omega
  | move hgo hslot hdet hins =>
    have hgo₁ := hgo.1
    simp only [htDetach_tab_length hdet]
    omega

/-- **The loop ends.** -/
theorem Inv.ends {c : Rehash α} (h : c.Inv) :
    ∃ c', Relation.ReflTransGen Turn c c' ∧ ¬ c'.Going := by
  by_cases hgo : c.Going
  · obtain ⟨c₁, ht⟩ := h.turn hgo
    have hdec := ht.shorter (h.drained.cursor_lt h.older hgo.2)
    obtain ⟨c', hrest, hstop⟩ := ends (h.leads.turn ht).inv
    exact ⟨c', .head ht hrest, hstop⟩
  · exact ⟨c, .refl, hgo⟩
termination_by (kRehashingWork - c.nwork) + (c.older.tab.length - c.pos)

theorem loop_turns {c c' : Rehash α} (h : Relation.ReflTransGen Turn c c') : c.loop = c'.loop := by
  induction h with
  | refl => rfl
  | tail _ hlast ih => exact ih.trans hlast.loop_eq

end Rehash

/-- The loop of `rehashing` from any state of the two tables: it never reads
past the older table, moves exactly the work that is left (or all of the
older table), and keeps the content. -/
theorem rehashingLoop_spec (nwork : Nat) (newer older : HashTab α) (pos : Nat)
    (hn : TabInv newer) (ho : TabInv older) (hd : Drained older pos) :
    ∃ newer' older' pos', rehashingLoop nwork newer older pos = some (newer', older', pos') ∧
      TabInv newer' ∧ TabInv older' ∧ Drained older' pos' ∧
      newer'.mask = newer.mask ∧ older'.mask = older.mask ∧
      older'.size = older.size - (kRehashingWork - nwork) ∧
      newer'.size + older'.size = newer.size + older.size ∧
      (newer'.nodes ++ older'.nodes).Perm (newer.nodes ++ older.nodes) := by
  let c : Rehash α := ⟨nwork, newer, older, pos⟩
  have hc : c.Inv := ⟨hn, ho, hd⟩
  obtain ⟨c', hturns, hstop⟩ := hc.ends
  have hleads := hc.leads_turns hturns
  refine ⟨c'.newer, c'.older, c'.pos, ?_, hleads.inv.newer, hleads.inv.older, hleads.inv.drained,
    hleads.newerMask, hleads.olderMask, ?_, hleads.total, hleads.nodes⟩
  · exact (Rehash.loop_turns hturns).trans (Rehash.loop_done hstop)
  · have hmore : nwork ≤ c'.nwork := hleads.more
    have hwork : c'.nwork ≤ max nwork kRehashingWork := hleads.work
    have hleft : c'.older.size + c'.nwork = older.size + nwork := hleads.left
    rw [Rehash.Going, not_and_or] at hstop
    omega

namespace HashMap

/-- The content of the map: both tables. -/
def nodes (m : HashMap α) : List (HashNode α) :=
  m.newer.nodes ++ (match m.older with | some o => o.nodes | none => [])

/-- The map in any state of a migration. -/
structure Inv (m : HashMap α) : Prop where
  newer : TabInv m.newer
  older : ∀ o, m.older = some o → TabInv o ∧ Drained o m.migratePos

/-- The size counters count the content. -/
theorem Inv.size_eq {m : HashMap α} (h : Inv m) : m.size = m.nodes.length := by
  unfold size nodes
  cases ho : m.older with
  | none => simp [h.newer.count]
  | some o => simp [h.newer.count, (h.older o ho).1.count]

theorem new_spec : ∃ m : HashMap α, new = some m ∧ Inv m ∧ m.nodes = [] := by
  obtain ⟨t, ht, hinv, -, hnil⟩ := htMake_pow (α := α) 0
  refine ⟨{ newer := t }, ?_, ⟨hinv, fun o ho => by cases ho⟩, ?_⟩
  · have h4 : htMake 4 = some t := ht
    simp [new, h4]
  · simp [nodes, hnil]

theorem rehashing_spec {m : HashMap α} (h : Inv m) :
    ∃ m', m.rehashing = some m' ∧ Inv m' ∧ m'.nodes.Perm m.nodes := by
  cases ho : m.older with
  | none => exact ⟨m, by simp [rehashing, ho], h, List.Perm.refl _⟩
  | some o =>
    obtain ⟨hto, hdo⟩ := h.older o ho
    obtain ⟨n', o', p', hrun, hn', ho', hd', -, -, -, -, hp⟩ :=
      rehashingLoop_spec 0 m.newer o m.migratePos h.newer hto hdo
    have hp0 : (n'.nodes ++ o'.nodes).Perm m.nodes := by simpa [nodes, ho] using hp
    by_cases hz : o'.size = 0
    · refine ⟨{ newer := n', older := none, migratePos := 0 }, by simp [rehashing, ho, hrun, hz],
        ⟨hn', fun _ h => by cases h⟩, ?_⟩
      have hnil : o'.nodes = [] := by
        rw [ho'.count] at hz
        exact List.length_eq_zero_iff.mp hz
      simpa [nodes, hnil] using hp0
    · refine ⟨{ newer := n', older := some o', migratePos := p' },
        by simp [rehashing, ho, hrun, hz], ⟨hn', ?_⟩, by simpa [nodes] using hp0⟩
      intro o1 h1
      cases h1
      exact ⟨ho', hd'⟩

theorem inspectRehashing_spec {m : HashMap α} (h : Inv m) :
    ∃ m', m.inspectRehashing = some m' ∧ Inv m' ∧ m'.nodes = m.nodes := by
  cases ho : m.older with
  | some o => exact ⟨m, by simp [inspectRehashing, ho], h, rfl⟩
  | none =>
    by_cases hload : (m.newer.mask + 1) * kMaxLoadFactor ≤ m.newer.size
    · obtain ⟨k, hk⟩ := h.newer.pow
      obtain ⟨t, ht, hinv, -, hnil⟩ := htMake_pow (α := α) (k + 1)
      refine ⟨{ newer := t, older := some m.newer, migratePos := 0 }, ?_, ⟨hinv, ?_⟩, ?_⟩
      · simp only [inspectRehashing, ho, if_pos hload]
        rw [hk, show 2 ^ (k + 2) * 2 = 2 ^ (k + 1 + 2) from by ring, ht]
      · intro o h1
        cases h1
        exact ⟨h.newer, fun i _ hi => absurd hi (by simp)⟩
      · simp [nodes, ho, hnil]
    · exact ⟨m, by simp [inspectRehashing, ho, hload], h, rfl⟩

/-- `insert` always answers, and adds exactly the node. -/
theorem insert_spec {m : HashMap α} (h : Inv m) (node : HashNode α) :
    ∃ m', m.insert node = some m' ∧ Inv m' ∧ m'.nodes.Perm (node :: m.nodes) := by
  obtain ⟨t, hins, ht, -, -, hp⟩ := htInsert_spec h.newer node
  have h1 : Inv { m with newer := t } := ⟨ht, h.older⟩
  obtain ⟨m2, hi, h2, hn2⟩ := inspectRehashing_spec h1
  obtain ⟨m3, hr, h3, hp3⟩ := rehashing_spec h2
  refine ⟨m3, by simp [insert, hins, hi, hr], h3, hp3.trans ?_⟩
  rw [hn2]
  exact hp.append_right _

/-- The two searches that `lookup` and `remove` make after the migration
work, in order: a match in one of the tables, or none in the map. -/
theorem search_cases {m : HashMap α} (h : Inv m) (hc : Nat) (eq : α → Bool) :
    (∃ fr n, htLookup m.newer hc eq = some (some fr) ∧ htDeref m.newer fr = some n ∧
      n ∈ m.nodes ∧ n.hashCode = hc ∧ eq n.ptr = true) ∨
    (∃ o fr n, htLookup m.newer hc eq = some none ∧ m.older = some o ∧
      htLookup o hc eq = some (some fr) ∧ htDeref o fr = some n ∧
      n ∈ m.nodes ∧ n.hashCode = hc ∧ eq n.ptr = true) ∨
    (htLookup m.newer hc eq = some none ∧
      (∀ o, m.older = some o → htLookup o hc eq = some none) ∧
      ∀ n ∈ m.nodes, ¬ (n.hashCode = hc ∧ eq n.ptr = true)) := by
  rcases htLookup_spec h.newer hc eq with ⟨fr, n, hl, hd, hn, hm⟩ | ⟨hl, hnone⟩
  · exact .inl ⟨fr, n, hl, hd, List.mem_append_left _ hn, hm⟩
  · right
    cases ho : m.older with
    | none =>
      right
      refine ⟨hl, fun o h1 => by simp at h1, fun n hn => hnone n ?_⟩
      simpa [nodes, ho] using hn
    | some o =>
      rcases htLookup_spec (h.older o ho).1 hc eq with ⟨fr, n, hl', hd, hn, hm⟩ | ⟨hl', hnone'⟩
      · exact .inl ⟨o, fr, n, hl, rfl, hl', hd, by simp [nodes, ho, hn], hm⟩
      · right
        refine ⟨hl, fun o1 h1 => by cases h1; exact hl', fun n hn => ?_⟩
        rcases List.mem_append.mp hn with hn | hn
        · exact hnone n hn
        · exact hnone' n (by simpa [ho] using hn)

/-- `lookup` always answers; it changes the content only up to order, and
finds a match exactly when the content has one. -/
theorem lookup_spec {m : HashMap α} (h : Inv m) (hc : Nat) (eq : α → Bool) :
    ∃ m' r, m.lookup hc eq = some (m', r) ∧ Inv m' ∧ m.rehashing = some m' ∧
      m'.nodes.Perm m.nodes ∧
      (∀ n, r = some n → n ∈ m.nodes ∧ n.hashCode = hc ∧ eq n.ptr = true) ∧
      (r = none → ∀ n ∈ m.nodes, ¬ (n.hashCode = hc ∧ eq n.ptr = true)) := by
  obtain ⟨m1, hr, h1, hp⟩ := rehashing_spec h
  rcases search_cases h1 hc eq with ⟨fr, n, hl, hd, hn, hm⟩ |
      ⟨o, fr, n, hl, ho, hl', hd, hn, hm⟩ | ⟨hl, hlo, hnone⟩
  · refine ⟨m1, some n, by simp [lookup, hr, hl, hd], h1, hr, hp, ?_, by simp⟩
    rintro x ⟨⟩
    exact ⟨hp.mem_iff.mp hn, hm⟩
  · refine ⟨m1, some n, by simp [lookup, hr, hl, ho, hl', hd], h1, hr, hp, ?_, by simp⟩
    rintro x ⟨⟩
    exact ⟨hp.mem_iff.mp hn, hm⟩
  · refine ⟨m1, none, ?_, h1, hr, hp, by simp, fun _ n hn => hnone n (hp.mem_iff.mpr hn)⟩
    cases ho : m1.older with
    | none => simp [lookup, hr, hl, ho]
    | some o => simp [lookup, hr, hl, ho, hlo o ho]

/-- One node of the map is unlinked, in the one table or the other. -/
inductive Detached (m : HashMap α) : HashMap α → Prop
  | newer {t : HashTab α} {fr : From} {n : HashNode α} (hd : htDetach m.newer fr = some (n, t)) :
      Detached m { m with newer := t }
  | older {o t : HashTab α} {fr : From} {n : HashNode α} (ho : m.older = some o)
      (hd : htDetach o fr = some (n, t)) : Detached m { m with older := some t }

/-- `remove` always answers; it takes a match out of the content, or there
was none and the content stays. -/
theorem remove_spec {m : HashMap α} (h : Inv m) (hc : Nat) (eq : α → Bool) :
    ∃ m' r, m.remove hc eq = some (m', r) ∧ Inv m' ∧
      (∃ m1, m.rehashing = some m1 ∧ (m' = m1 ∨ Detached m1 m')) ∧
      (∀ n, r = some n → m.nodes.Perm (n :: m'.nodes) ∧ n.hashCode = hc ∧ eq n.ptr = true) ∧
      (r = none → m'.nodes.Perm m.nodes ∧
        ∀ n ∈ m.nodes, ¬ (n.hashCode = hc ∧ eq n.ptr = true)) := by
  obtain ⟨m1, hr, h1, hp⟩ := rehashing_spec h
  rcases search_cases h1 hc eq with ⟨fr, n, hl, hd, hn, hm⟩ |
      ⟨o, fr, n, hl, ho, hl', hd, hn, hm⟩ | ⟨hl, hlo, hnone⟩
  · obtain ⟨t, hdet, ht, -, -, -, hpt, -⟩ := htDetach_spec h1.newer hd
    refine ⟨{ m1 with newer := t }, some n, by simp [remove, hr, hl, hdet], ⟨ht, h1.older⟩,
      ⟨m1, hr, .inr (.newer hdet)⟩, ?_, by simp⟩
    rintro x ⟨⟩
    exact ⟨hp.symm.trans (hpt.append_right _), hm⟩
  · obtain ⟨hto, hdo⟩ := h1.older o ho
    obtain ⟨t, hdet, ht, -, -, -, hpt, chain, hchain, htab⟩ := htDetach_spec hto hd
    refine ⟨{ m1 with older := some t }, some n, by simp [remove, hr, hl, ho, hl', hdet],
      ⟨h1.newer, ?_⟩, ⟨m1, hr, .inr (.older ho hdet)⟩, ?_, by simp⟩
    · intro o' h'
      cases h'
      exact ⟨ht, hdo.set_erase hchain htab⟩
    · rintro x ⟨⟩
      refine ⟨hp.symm.trans ?_, hm⟩
      simp only [nodes, ho]
      exact (hpt.append_left _).trans List.perm_middle
  · refine ⟨m1, none, ?_, h1, ⟨m1, hr, .inl rfl⟩, by simp,
      fun _ => ⟨hp, fun n hn => hnone n (hp.mem_iff.mpr hn)⟩⟩
    cases ho : m1.older with
    | none => simp [remove, hr, hl, ho]
    | some o => simp [remove, hr, hl, ho, hlo o ho]

end HashMap

/-! ## Traversals -/

section Walk

variable {β : Type}

/-- The nodes in turn, up to the first no: the argument at the end, the calls,
and whether there was no no. -/
def walk (f : β → α → β × Bool) : List α → β → β × List (α × Bool) × Bool
  | [], arg => (arg, [], true)
  | n :: rest, arg =>
    if (f arg n).2 = false then ((f arg n).1, [(n, false)], false)
    else
      let r := walk f rest (f arg n).1
      (r.1, (n, true) :: r.2.1, r.2.2)

variable (f : β → α → β × Bool)

theorem walk_append (l l' : List α) (arg : β) : walk f (l ++ l') arg =
    if (walk f l arg).2.2 = false then walk f l arg
    else
      let r := walk f l' (walk f l arg).1
      (r.1, (walk f l arg).2.1 ++ r.2.1, r.2.2) := by
  induction l generalizing arg with
  | nil => simp [walk]
  | cons n rest ih =>
    rw [List.cons_append, walk, walk]
    by_cases hno : (f arg n).2 = false
    · simp [hno]
    · simp only [if_neg hno, ih]
      split
      · rfl
      · rfl

theorem chainForeach_walk (chain : List (HashNode α)) (arg : β) :
    chainForeach f chain arg = ((walk f (chain.map HashNode.ptr) arg).1,
      (walk f (chain.map HashNode.ptr) arg).2.2) := by
  induction chain generalizing arg with
  | nil => rfl
  | cons n rest ih =>
    rw [chainForeach, List.map_cons, walk]
    rcases f arg n.ptr with ⟨arg', _ | _⟩
    · simp
    · simp [ih]

theorem slotsForeach_walk (slots : List (List (HashNode α))) (arg : β) :
    slotsForeach f slots arg = ((walk f (slots.flatten.map HashNode.ptr) arg).1,
      (walk f (slots.flatten.map HashNode.ptr) arg).2.2) := by
  induction slots generalizing arg with
  | nil => rfl
  | cons chain rest ih =>
    rw [slotsForeach, List.flatten_cons, List.map_append, walk_append, chainForeach_walk]
    cases hb : (walk f (chain.map HashNode.ptr) arg).2.2 with
    | false => simp [hb]
    | true => simp [ih]

theorem htForeach_walk {ht : HashTab α} (h : TabInv ht) (arg : β) :
    htForeach ht f arg = ((walk f (ht.nodes.map HashNode.ptr) arg).1,
      (walk f (ht.nodes.map HashNode.ptr) arg).2.2) := by
  rw [htForeach, if_neg h.mask_ne_zero, slotsForeach_walk]
  rfl

/-- The nodes of the older table, if there is one. -/
def HashMap.olderNodes (m : HashMap α) : List (HashNode α) :=
  match m.older with
  | none => []
  | some o => o.nodes

theorem HashMap.nodes_eq (m : HashMap α) : m.nodes = m.newer.nodes ++ m.olderNodes := by
  unfold nodes olderNodes
  cases m.older with
  | none => rfl
  | some o => rfl

/-- The traversal is two walks, the second one in any case. -/
theorem HashMap.foreach_walk {f : β → α → β × Bool} {m : HashMap α} (h : Inv m) {arg : β} :
    m.foreach f arg = (walk f (m.olderNodes.map HashNode.ptr)
      (walk f (m.newer.nodes.map HashNode.ptr) arg).1).1 := by
  unfold foreach olderNodes
  cases ho : m.older with
  | none => simp [htForeach_walk f h.newer, walk]
  | some o => simp [htForeach_walk f h.newer, htForeach_walk f (h.older o ho).1]

end Walk

end ByoRedis
