import ByoRedis.Container.HashTableCursor
import ByoRedis.Lib.Run

/-!
# Container — what the migrations cost

The loop of `rehashing` counts the nodes that it moves, but not the slots that it
skips, so a single call may pass over a whole table of empty slots. Over a run
this evens out: each slot and each node of a table are passed once in its
migration, and a table is given up only when it holds `k_max_load_factor` nodes
for each of its slots. `HashMap.pending` is what is left to pass, and a call
pays for its turns out of it, or out of the slots that it adds.
-/

namespace ByoRedis

open Relation

variable {α : Type}

/-- The turns that the loop of `rehashing` takes. -/
def rehashingTurns (nwork : Nat) (newer older : HashTab α) (migratePos : Nat) : Nat :=
  if nwork < kRehashingWork ∧ 0 < older.size then
    match hs : older.tab[migratePos]? with
    | none => 0
    | some [] => rehashingTurns nwork newer older (migratePos + 1) + 1
    | some (_ :: _) =>
      match _hd : htDetach older { slot := migratePos, idx := 0 } with
      | none => 0
      | some (node, older') =>
        match htInsert newer node with
        | none => 0
        | some newer' => rehashingTurns (nwork + 1) newer' older' migratePos + 1
  else 0
termination_by (kRehashingWork - nwork) + (older.tab.length - migratePos)
decreasing_by
  · have := (List.getElem?_eq_some_iff.mp hs).1
    omega
  · rw [htDetach_tab_length _hd]
    omega

namespace Rehash

/-- The turns from here on. -/
def turns (c : Rehash α) : Nat := rehashingTurns c.nwork c.newer c.older c.pos

/-- The nodes to move and the slots to skip in the older table. -/
def pending (c : Rehash α) : Nat := c.older.size + (c.older.tab.length - c.pos)

theorem turns_done {c : Rehash α} (h : ¬ c.Going) : c.turns = 0 := by
  rw [turns, rehashingTurns, if_neg (show ¬ (_ ∧ _) from h)]

theorem Turn.turns_eq {c c' : Rehash α} (h : Turn c c') : c.turns = c'.turns + 1 := by
  unfold turns
  cases h with
  | skip hgo hslot =>
    rw [rehashingTurns, if_pos ⟨hgo.1, hgo.2⟩]
    split
    · simp_all
    · rfl
    · simp_all
  | move hgo hslot hdet hins =>
    rw [rehashingTurns, if_pos ⟨hgo.1, hgo.2⟩]
    split
    · simp_all
    · simp_all
    · split
      · simp_all
      · rename_i heq
        rw [hdet] at heq
        cases heq
        rw [hins]

/-- A turn passes one node or one slot. -/
theorem Turn.pending_eq {c c' : Rehash α} (h : Turn c c') (hi : c.Inv) :
    c'.pending + 1 = c.pending := by
  have hlt : c.pos < c.older.tab.length := by
    cases h with
    | skip hgo => exact hi.drained.cursor_lt hi.older hgo.2
    | move hgo => exact hi.drained.cursor_lt hi.older hgo.2
  unfold pending
  cases h with
  | skip hgo hslot =>
    show c.older.size + (c.older.tab.length - (c.pos + 1)) + 1 = _
    omega
  | @move node first next newer older hgo hslot hdet hins =>
    have hder : htDeref c.older { slot := c.pos, idx := 0 } = some first := by
      simp [htDeref, hslot]
    obtain ⟨o₁, hdet₁, -, -, hsize, hpos, -⟩ := htDetach_spec hi.older hder
    cases hdet.symm.trans hdet₁
    have hlen := htDetach_tab_length hdet
    simp only [hlen]
    omega

/-- **The loop** takes a turn for each node and each slot that it passes. -/
theorem Inv.turns_paid {c c' : Rehash α} (h : c.Inv) (ht : ReflTransGen Turn c c') :
    c.turns + c'.pending = c'.turns + c.pending := by
  induction ht with
  | refl => rfl
  | tail hturns hlast ih =>
    have heq := hlast.turns_eq
    have hpass := hlast.pending_eq (h.leads_turns hturns).inv
    omega

end Rehash

theorem Shape.rehashing_width (s : Shape) : s.rehashing.width = s.width := by
  unfold Shape.rehashing
  split
  · rfl
  · split <;> rfl

namespace HashMap

/-- What is left of the migration. -/
def pending (m : HashMap α) : Nat :=
  match m.older with
  | none => 0
  | some o => o.size + (o.mask + 1 - m.migratePos)

/-- The turns of the loop when `rehashing` is called. -/
def turns (m : HashMap α) : Nat :=
  match m.older with
  | none => 0
  | some o => rehashingTurns 0 m.newer o m.migratePos

/-- The turns in a call. -/
def callTurns (m : HashMap α) (c : Call α) : Nat :=
  match m.atRehashing c with
  | none => 0
  | some m₀ => m₀.turns

theorem pending_none {m : HashMap α} (h : m.older = none) : m.pending = 0 := by
  rw [pending, h]

theorem pending_some {m : HashMap α} {o : HashTab α} (h : m.older = some o) :
    m.pending = o.size + (o.mask + 1 - m.migratePos) := by
  rw [pending, h]

/-- **`rehashing`** pays for its turns. -/
theorem rehashing_paid {m m' : HashMap α} (h : Inv m) (hr : m.rehashing = some m') :
    m.turns + m'.pending ≤ m.pending := by
  unfold rehashing at hr
  cases ho : m.older with
  | none =>
    simp only [ho] at hr
    cases hr
    rw [turns, ho, Nat.zero_add]
  | some o =>
    obtain ⟨hto, hdo⟩ := h.older o ho
    have hstart : (m.rehashStart o).Inv := ⟨h.newer, hto, hdo⟩
    obtain ⟨c, hturns, hstop⟩ := hstart.ends
    have hleads := hstart.leads_turns hturns
    have hpaid := hstart.turns_paid hturns
    have hloop : rehashingLoop 0 m.newer o m.migratePos = some (c.newer, c.older, c.pos) :=
      (Rehash.loop_turns hturns).trans (Rehash.loop_done hstop)
    rw [Rehash.turns_done hstop, Nat.zero_add] at hpaid
    have hpend : (m.rehashStart o).pending = m.pending := by
      rw [pending_some ho, Rehash.pending, rehashStart, hto.len]
    have hcount : m.turns = (m.rehashStart o).turns := by
      rw [turns, ho]
      rfl
    rw [hcount, ← hpend, ← hpaid]
    refine Nat.add_le_add_left ?_ _
    simp only [ho, hloop] at hr
    split at hr
    · cases hr
      exact Nat.zero_le _
    · cases hr
      rw [pending_some rfl, Rehash.pending, hleads.inv.older.len]

/-- **`inspect_rehashing`**: a table that is given up has all its slots and nodes to
be passed, which the slots of the new one pay for, and the map is that large. -/
theorem inspectRehashing_paid {m m' : HashMap α}
    (hle : m.older = none → m.newer.size ≤ kMaxLoadFactor * m.shape.width)
    (hi : m.inspectRehashing = some m') :
    m'.pending + 9 * m.shape.width ≤ m.pending + 9 * m'.shape.width ∧
      (m'.shape.width = m.shape.width ∨ 4 * m'.shape.width ≤ m.size) := by
  unfold inspectRehashing at hi
  cases ho : m.older with
  | some o =>
    simp only [ho] at hi
    cases hi
    exact ⟨Nat.le_refl _, .inl rfl⟩
  | none =>
    simp only [ho] at hi
    by_cases hload : (m.newer.mask + 1) * kMaxLoadFactor ≤ m.newer.size
    · rw [if_pos hload] at hi
      cases ht : (htMake ((m.newer.mask + 1) * 2) : Option (HashTab α)) with
      | none => simp [ht] at hi
      | some t =>
        have hmask : t.mask = (m.newer.mask + 1) * 2 - 1 := by
          unfold htMake at ht
          split at ht
          · cases ht
            rfl
          · cases ht
        simp only [ht, Option.some.injEq] at hi
        have hle := hle ho
        subst hi
        rw [pending_some rfl, pending_none ho]
        simp only [shape, size, ho, kMaxLoadFactor] at hle hload ⊢
        omega
    · rw [if_neg hload] at hi
      cases hi
      exact ⟨Nat.le_refl _, .inl rfl⟩

/-- A node that is unlinked makes nothing more. -/
theorem Detached.less {m m' : HashMap α} (hd : Detached m m') (h : Inv m) :
    m'.pending ≤ m.pending ∧ m'.shape.width = m.shape.width ∧ m'.size ≤ m.size := by
  cases hd with
  | newer hd =>
    obtain ⟨hmask, hsize⟩ := htDetach_counts h.newer hd
    refine ⟨Nat.le_refl _, ?_, ?_⟩
    · simp only [shape, hmask]
    · simp only [size]
      omega
  | older ho hd =>
    obtain ⟨hmask, hsize⟩ := htDetach_counts (h.older _ ho).1 hd
    refine ⟨?_, rfl, ?_⟩
    · rw [pending_some ho, pending_some rfl, hmask]
      exact Nat.add_le_add_right (by omega) _
    · simp only [size, ho]
      omega

/-- What has been paid for at some point of a run, with the insertions and the
turns so far. -/
structure Paid (m : HashMap α) (inserts turns : Nat) : Prop where
  inv : Inv m
  load : m.shape.Load
  paid : turns + m.pending + 36 ≤ 9 * m.shape.width
  nodes : m.size ≤ inserts
  wide : m.shape.width = 4 ∨ 4 * m.shape.width ≤ inserts

/-- Whether a call inserts a node. -/
def Call.inserts : Call α → Nat
  | .insert _ => 1
  | _ => 0

theorem load_call {m m' : HashMap α} {c : Call α} (h : Inv m) (hload : m.shape.Load)
    (hc : m.call c = some m') : m'.shape.Load := by
  rcases shape_call h hc with he | he | hd
  · rw [he]
    exact hload.insert
  · rw [he]
    exact hload.rehashing
  · exact hload.rehashing.detach hd

theorem Paid.insert {m m' : HashMap α} {i t : Nat} {node : HashNode α} (h : Paid m i t)
    (hc : m.call (.insert node) = some m') :
    Paid m' (i + 1) (t + m.callTurns (.insert node)) := by
  obtain ⟨m'', hins', hi', hperm⟩ := insert_spec h.inv node
  cases hc.symm.trans hins'
  obtain ⟨ht, hins, hti, hmask, hsize, -⟩ := htInsert_spec h.inv.newer node
  obtain ⟨m₀, hinsp, h₀, -⟩ := inspectRehashing_spec (m := { m with newer := ht }) ⟨hti, h.inv.older⟩
  have hr : m₀.rehashing = some m' := by simpa [HashMap.call, HashMap.insert, hins, hinsp] using hc
  have hturns : m.callTurns (.insert node) = m₀.turns := by
    simp [callTurns, atRehashing, hins, hinsp]
  have hwidth : ({ m with newer := ht } : HashMap α).shape.width = m.shape.width := by
    simp only [shape, hmask]
  have hone : ({ m with newer := ht } : HashMap α).size = m.size + 1 := by
    simp only [size, hsize]
    omega
  have hlt := h.load.total_lt.1
  rw [shape_total] at hlt
  obtain ⟨hpaid, hwide⟩ := inspectRehashing_paid (m := { m with newer := ht })
    (fun _ => by
      have hle : ht.size ≤ ({ m with newer := ht } : HashMap α).size := Nat.le_add_right _ _
      rw [hwidth]
      show ht.size ≤ _
      omega) hinsp
  rw [hwidth] at hpaid hwide
  rw [hone] at hwide
  have hloop := rehashing_paid h₀ hr
  have hwidth' : m'.shape.width = m₀.shape.width := by
    rw [shape_rehashing h₀ hr, Shape.rehashing_width]
  have hpending : ({ m with newer := ht } : HashMap α).pending = m.pending := rfl
  have hnodes := h.nodes
  have hw := h.wide
  have hp := h.paid
  refine ⟨hi', load_call h.inv h.load hc, ?_, ?_, ?_⟩
  · rw [hturns, hwidth']
    omega
  · rw [hi'.size_eq, hperm.length_eq, List.length_cons, ← h.inv.size_eq]
    omega
  · rw [hwidth']
    omega

/-- The two other calls give nothing and take nothing but their turns. -/
theorem Paid.keep {m m₁ m' : HashMap α} {i t : Nat} {c : Call α} (h : Paid m i t)
    (hat : m.atRehashing c = some m) (hr : m.rehashing = some m₁)
    (hend : m' = m₁ ∨ Detached m₁ m') (hc : m.call c = some m') :
    Paid m' i (t + m.callTurns c) := by
  obtain ⟨m₂, hc', hi'⟩ := call_inv h.inv c
  cases hc.symm.trans hc'
  have hturns : m.callTurns c = m.turns := by rw [callTurns, hat]
  have hloop := rehashing_paid h.inv hr
  have hwidth : m₁.shape.width = m.shape.width := by
    rw [shape_rehashing h.inv hr, Shape.rehashing_width]
  obtain ⟨m₂, hr', h₁, hperm⟩ := rehashing_spec h.inv
  cases hr.symm.trans hr'
  have hsize : m₁.size = m.size := by rw [h₁.size_eq, hperm.length_eq, h.inv.size_eq]
  have hless : m'.pending ≤ m₁.pending ∧ m'.shape.width = m₁.shape.width ∧ m'.size ≤ m₁.size := by
    rcases hend with rfl | hdet
    · exact ⟨Nat.le_refl _, rfl, Nat.le_refl _⟩
    · exact hdet.less h₁
  have hnodes := h.nodes
  have hw := h.wide
  have hp := h.paid
  refine ⟨hi', load_call h.inv h.load hc, ?_, by omega, ?_⟩
  · rw [hturns]
    omega
  · rw [hless.2.1, hwidth]
    exact hw

theorem Paid.call {m m' : HashMap α} {i t : Nat} {c : Call α} (h : Paid m i t)
    (hc : m.call c = some m') : Paid m' (i + c.inserts) (t + m.callTurns c) := by
  cases c with
  | insert node => exact h.insert hc
  | lookup hashCode eq =>
    obtain ⟨m₁, r, hl, -, hr, -⟩ := lookup_spec h.inv hashCode eq
    obtain rfl : m₁ = m' := by simpa [HashMap.call, hl] using hc
    exact h.keep rfl hr (.inl rfl) hc
  | remove hashCode eq =>
    obtain ⟨m₁, r, hl, -, ⟨m₂, hr, hend⟩, -⟩ := remove_spec h.inv hashCode eq
    obtain rfl : m₁ = m' := by simpa [HashMap.call, hl] using hc
    exact h.keep rfl hr hend hc

/-- A call, with the turns that it takes. -/
def meter (m : HashMap α) (c : Call α) : Option (HashMap α × Nat) :=
  (m.call c).map fun m' => (m', m.callTurns c)

theorem Paid.run {m m' : HashMap α} {i t : Nat} {calls : List (Call α)} {ts : List Nat}
    (h : Paid m i t) (hrun : Run.run meter m calls = some (m', ts)) :
    Paid m' (i + (calls.map Call.inserts).sum) (t + ts.sum) := by
  induction calls generalizing m i t ts with
  | nil =>
    cases hrun
    simpa using h
  | cons c calls ih =>
    obtain ⟨m₁, t₁, ts₁, hstep, hrest, rfl⟩ := Run.run_cons_inv hrun
    obtain ⟨m₂, hc, he⟩ := Option.map_eq_some_iff.mp hstep
    cases he
    have hpaid := ih (h.call hc) hrest
    simpa only [List.map_cons, List.sum_cons, Nat.add_assoc] using hpaid

/-- **Progressive rehashing is cheap.** In every sequence of calls, the loop of
`rehashing` takes at most nine turns for every four insertions, skipped slots
included, however many lookups and removals there are; and the map never has more
than one slot for every four insertions, unless it is as small as a fresh one. -/
theorem rehashing_amortized (calls : List (Call α)) :
    ∃ (m m' : HashMap α) (ts : List Nat), new = some m ∧
      Run.run meter m calls = some (m', ts) ∧
      4 * ts.sum ≤ 9 * (calls.map Call.inserts).sum ∧
      (m'.newer.mask + 1 = 4 ∨ 4 * (m'.newer.mask + 1) ≤ (calls.map Call.inserts).sum) := by
  obtain ⟨m, hnew, hi, -⟩ := new_spec (α := α)
  have hstep (m : HashMap α) (c : Call α) (h : m.Inv) :
      ∃ m' t, meter m c = some (m', t) ∧ m'.Inv := by
    obtain ⟨m', hc, h'⟩ := call_inv h c
    exact ⟨m', _, by rw [meter, hc, Option.map_some], h'⟩
  obtain ⟨m', ts, hrun, -⟩ := Run.run_total hstep calls hi
  have hstart : Paid m 0 0 := by
    have hload : m.shape.Load := by
      rw [shape_new hnew]
      exact ⟨by decide, by decide⟩
    cases hnew
    exact ⟨hi, hload, Nat.le_refl _, Nat.le_refl _, .inl rfl⟩
  have hpaid := hstart.run hrun
  have hp := hpaid.paid
  have hw := hpaid.wide
  simp only [Nat.zero_add] at hp hw
  refine ⟨m, m', ts, hnew, hrun, ?_, hw⟩
  omega

end HashMap

end ByoRedis
