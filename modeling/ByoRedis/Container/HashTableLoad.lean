import ByoRedis.Container.HashTableInv

/-!
# Container — the load of the hash map

`inspect_rehashing` looks at the load only while there is no migration. That the
newer table is nevertheless never overloaded is a race of numbers: each call
moves `k_rehashing_work` nodes and adds at most one. `Shape` is what the calls
do to the widths and the counters, and `Shape.Load` the invariant of the race.
-/

namespace ByoRedis

variable {α : Type}

namespace HashMap

/-- The calls that change the tables. `eq` is the callback with the key. -/
inductive Call (α : Type) where
  | insert (node : HashNode α)
  | lookup (hashCode : Nat) (eq : α → Bool)
  | remove (hashCode : Nat) (eq : α → Bool)

/-- One call, without its answer. -/
def call (m : HashMap α) : Call α → Option (HashMap α)
  | .insert node => m.insert node
  | .lookup hashCode eq => (m.lookup hashCode eq).map Prod.fst
  | .remove hashCode eq => (m.remove hashCode eq).map Prod.fst

/-- The states of a map between calls, from a fresh map on, when the caller
makes only the calls that `ok` allows. -/
inductive Reachable (ok : HashMap α → Call α → Prop) : HashMap α → Prop
  | new {m : HashMap α} (h : new = some m) : Reachable ok m
  | call {m m' : HashMap α} (h : Reachable ok m) (c : Call α) (hok : ok m c)
      (hc : m.call c = some m') : Reachable ok m'

/-- **Every call is answered**, in any state of a migration. -/
theorem call_inv {m : HashMap α} (h : Inv m) (c : Call α) :
    ∃ m', m.call c = some m' ∧ Inv m' := by
  cases c with
  | insert node =>
    obtain ⟨m', hins, h', -⟩ := insert_spec h node
    exact ⟨m', hins, h'⟩
  | lookup hashCode eq =>
    obtain ⟨m', r, hl, h', -⟩ := lookup_spec h hashCode eq
    exact ⟨m', by simp [call, hl], h'⟩
  | remove hashCode eq =>
    obtain ⟨m', r, hr, h', -⟩ := remove_spec h hashCode eq
    exact ⟨m', by simp [call, hr], h'⟩

theorem Reachable.inv {ok : HashMap α → Call α → Prop} {m : HashMap α} (h : Reachable ok m) :
    Inv m := by
  induction h with
  | new h =>
    obtain ⟨m', hn, hi, -⟩ := new_spec (α := α)
    rw [h] at hn
    cases hn
    exact hi
  | call h c hok hc ih =>
    obtain ⟨m', hc', hi⟩ := call_inv ih c
    rw [hc] at hc'
    cases hc'
    exact hi

end HashMap

/-! ## Widths and counters -/

/-- The number of slots and of nodes of the newer table, and of the older one. -/
structure Shape where
  width : Nat
  count : Nat
  older : Option (Nat × Nat)
deriving DecidableEq

namespace Shape

/-- The nodes of both tables. -/
def total (s : Shape) : Nat := s.count + (match s.older with | some (_, k) => k | none => 0)

/-- `rehashing`: the work of one call, or what is left. -/
def rehashing (s : Shape) : Shape :=
  match s.older with
  | none => s
  | some (w, k) =>
    if k ≤ kRehashingWork then { width := s.width, count := s.count + k, older := none }
    else { s with count := s.count + kRehashingWork, older := some (w, k - kRehashingWork) }

/-- `inspect_rehashing`. -/
def inspectRehashing (s : Shape) : Shape :=
  match s.older with
  | some _ => s
  | none =>
    if s.width * kMaxLoadFactor ≤ s.count then
      { width := s.width * 2, count := 0, older := some (s.width, s.count) }
    else s

/-- `insert`. -/
def insert (s : Shape) : Shape := { s with count := s.count + 1 }.inspectRehashing.rehashing

/-- `remove`, when it has found its node in one of the tables. -/
inductive Detach : Shape → Shape → Prop
  | newer {w k : Nat} {older : Option (Nat × Nat)} : Detach ⟨w, k + 1, older⟩ ⟨w, k, older⟩
  | older {w c w' k : Nat} : Detach ⟨w, c, some (w', k + 1)⟩ ⟨w, c, some (w', k)⟩

/-- What holds between calls. During a migration the newer table is twice as
wide as the older one, and the nodes added since the start are paid for by the
nodes moved: `kRehashingWork` for each, and as many for the call that started. -/
def Load (s : Shape) : Prop :=
  0 < s.width ∧
  match s.older with
  | none => s.count < kMaxLoadFactor * s.width
  | some (w, k) => s.width = 2 * w ∧
      kRehashingWork * s.total + k + kRehashingWork ≤
        kRehashingWork * (kMaxLoadFactor * w) + kMaxLoadFactor * w

/-- The race is won: even one more node would not overload the newer table. -/
theorem Load.total_lt {s : Shape} (h : s.Load) : s.total < kMaxLoadFactor * s.width ∧
    (s.older ≠ none → s.total + 1 < kMaxLoadFactor * s.width) := by
  obtain ⟨hw, h⟩ := h
  cases ho : s.older with
  | none =>
    simp only [ho, total] at h ⊢
    exact ⟨h, fun hne => absurd rfl hne⟩
  | some p =>
    obtain ⟨w, k⟩ := p
    simp only [ho, kRehashingWork, kMaxLoadFactor] at h ⊢
    obtain ⟨h1, h2⟩ := h
    exact ⟨by omega, fun _ => by omega⟩

theorem Load.rehashing {s : Shape} (h : s.Load) : s.rehashing.Load := by
  have hlt := h.total_lt
  obtain ⟨w, c, _ | ⟨w', k⟩⟩ := s
  · exact h
  · by_cases hk : k ≤ kRehashingWork
    · simp only [Shape.rehashing, if_pos hk]
      exact ⟨h.1, hlt.1⟩
    · simp only [Shape.rehashing, if_neg hk]
      simp only [Load, total, kRehashingWork, kMaxLoadFactor] at h hk ⊢
      omega

/-- The call that starts a migration has moved its share when it returns. -/
theorem Load.insert {s : Shape} (h : s.Load) : s.insert.Load := by
  have hlt := h.total_lt
  obtain ⟨w, c, _ | ⟨w', k⟩⟩ := s
  · by_cases hfull : w * kMaxLoadFactor ≤ c + 1
    · by_cases hk : c + 1 ≤ kRehashingWork
      · simp only [Shape.insert, inspectRehashing, if_pos hfull, Shape.rehashing, if_pos hk]
        simp only [Load, kMaxLoadFactor] at h hfull ⊢
        omega
      · simp only [Shape.insert, inspectRehashing, if_pos hfull, Shape.rehashing, if_neg hk]
        simp only [Load, total, kRehashingWork, kMaxLoadFactor] at h hfull hk ⊢
        omega
    · simp only [Shape.insert, inspectRehashing, if_neg hfull, Shape.rehashing]
      simp only [Load, kMaxLoadFactor] at h hfull ⊢
      omega
  · have hroom := hlt.2 (by simp)
    by_cases hk : k ≤ kRehashingWork
    · simp only [Shape.insert, inspectRehashing, Shape.rehashing, if_pos hk]
      simp only [Load, total, kMaxLoadFactor] at h hroom ⊢
      omega
    · simp only [Shape.insert, inspectRehashing, Shape.rehashing, if_neg hk]
      simp only [Load, total, kRehashingWork, kMaxLoadFactor] at h hk ⊢
      omega

theorem Load.detach {s s' : Shape} (h : s.Load) (hd : Detach s s') : s'.Load := by
  cases hd with
  | @newer w k older =>
    cases older with
    | none =>
      simp only [Load, kMaxLoadFactor] at h ⊢
      omega
    | some p =>
      simp only [Load, total, kRehashingWork, kMaxLoadFactor] at h ⊢
      omega
  | older =>
    simp only [Load, total, kRehashingWork, kMaxLoadFactor] at h ⊢
    omega

end Shape

/-! ## The shape of a map -/

namespace HashMap

/-- The widths and counters of a map. -/
def shape (m : HashMap α) : Shape where
  width := m.newer.mask + 1
  count := m.newer.size
  older := m.older.map fun o => (o.mask + 1, o.size)

theorem shape_total (m : HashMap α) : m.shape.total = m.size := by
  unfold shape Shape.total size
  cases m.older with
  | none => rfl
  | some o => rfl

theorem shape_rehashing {m m' : HashMap α} (h : Inv m) (hr : m.rehashing = some m') :
    m'.shape = m.shape.rehashing := by
  unfold rehashing at hr
  cases ho : m.older with
  | none =>
    simp only [ho] at hr
    cases hr
    simp [Shape.rehashing, shape, ho]
  | some o =>
    obtain ⟨hto, hdo⟩ := h.older o ho
    obtain ⟨n', o', p', hrun, -, -, -, hm, hm', hsize, htot, -⟩ :=
      rehashingLoop_spec 0 m.newer o m.migratePos h.newer hto hdo
    simp only [ho, hrun] at hr
    simp only [Shape.rehashing, shape, ho, Option.map_some]
    by_cases hz : o'.size = 0
    · rw [if_pos hz] at hr
      cases hr
      rw [if_pos (by omega)]
      simp only [hm, Option.map_none, Shape.mk.injEq, true_and, and_true]
      omega
    · rw [if_neg hz] at hr
      cases hr
      rw [if_neg (by omega)]
      simp only [hm, hm', Option.map_some, Shape.mk.injEq, Option.some.injEq, Prod.mk.injEq,
        true_and]
      omega

theorem shape_inspectRehashing {m m' : HashMap α} (hi : m.inspectRehashing = some m') :
    m'.shape = m.shape.inspectRehashing := by
  unfold inspectRehashing at hi
  cases ho : m.older with
  | some o =>
    simp only [ho] at hi
    cases hi
    simp [Shape.inspectRehashing, shape, ho]
  | none =>
    simp only [ho] at hi
    simp only [Shape.inspectRehashing, shape, ho, Option.map_none]
    by_cases hload : (m.newer.mask + 1) * kMaxLoadFactor ≤ m.newer.size
    · rw [if_pos hload] at hi ⊢
      unfold htMake at hi
      split at hi
      · cases hi
      · rename_i t ht
        split at ht
        · cases ht
          cases hi
          simp only [Option.map_some, Shape.mk.injEq, and_true]
          omega
        · cases ht
    · rw [if_neg hload] at hi ⊢
      cases hi
      simp [ho]

theorem shape_insert {m m' : HashMap α} {node : HashNode α} (h : Inv m)
    (hins : m.insert node = some m') : m'.shape = m.shape.insert := by
  obtain ⟨t, ht, hti, hmask, hsize, -⟩ := htInsert_spec h.newer node
  have h1 : Inv { m with newer := t } := ⟨hti, h.older⟩
  obtain ⟨m2, hi, h2, -⟩ := inspectRehashing_spec h1
  have hr : m2.rehashing = some m' := by simpa [insert, ht, hi] using hins
  have hshape : ({ m with newer := t } : HashMap α).shape =
      { m.shape with count := m.shape.count + 1 } := by
    simp [shape, hmask, hsize]
  rw [shape_rehashing h2 hr, shape_inspectRehashing hi, hshape]
  rfl

theorem htDetach_counts {ht ht' : HashTab α} {fr : From} {n : HashNode α} (h : TabInv ht)
    (hd : htDetach ht fr = some (n, ht')) : ht'.mask = ht.mask ∧ ht'.size + 1 = ht.size := by
  have hder : htDeref ht fr = some n := by
    unfold htDetach at hd
    unfold htDeref
    split at hd
    · cases hd
    · split at hd
      · cases hd
      · rename_i hget
        cases hd
        exact hget
  obtain ⟨t, hd', -, hmask, hsize, hpos, -⟩ := htDetach_spec h hder
  rw [hd] at hd'
  cases hd'
  exact ⟨hmask, by omega⟩

theorem shape_detached {m m' : HashMap α} (h : Inv m) (hd : Detached m m') :
    Shape.Detach m.shape m'.shape := by
  cases hd with
  | newer hd =>
    obtain ⟨hmask, hsize⟩ := htDetach_counts h.newer hd
    unfold shape
    rw [hmask, ← hsize]
    exact .newer
  | older ho hd =>
    obtain ⟨hmask, hsize⟩ := htDetach_counts (h.older _ ho).1 hd
    unfold shape
    rw [ho, Option.map_some, Option.map_some, hmask, ← hsize]
    exact .older

/-- What a call can do to the widths and the counters. -/
theorem shape_call {m m' : HashMap α} {c : Call α} (h : Inv m) (hc : m.call c = some m') :
    m'.shape = m.shape.insert ∨ m'.shape = m.shape.rehashing ∨
      Shape.Detach m.shape.rehashing m'.shape := by
  cases c with
  | insert node => exact .inl (shape_insert h hc)
  | lookup hashCode eq =>
    obtain ⟨m₁, r, hl, -, hr, -⟩ := lookup_spec h hashCode eq
    obtain rfl : m₁ = m' := by simpa [call, hl] using hc
    exact .inr (.inl (shape_rehashing h hr))
  | remove hashCode eq =>
    obtain ⟨m₁, r, hl, -, ⟨m₂, hr, hm⟩, -⟩ := remove_spec h hashCode eq
    obtain rfl : m₁ = m' := by simpa [call, hl] using hc
    rw [← shape_rehashing h hr]
    rcases hm with rfl | hm
    · exact .inr (.inl rfl)
    · obtain ⟨m₃, hr', h₂, -⟩ := rehashing_spec h
      rw [hr] at hr'
      cases hr'
      exact .inr (.inr (shape_detached h₂ hm))

theorem shape_new {m : HashMap α} (h : new = some m) : m.shape = ⟨4, 0, none⟩ := by
  cases h
  rfl

/-- The invariant of the race, in every state between calls. -/
theorem Reachable.load {ok : HashMap α → Call α → Prop} {m : HashMap α} (h : Reachable ok m) :
    m.shape.Load := by
  induction h with
  | new h =>
    rw [shape_new h]
    exact ⟨by decide, by decide⟩
  | call h c hok hc ih =>
    rcases shape_call h.inv hc with he | he | hd
    · rw [he]
      exact ih.insert
    · rw [he]
      exact ih.rehashing
    · exact ih.rehashing.detach hd

/-! ## A migration that takes more than one call -/

/-- The caller inserts only nodes that are not in the map. -/
def fresh (m : HashMap α) : Call α → Prop
  | .insert node => node.ptr ∉ m.nodes.map HashNode.ptr
  | _ => True

theorem Reachable.weaken {ok : HashMap α → Call α → Prop} {m : HashMap α} (h : Reachable ok m) :
    Reachable (fun _ _ => True) m := by
  induction h with
  | new h => exact .new h
  | call _ c _ hc ih => exact ih.call c trivial hc

/-- The nodes `0`, `1`, ..., `n - 1`, inserted one after the other. -/
def fill (n : Nat) : Option (HashMap Nat) := do
  let m ← new
  (List.range n).foldlM (fun m i => m.call (.insert { ptr := i, hashCode := i })) m

theorem fill_spec (n : Nat) : ∃ m, fill n = some m ∧ Reachable fresh m ∧
    m.shape = Shape.insert^[n] ⟨4, 0, none⟩ ∧ (m.nodes.map HashNode.ptr).Perm (List.range n) := by
  induction n with
  | zero =>
    obtain ⟨m, hn, -, hnil⟩ := new_spec (α := Nat)
    exact ⟨m, by simp [fill, hn], .new hn, shape_new hn, by simp [hnil]⟩
  | succ n ih =>
    obtain ⟨m, hfill, hr, hshape, hp⟩ := ih
    obtain ⟨m', hins, -, hp'⟩ := insert_spec hr.inv { ptr := n, hashCode := n }
    have hnew : n ∉ m.nodes.map HashNode.ptr := by
      rw [hp.mem_iff]
      simp
    refine ⟨m', ?_, hr.call (.insert { ptr := n, hashCode := n }) hnew hins, ?_, ?_⟩
    · simp only [fill, Option.bind_eq_bind, Option.bind_eq_some_iff] at hfill ⊢
      obtain ⟨m₀, h₀, hfold⟩ := hfill
      refine ⟨m₀, h₀, ?_⟩
      rw [List.range_succ, List.foldlM_append, hfold]
      simp [call, hins]
    · rw [shape_insert hr.inv hins, hshape, Function.iterate_succ_apply']
    · rw [List.range_succ]
      exact (hp'.map HashNode.ptr).trans ((hp.cons n).trans (List.perm_append_singleton n _).symm)

/-- The 256th insertion overloads 32 slots. It moves 128 of the nodes. -/
theorem fill_256 : ∃ m, fill 256 = some m ∧ Reachable fresh m ∧
    m.shape = ⟨64, 128, some (32, 128)⟩ := by
  obtain ⟨m, hfill, hr, hshape, -⟩ := fill_spec 256
  exact ⟨m, hfill, hr, hshape.trans (by decide +kernel)⟩

/-! ## The bound -/

/-- **The load factor.** Whatever calls are made, between them the size of the
map is below the threshold of the newer table. During a migration that table is
twice as wide as the older one and keeps below its threshold, also with the node
that an `insert` adds before it skips the check, and wherever the nodes of the
older table are. Every further call is answered. -/
theorem load_factor_bound (m : HashMap α) (h : Reachable (fun _ _ => True) m) :
    m.size < kMaxLoadFactor * (m.newer.mask + 1) ∧
      (∀ o, m.older = some o → m.newer.mask + 1 = 2 * (o.mask + 1) ∧
        m.newer.size < kMaxLoadFactor * (m.newer.mask + 1) ∧
        m.size + 1 < kMaxLoadFactor * (m.newer.mask + 1)) ∧
      ∀ c, ∃ m', m.call c = some m' ∧ Reachable (fun _ _ => True) m' := by
  have hload := h.load
  obtain ⟨hlt, hroom⟩ := hload.total_lt
  rw [shape_total] at hlt hroom
  refine ⟨hlt, ?_, ?_⟩
  · intro o ho
    have hw : m.newer.mask + 1 = 2 * (o.mask + 1) := by
      have := hload.2
      simp only [shape, ho, Option.map_some] at this
      exact this.1
    have hsize : m.newer.size ≤ m.size := Nat.le_add_right _ _
    exact ⟨hw, Nat.lt_of_le_of_lt hsize hlt, hroom (by simp [shape, ho])⟩
  · intro c
    obtain ⟨m', hc, -⟩ := call_inv h.inv c
    exact ⟨m', hc, h.call c trivial hc⟩

/-- In a migration, half of the nodes moved. -/
theorem load_factor_bound_migrating : ∃ m o, fill 256 = some m ∧ m.older = some o ∧
    m.size < kMaxLoadFactor * (m.newer.mask + 1) ∧ m.newer.mask + 1 = 2 * (o.mask + 1) ∧
    m.newer.size < kMaxLoadFactor * (m.newer.mask + 1) := by
  obtain ⟨m, hfill, hr, hshape⟩ := fill_256
  obtain ⟨hlt, hmig, -⟩ := load_factor_bound m hr.weaken
  obtain ⟨o, ho, -⟩ := Option.map_eq_some_iff.mp (congrArg Shape.older hshape)
  exact ⟨m, o, hfill, ho, hlt, (hmig o ho).1, (hmig o ho).2.1⟩

end HashMap

end ByoRedis
