import ByoRedis.Container.HashTableLoad

/-!
# Container — which nodes a traversal visits

`HashMap::foreach` with a callback that may say no. Each table is walked up to
the first no, but the answer of the walk over the newer table is not looked at:
with nodes left in the older table, the callback is called again.
-/

namespace ByoRedis

variable {α β : Type}

/-! ## A callback and its calls -/

/-- The callback, and a record of its calls: the node and the answer. -/
def logged (f : β → α → β × Bool) (arg : β × List (α × Bool)) (n : α) :
    (β × List (α × Bool)) × Bool :=
  (((f arg.1 n).1, arg.2 ++ [(n, (f arg.1 n).2)]), (f arg.1 n).2)

/-- The callback says no to one of the nodes, when called on them in turn. -/
def SaysNo (f : β → α → β × Bool) : List α → β → Prop
  | [], _ => False
  | n :: rest, arg => (f arg n).2 = false ∨ SaysNo f rest (f arg n).1

/-- No call after the first no. -/
def StopsAtNo (calls : List (α × Bool)) : Prop :=
  ∀ pre n post, calls = pre ++ (n, false) :: post → post = []

theorem not_saysNo {f : β → α → β × Bool} (h : ∀ arg n, (f arg n).2 = true) (l : List α)
    (arg : β) : ¬ SaysNo f l arg := by
  induction l generalizing arg with
  | nil => exact id
  | cons n rest ih => simp [SaysNo, h, ih]

/-- After a no among the calls there are none. -/
theorem StopsAtNo.eq_nil {a b : List (α × Bool)} {n : α} (h : StopsAtNo (a ++ b))
    (hn : (n, false) ∈ a) : b = [] := by
  obtain ⟨pre, post, rfl⟩ := List.append_of_mem hn
  have hnil := h pre n (post ++ b) (by simp)
  exact (List.append_eq_nil_iff.mp hnil).2

theorem StopsAtNo.append {a b : List (α × Bool)} (ha : ∀ c ∈ a, c.2 = true) (hb : StopsAtNo b) :
    StopsAtNo (a ++ b) := by
  induction a with
  | nil => exact hb
  | cons c a ih =>
    rw [List.forall_mem_cons] at ha
    intro pre n post h
    cases pre with
    | nil =>
      rw [(List.cons.inj h).1] at ha
      exact absurd ha.1 (by simp)
    | cons c' pre => exact ih ha.2 pre n post (List.cons.inj h).2

section Walk

variable (f : β → α → β × Bool)

/-- With the record: the same walk, and its calls behind those before. -/
theorem walk_logged (l : List α) (arg : β) (calls : List (α × Bool)) :
    walk (logged f) l (arg, calls) = (((walk f l arg).1, calls ++ (walk f l arg).2.1),
      (walk f l arg).2.1, (walk f l arg).2.2) := by
  induction l generalizing arg calls with
  | nil => simp [walk]
  | cons n rest ih =>
    by_cases hno : (f arg n).2 = false
    · simp [walk, logged, hno]
    · simp [walk, logged, hno, ih]

theorem walk_initial (l : List α) (arg : β) : (walk f l arg).2.1.map Prod.fst <+: l := by
  induction l generalizing arg with
  | nil => exact List.prefix_refl _
  | cons n rest ih =>
    rw [walk]
    split
    · exact List.prefix_append [n] rest
    · exact (List.prefix_cons_inj n).mpr (ih _)

/-- A walk without a no has only calls without a no. -/
theorem walk_yes (l : List α) (arg : β) (h : ¬ SaysNo f l arg) :
    ∀ c ∈ (walk f l arg).2.1, c.2 = true := by
  induction l generalizing arg with
  | nil => simp [walk]
  | cons n rest ih =>
    rw [SaysNo, not_or] at h
    rw [walk, if_neg h.1]
    intro c hc
    rcases List.mem_cons.mp hc with rfl | hc
    · rfl
    · exact ih _ h.2 c hc

theorem walk_no (l : List α) (arg : β) (h : SaysNo f l arg) :
    ∃ n, (n, false) ∈ (walk f l arg).2.1 := by
  induction l generalizing arg with
  | nil => cases h
  | cons n rest ih =>
    rw [walk]
    split
    · exact ⟨n, by simp⟩
    · rename_i hyes
      rw [SaysNo] at h
      obtain ⟨x, hx⟩ := ih _ (h.resolve_left hyes)
      exact ⟨x, List.mem_cons_of_mem _ hx⟩

theorem walk_stops (l : List α) (arg : β) : StopsAtNo (walk f l arg).2.1 := by
  induction l generalizing arg with
  | nil =>
    intro pre n post h
    simp [walk] at h
  | cons n rest ih =>
    intro pre x post h
    rw [walk] at h
    split at h
    · cases pre with
      | nil => exact (List.cons.inj h).2.symm
      | cons c pre => simp at h
    · cases pre with
      | nil => simp at h
      | cons c pre => exact ih _ pre x post (List.cons.inj h).2

theorem walk_calls_ne_nil {l : List α} (arg : β) (h : l ≠ []) : (walk f l arg).2.1 ≠ [] := by
  cases l with
  | nil => exact absurd rfl h
  | cons n rest =>
    rw [walk]
    split
    · exact List.cons_ne_nil _ _
    · exact List.cons_ne_nil _ _

end Walk

/-! ## The map -/

namespace HashMap

/-- The calls that a traversal makes, in order. -/
def calls (m : HashMap α) (f : β → α → β × Bool) (arg : β) : List (α × Bool) :=
  (m.foreach (logged f) (arg, [])).2

variable {m m' : HashMap α} (f : β → α → β × Bool) (arg : β)

/-- The traversal makes the calls of two walks, the second one in any case. -/
theorem foreach_calls (h : Inv m) : m.calls f arg =
    (walk f (m.newer.nodes.map HashNode.ptr) arg).2.1 ++
      (walk f (m.olderNodes.map HashNode.ptr)
        (walk f (m.newer.nodes.map HashNode.ptr) arg).1).2.1 := by
  rw [calls, foreach_walk h, walk_logged, walk_logged, List.nil_append]

/-- The record does not change the traversal. -/
theorem foreach_logged (h : Inv m) : (m.foreach (logged f) (arg, [])).1 = m.foreach f arg := by
  rw [foreach_walk h, foreach_walk h, walk_logged, walk_logged]

/-- The nodes of a reachable map are pairwise distinct. -/
theorem Reachable.nodup (h : Reachable fresh m) : (m.nodes.map HashNode.ptr).Nodup := by
  induction h with
  | new h =>
    obtain ⟨m', hn, -, hnil⟩ := new_spec (α := α)
    rw [h] at hn
    cases hn
    simp [hnil]
  | @call m m' h c hok hc ih =>
    cases c with
    | insert node =>
      obtain ⟨m₁, hins, -, hp⟩ := insert_spec h.inv node
      obtain rfl : m₁ = m' := Option.some.inj (hins.symm.trans hc)
      rw [(hp.map HashNode.ptr).nodup_iff, List.map_cons, List.nodup_cons]
      exact ⟨hok, ih⟩
    | lookup hashCode eq =>
      obtain ⟨m₁, r, hl, -, -, hp, -⟩ := lookup_spec h.inv hashCode eq
      obtain rfl : m₁ = m' := by simpa [HashMap.call, hl] using hc
      exact (hp.map HashNode.ptr).nodup_iff.mpr ih
    | remove hashCode eq =>
      obtain ⟨m₁, r, hl, -, -, hsome, hnone⟩ := remove_spec h.inv hashCode eq
      obtain rfl : m₁ = m' := by simpa [HashMap.call, hl] using hc
      cases r with
      | none => exact ((hnone rfl).1.map HashNode.ptr).nodup_iff.mpr ih
      | some n =>
        have hnd := (((hsome n rfl).1.map HashNode.ptr).nodup_iff).mp ih
        exact (List.nodup_cons.mp hnd).2

/-- The traversal keeps what it promises: pairwise distinct nodes of the map,
and no call after the first no. -/
structure ForeachOk (m : HashMap α) (f : β → α → β × Bool) (arg : β) : Prop where
  distinct : ((m.calls f arg).map Prod.fst).Nodup
  nodes : ∀ n ∈ (m.calls f arg).map Prod.fst, n ∈ m.nodes.map HashNode.ptr
  stops : StopsAtNo (m.calls f arg)

/-- In order and without a repetition, whatever the callback answers. -/
theorem calls_sublist (h : Inv m) :
    ((m.calls f arg).map Prod.fst).Sublist (m.nodes.map HashNode.ptr) := by
  rw [foreach_calls f arg h, nodes_eq, List.map_append, List.map_append]
  exact (walk_initial f _ _).sublist.append (walk_initial f _ _).sublist

theorem calls_stops_iff (h : Inv m) : StopsAtNo (m.calls f arg) ↔
    (m.olderNodes = [] ∨ ¬ SaysNo f (m.newer.nodes.map HashNode.ptr) arg) := by
  rw [foreach_calls f arg h]
  constructor
  · -- a no in the newer table, and a node in the older one: a call after the no
    intro hstop
    by_contra hcon
    rw [not_or, not_not] at hcon
    obtain ⟨n, hn⟩ := walk_no f _ arg hcon.2
    exact walk_calls_ne_nil f _ (by simpa using hcon.1) (hstop.eq_nil hn)
  · rintro (hnil | hyes)
    · simp only [hnil, List.map_nil, walk, List.append_nil]
      exact walk_stops f _ arg
    · exact .append (walk_yes f _ arg hyes) (walk_stops f _ _)

/-- **Early stop.** In every reachable state and for every callback, the
traversal keeps its promise exactly if it finds no node in the older table, or
the callback says no to none of the nodes in the newer one. Its calls are those of
the callback with the record, which does what the callback does without it. -/
theorem foreach_early_stop_iff (m : HashMap α) (h : Reachable fresh m) (f : β → α → β × Bool)
    (arg : β) : (m.foreach (logged f) (arg, [])).1 = m.foreach f arg ∧
      (ForeachOk m f arg ↔
        (m.olderNodes = [] ∨ ¬ SaysNo f (m.newer.nodes.map HashNode.ptr) arg)) := by
  refine ⟨foreach_logged f arg h.inv, ?_⟩
  rw [← calls_stops_iff f arg h.inv]
  have hsub := calls_sublist f arg h.inv
  constructor
  · exact ForeachOk.stops
  · intro hstop
    exact ⟨hsub.nodup h.nodup, fun n hn => hsub.subset hn, hstop⟩

/-- Collecting the nodes in the middle of a migration. -/
theorem foreach_early_stop_collect : ∃ m, fill 256 = some m ∧
    ForeachOk m (fun acc n => (acc ++ [n], true)) [] := by
  obtain ⟨m, hfill, hr, -⟩ := fill_256
  refine ⟨m, hfill, (foreach_early_stop_iff m hr _ []).2.mpr (.inr ?_)⟩
  exact not_saysNo (fun _ _ => rfl) _ _

/-- A callback that says no at once, in the middle of a migration: it is called
twice. -/
theorem foreach_ignores_no : ∃ m, fill 256 = some m ∧ Reachable fresh m ∧
    (m.calls (fun _ _ => ((), false)) ()).length = 2 ∧
    ¬ ForeachOk m (fun _ _ => ((), false)) () := by
  obtain ⟨m, hfill, hr, hshape⟩ := fill_256
  have hnewer : 0 < (m.newer.nodes.map HashNode.ptr).length := by
    have hsize : m.newer.size = 128 := congrArg Shape.count hshape
    rw [List.length_map, ← hr.inv.newer.count, hsize]
    decide
  have holder : 0 < (m.olderNodes.map HashNode.ptr).length := by
    obtain ⟨o, ho, hsize⟩ := Option.map_eq_some_iff.mp (congrArg Shape.older hshape)
    rw [List.length_map, olderNodes, ho, ← (hr.inv.older o ho).1.count, (Prod.mk.inj hsize).2]
    decide
  obtain ⟨n, l, hl⟩ := List.exists_cons_of_length_pos hnewer
  obtain ⟨n', l', hl'⟩ := List.exists_cons_of_length_pos holder
  have hcalls : m.calls (fun _ _ => ((), false)) () = [(n, false), (n', false)] := by
    rw [foreach_calls _ _ hr.inv]
    simp [hl, hl', walk]
  refine ⟨m, hfill, hr, by rw [hcalls]; rfl, fun hok => ?_⟩
  have hstop := hok.stops [] n [(n', false)] (by rw [hcalls]; rfl)
  exact absurd hstop (List.cons_ne_nil _ _)

end HashMap

end ByoRedis
