import ByoRedis.Lib.Run
import ByoRedis.Container.HashTableInv

/-!
# Container — the hash map is a finite set of nodes

The calls of a `HashMap` against their meaning on a `Finset` of nodes,
whatever state the migration is in. `keyOf` is the key that the payload of a
node carries and `hash` the function its hash code was computed with, so the
callers' `eq` is equality of keys and equal keys have equal hash codes; both
are arbitrary, a constant `hash` included.
-/

namespace ByoRedis.HashMap

open Run

variable {α κ : Type}

/-- The calls. -/
inductive Op (α κ : Type) where
  | insert (node : α)
  | lookup (key : κ)
  | remove (key : κ)
  | foreach
  | size

/-- Their answers; `visited` are the nodes a `foreach` whose callback always
returns true called it on, in order. -/
inductive Out (α : Type) where
  | done
  | node (r : Option α)
  | visited (l : List α)
  | count (n : Nat)

/-- One call on the map. -/
def exec [DecidableEq κ] (keyOf : α → κ) (hash : κ → Nat) (m : HashMap α) :
    Op α κ → Option (HashMap α × Out α)
  | .insert node =>
    (m.insert { ptr := node, hashCode := hash (keyOf node) }).map (fun m' => (m', .done))
  | .lookup key =>
    (m.lookup (hash key) (fun n => keyOf n = key)).map
      (fun (m', r) => (m', .node (r.map HashNode.ptr)))
  | .remove key =>
    (m.remove (hash key) (fun n => keyOf n = key)).map
      (fun (m', r) => (m', .node (r.map HashNode.ptr)))
  | .foreach => some (m, .visited (m.foreach (fun acc n => (acc ++ [n], true)) []))
  | .size => some (m, .count m.size)

/-- A sequence of calls on a fresh map. -/
def execAll [DecidableEq κ] (keyOf : α → κ) (hash : κ → Nat) (ops : List (Op α κ)) :
    Option (HashMap α × List (Out α)) :=
  match HashMap.new with
  | none => none
  | some m => run (exec keyOf hash) m ops

/-! ## The reference: a finite set -/

/-- `r` is the node of the set that carries the key, if there is one. -/
def Finds (keyOf : α → κ) (s : Finset α) (key : κ) (r : Option α) : Prop :=
  ∀ n, r = some n ↔ n ∈ s ∧ keyOf n = key

/-- What each call means on a set of nodes. -/
def setSpec [DecidableEq α] (keyOf : α → κ) (s : Finset α) : Op α κ → Out α → Finset α → Prop
  | .insert node, .done, s' => s' = Insert.insert node s
  | .lookup key, .node r, s' => s' = s ∧ Finds keyOf s key r
  | .remove key, .node r, s' =>
    Finds keyOf s key r ∧ s' = (match r with | some n => s.erase n | none => s)
  | .foreach, .visited l, s' => s' = s ∧ l.Nodup ∧ l.toFinset = s
  | .size, .count n, s' => s' = s ∧ n = s.card
  | _, _, _ => False

/-- The callers look up first: a node is inserted only if it is not in the
map and its key is not present. -/
def setPre (keyOf : α → κ) (s : Finset α) : Op α κ → Prop
  | .insert node => node ∉ s ∧ ∀ n ∈ s, keyOf n ≠ keyOf node
  | _ => True

/-- Equal answers, up to the order of a traversal. -/
def Out.Same : Out α → Out α → Prop
  | .visited l, .visited l' => l.Perm l'
  | o, o' => o = o'

theorem Finds.unique {keyOf : α → κ} {s : Finset α} {key : κ} {r r' : Option α}
    (h : Finds keyOf s key r) (h' : Finds keyOf s key r') : r = r' := by
  apply Option.ext
  intro n
  rw [h n, h' n]

/-- The set determines every answer and the next set. -/
theorem setSpec_det [DecidableEq α] (keyOf : α → κ) (s : Finset α) (op : Op α κ) (o o' : Out α)
    (s₁ s₂ : Finset α) (h₁ : setSpec keyOf s op o s₁) (h₂ : setSpec keyOf s op o' s₂) :
    s₁ = s₂ ∧ Out.Same o o' := by
  cases op <;> cases o <;> simp only [setSpec] at h₁ <;> cases o' <;> simp only [setSpec] at h₂
  case insert.done.done => exact ⟨h₁.trans h₂.symm, rfl⟩
  case lookup.node.node => exact ⟨h₁.1.trans h₂.1.symm, by rw [h₁.2.unique h₂.2]; rfl⟩
  case remove.node.node =>
    have hr := h₁.1.unique h₂.1
    subst hr
    exact ⟨h₁.2.trans h₂.2.symm, rfl⟩
  case foreach.visited.visited =>
    refine ⟨h₁.1.trans h₂.1.symm, ?_⟩
    refine (List.perm_ext_iff_of_nodup h₁.2.1 h₂.2.1).mpr (fun a => ?_)
    rw [← List.mem_toFinset, h₁.2.2, ← h₂.2.2, List.mem_toFinset]
  case size.count.count => exact ⟨h₁.1.trans h₂.1.symm, by rw [h₁.2, h₂.2]; rfl⟩

/-! ## The traversal -/

theorem walk_fold {β : Type} (f : β → α → β) (l : List α) (acc : β) :
    (walk (fun acc n => (f acc n, true)) l acc).1 = l.foldl f acc := by
  induction l generalizing acc with
  | nil => rfl
  | cons n rest ih => simp [walk, ih]

/-- A callback that never says no is called on every node, once. -/
theorem foreach_fold {β : Type} {m : HashMap α} (h : Inv m) (f : β → α → β) (acc : β) :
    m.foreach (fun acc n => (f acc n, true)) acc = (m.nodes.map HashNode.ptr).foldl f acc := by
  rw [foreach_walk h, walk_fold, walk_fold, nodes_eq, List.map_append, List.foldl_append]

theorem foreach_collect {m : HashMap α} (h : Inv m) :
    m.foreach (fun acc n => (acc ++ [n], true)) [] = m.nodes.map HashNode.ptr := by
  rw [foreach_fold h (fun acc n => acc ++ [n])]
  rw [List.foldl_append_eq_append, List.nil_append, ← List.flatMap_def, List.flatMap_singleton']

/-! ## The simulation -/

section Simulation

variable [DecidableEq α]

/-- The map holds exactly the nodes of the set, each once and under its own
hash code, and no two of one key. -/
structure Holds (keyOf : α → κ) (hash : κ → Nat) (m : HashMap α) (s : Finset α) : Prop where
  inv : Inv m
  codes : ∀ n ∈ m.nodes, n.hashCode = hash (keyOf n.ptr)
  nodup : (m.nodes.map HashNode.ptr).Nodup
  content : (m.nodes.map HashNode.ptr).toFinset = s
  keys : ∀ a ∈ s, ∀ b ∈ s, keyOf a = keyOf b → a = b

variable {keyOf : α → κ} {hash : κ → Nat} {m m' : HashMap α} {s : Finset α}

theorem Holds.mem_iff (h : Holds keyOf hash m s) (a : α) :
    a ∈ s ↔ ∃ n ∈ m.nodes, n.ptr = a := by
  rw [← h.content]
  simp

/-- Migration work is not visible in the set. -/
theorem Holds.of_perm (h : Holds keyOf hash m s) (hi : Inv m') (hp : m'.nodes.Perm m.nodes) :
    Holds keyOf hash m' s where
  inv := hi
  codes := fun n hn => h.codes n (hp.mem_iff.mp hn)
  nodup := (hp.map HashNode.ptr).nodup_iff.mpr h.nodup
  content := by rw [List.toFinset_eq_of_perm _ _ (hp.map HashNode.ptr), h.content]
  keys := h.keys

/-- Only the keys of the content matter. -/
theorem Holds.congr {keyOf' : α → κ} (h : Holds keyOf hash m s)
    (heq : ∀ a ∈ s, keyOf' a = keyOf a) : Holds keyOf' hash m s where
  inv := h.inv
  codes := by
    intro n hn
    rw [h.codes n hn, heq n.ptr ((h.mem_iff _).mpr ⟨n, hn, rfl⟩)]
  nodup := h.nodup
  content := h.content
  keys := by
    intro a ha b hb hab
    rw [heq a ha, heq b hb] at hab
    exact h.keys a ha b hb hab

/-- The counters count the set. -/
theorem Holds.size_eq (h : Holds keyOf hash m s) : m.size = s.card := by
  rw [h.inv.size_eq, ← h.content, List.toFinset_card_of_nodup h.nodup, List.length_map]

/-- `insert` of a new node under a new key. -/
theorem Holds.insert (h : Holds keyOf hash m s) (node : α) (hfresh : node ∉ s)
    (hkey : ∀ n ∈ s, keyOf n ≠ keyOf node) :
    ∃ m', m.insert { ptr := node, hashCode := hash (keyOf node) } = some m' ∧
      Holds keyOf hash m' (Insert.insert node s) := by
  obtain ⟨m', hins, hi, hp⟩ := insert_spec h.inv { ptr := node, hashCode := hash (keyOf node) }
  refine ⟨m', hins, hi, ?_, ?_, ?_, ?_⟩
  · intro n hn
    rcases List.mem_cons.mp (hp.mem_iff.mp hn) with rfl | hn
    · rfl
    · exact h.codes n hn
  · rw [(hp.map HashNode.ptr).nodup_iff, List.map_cons, List.nodup_cons]
    refine ⟨fun hmem => hfresh ?_, h.nodup⟩
    rw [← h.content]
    simpa using hmem
  · rw [List.toFinset_eq_of_perm _ _ (hp.map HashNode.ptr), List.map_cons,
      List.toFinset_cons, h.content]
  · intro a ha b hb hab
    rcases Finset.mem_insert.mp ha with ha' | ha' <;>
      rcases Finset.mem_insert.mp hb with hb' | hb'
    · rw [ha', hb']
    · exact absurd (by rw [← hab, ha']) (hkey b hb')
    · exact absurd (by rw [hab, hb']) (hkey a ha')
    · exact h.keys a ha' b hb' hab

/-- What is left once a node has been detached. -/
theorem Holds.erase (h : Holds keyOf hash m s) {n : HashNode α} (hi : Inv m')
    (hp : m.nodes.Perm (n :: m'.nodes)) : Holds keyOf hash m' (s.erase n.ptr) := by
  have hpm := hp.map HashNode.ptr
  have hnd : (n.ptr :: m'.nodes.map HashNode.ptr).Nodup := hpm.nodup_iff.mp h.nodup
  have hsub : ∀ a ∈ s.erase n.ptr, a ∈ s := fun a ha => Finset.mem_of_mem_erase ha
  refine ⟨hi, ?_, (List.nodup_cons.mp hnd).2, ?_,
    fun a ha b hb => h.keys a (hsub a ha) b (hsub b hb)⟩
  · exact fun x hx => h.codes x (hp.mem_iff.mpr (List.mem_cons_of_mem _ hx))
  · rw [← h.content, List.toFinset_eq_of_perm _ _ hpm, List.map_cons, List.toFinset_cons,
      Finset.erase_insert]
    simpa using (List.nodup_cons.mp hnd).1

/-- `remove` with a callback that singles out one node of the set. -/
theorem Holds.remove_only (h : Holds keyOf hash m s) (eq : α → Bool) {a : α} (ha : a ∈ s)
    (heq : ∀ b ∈ s, eq b = true ↔ b = a) :
    ∃ m' n, m.remove (hash (keyOf a)) eq = some (m', some n) ∧ n.ptr = a ∧
      Holds keyOf hash m' (s.erase a) := by
  obtain ⟨m', r, hl, hi, -, hsome, hnone⟩ := remove_spec h.inv (hash (keyOf a)) eq
  cases r with
  | none =>
    obtain ⟨n, hn, rfl⟩ := (h.mem_iff a).mp ha
    exact absurd ⟨h.codes n hn, (heq _ ha).mpr rfl⟩ ((hnone rfl).2 n hn)
  | some n =>
    obtain ⟨hp, -, he⟩ := hsome n rfl
    have hns : n.ptr ∈ s := (h.mem_iff _).mpr ⟨n, hp.mem_iff.mpr List.mem_cons_self, rfl⟩
    have hna : n.ptr = a := (heq _ hns).mp he
    refine ⟨m', n, hl, hna, ?_⟩
    rw [← hna]
    exact h.erase hi hp

theorem new_holds (keyOf : α → κ) (hash : κ → Nat) :
    ∃ m : HashMap α, HashMap.new = some m ∧ Holds keyOf hash m ∅ := by
  obtain ⟨m, hn, hi, hnil⟩ := new_spec (α := α)
  exact ⟨m, hn, hi, by simp [hnil], by simp [hnil], by simp [hnil], by simp⟩

/-- Leaving out a `lookup` keeps a sequence admissible, and the acceptances
of the two sequences agree from there on. -/
theorem accepts_skip_lookup {pre post : List (Op α κ)} {key : κ} {outs : List (Out α)}
    {s : Finset α} (hadm : Admissible (setSpec keyOf) (setPre keyOf) ∅ (pre ++ .lookup key :: post))
    (ha : Accepts (setSpec keyOf) ∅ (pre ++ .lookup key :: post) outs s) :
    Admissible (setSpec keyOf) (setPre keyOf) ∅ (pre ++ post) ∧
      ∀ outs' s', Accepts (setSpec keyOf) ∅ (pre ++ post) outs' s' →
        List.Forall₂ Out.Same (outs.drop (pre.length + 1)) (outs'.drop pre.length) := by
  obtain ⟨t, os₁, os₂, rfl, h1, h2⟩ := ha.append_inv
  cases h2 with
  | @cons _ t' _ _ o _ os hs hr =>
    have ht : t' = t := by
      cases o <;> simp only [setSpec] at hs
      exact hs.1
    subst ht
    obtain ⟨hpre, hpost⟩ := admissible_append.mp hadm
    refine ⟨admissible_append.mpr ⟨hpre, fun osp t'' hp => ?_⟩, fun outs' s' ha' => ?_⟩
    · obtain ⟨rfl, -⟩ := h1.det (setSpec_det keyOf) hp
      exact (hpost os₁ _ h1).2 o _ hs
    · obtain ⟨t'', os₁', os₂', rfl, h1', h2'⟩ := ha'.append_inv
      obtain ⟨rfl, -⟩ := h1.det (setSpec_det keyOf) h1'
      have hos := (hr.det (setSpec_det keyOf) h2').2
      have hd : (os₁ ++ o :: os).drop (pre.length + 1) = os := by
        simp [← h1.length_eq, List.drop_append]
      rw [hd, ← h1'.length_eq, List.drop_left]
      exact hos

variable [DecidableEq κ]

/-- What `ht_lookup` answers on the content is what the set holds. -/
theorem Holds.finds (h : Holds keyOf hash m s) {key : κ} {r : Option (HashNode α)}
    (hsome : ∀ n, r = some n → n ∈ m.nodes ∧ n.hashCode = hash key ∧
      decide (keyOf n.ptr = key) = true)
    (hnone : r = none → ∀ n ∈ m.nodes, ¬ (n.hashCode = hash key ∧
      decide (keyOf n.ptr = key) = true)) :
    Finds keyOf s key (r.map HashNode.ptr) := by
  intro a
  cases r with
  | none =>
    simp only [Option.map_none, reduceCtorEq, false_iff, not_and]
    intro ha hk
    obtain ⟨n, hn, rfl⟩ := (h.mem_iff a).mp ha
    exact hnone rfl n hn ⟨by rw [h.codes n hn, hk], by simp [hk]⟩
  | some n =>
    obtain ⟨hn, -, hk⟩ := hsome n rfl
    have hk : keyOf n.ptr = key := of_decide_eq_true hk
    have hs : n.ptr ∈ s := (h.mem_iff _).mpr ⟨n, hn, rfl⟩
    simp only [Option.map_some, Option.some.injEq]
    constructor
    · rintro rfl
      exact ⟨hs, hk⟩
    · rintro ⟨ha, hka⟩
      exact h.keys n.ptr hs a ha (hk.trans hka.symm)

/-- `lookup` by key. -/
theorem Holds.lookup (h : Holds keyOf hash m s) (key : κ) :
    ∃ m' r, m.lookup (hash key) (fun n => decide (keyOf n = key)) = some (m', r) ∧
      Finds keyOf s key (r.map HashNode.ptr) ∧ Holds keyOf hash m' s := by
  obtain ⟨m', r, hl, hi, -, hp, hsome, hnone⟩ :=
    lookup_spec h.inv (hash key) (fun n => decide (keyOf n = key))
  exact ⟨m', r, hl, h.finds hsome hnone, h.of_perm hi hp⟩

/-- `remove` by key. -/
theorem Holds.remove (h : Holds keyOf hash m s) (key : κ) :
    ∃ m' r, m.remove (hash key) (fun n => decide (keyOf n = key)) = some (m', r) ∧
      Finds keyOf s key (r.map HashNode.ptr) ∧
      Holds keyOf hash m' (match r with | some n => s.erase n.ptr | none => s) := by
  obtain ⟨m', r, hl, hi, -, hsome, hnone⟩ :=
    remove_spec h.inv (hash key) (fun n => decide (keyOf n = key))
  refine ⟨m', r, hl, ?_, ?_⟩
  · refine h.finds (fun n hn => ?_) (fun hr => (hnone hr).2)
    exact ⟨(hsome n hn).1.mem_iff.mpr List.mem_cons_self, (hsome n hn).2⟩
  · cases r with
    | none => exact h.of_perm hi (hnone rfl).1
    | some n => exact h.erase hi (hsome n rfl).1

/-- One call: it answers, the answer is the set's, and the map still holds
the set. -/
theorem exec_simulates (m : HashMap α) (s : Finset α) (op : Op α κ)
    (h : Holds keyOf hash m s) (hpre : setPre keyOf s op) :
    ∃ m' o s', exec keyOf hash m op = some (m', o) ∧ setSpec keyOf s op o s' ∧
      Holds keyOf hash m' s' := by
  cases op with
  | insert node =>
    obtain ⟨m', hins, h'⟩ := h.insert _ hpre.1 hpre.2
    exact ⟨m', .done, _, by simp [exec, hins], rfl, h'⟩
  | lookup key =>
    obtain ⟨m', r, hl, hf, h'⟩ := h.lookup key
    exact ⟨m', .node (r.map HashNode.ptr), s, by simp [exec, hl], ⟨rfl, hf⟩, h'⟩
  | remove key =>
    obtain ⟨m', r, hl, hf, h'⟩ := h.remove key
    refine ⟨m', .node (r.map HashNode.ptr), _, by simp [exec, hl], ⟨hf, rfl⟩, ?_⟩
    cases r <;> exact h'
  | foreach =>
    exact ⟨m, _, s, rfl, ⟨rfl, by rw [foreach_collect h.inv]; exact h.nodup,
      by rw [foreach_collect h.inv]; exact h.content⟩, h⟩
  | size => exact ⟨m, _, s, rfl, ⟨rfl, h.size_eq⟩, h⟩

/-- Every admissible sequence of calls on a fresh map is answered as on a
finite set. -/
theorem execAll_accepted (hash : κ → Nat) {ops : List (Op α κ)}
    (hadm : Admissible (setSpec keyOf) (setPre keyOf) ∅ ops) :
    ∃ m outs s, execAll keyOf hash ops = some (m, outs) ∧
      Accepts (setSpec keyOf) ∅ ops outs s ∧ Holds keyOf hash m s := by
  obtain ⟨m0, hn, h0⟩ := new_holds keyOf hash
  obtain ⟨m, outs, s, hr, ha, hh⟩ := run_simulates exec_simulates h0 hadm
  exact ⟨m, outs, s, by simp [execAll, hn, hr], ha, hh⟩

/-- **The hash map refines a finite set of nodes.** Every sequence of calls
on a fresh map, in which a node is inserted only when neither it nor its key
is present, is answered as on a `Finset` of nodes, and the content of the two
tables is that set, each node once; leaving out any `lookup` changes no later
answer (up to the order of a traversal). -/
theorem hashMap_refines_finset (keyOf : α → κ) (hash : κ → Nat) (ops : List (Op α κ))
    (hadm : Admissible (setSpec keyOf) (setPre keyOf) ∅ ops) :
    ∃ m outs s, execAll keyOf hash ops = some (m, outs) ∧
      Accepts (setSpec keyOf) ∅ ops outs s ∧
      (m.nodes.map HashNode.ptr).Nodup ∧ (m.nodes.map HashNode.ptr).toFinset = s ∧
      ∀ pre key post, ops = pre ++ .lookup key :: post →
        ∃ m' outs', execAll keyOf hash (pre ++ post) = some (m', outs') ∧
          List.Forall₂ Out.Same (outs.drop (pre.length + 1)) (outs'.drop pre.length) := by
  obtain ⟨m, outs, s, hr, ha, hh⟩ := execAll_accepted hash hadm
  refine ⟨m, outs, s, hr, ha, hh.nodup, hh.content, ?_⟩
  rintro pre key post rfl
  obtain ⟨hadm', hsame⟩ := accepts_skip_lookup hadm ha
  obtain ⟨m', outs', s', hr', ha', -⟩ := execAll_accepted hash hadm'
  exact ⟨m', outs', hr', hsame outs' s' ha'⟩

end Simulation

/-- Two colliding keys, a lookup between them, and a removal. -/
theorem hashMap_refines_finset_collision :
    ∃ m outs s, execAll (fun n : Nat => n) (fun _ => 0)
        [.insert 1, .lookup 1, .insert 2, .remove 1, .size] = some (m, outs) ∧
      Accepts (setSpec (fun n : Nat => n)) ∅
        [.insert 1, .lookup 1, .insert 2, .remove 1, .size] outs s ∧
      (m.nodes.map HashNode.ptr).Nodup ∧ (m.nodes.map HashNode.ptr).toFinset = s := by
  have hadm : Admissible (setSpec (fun n : Nat => n)) (setPre (fun n : Nat => n)) ∅
      [.insert 1, .lookup 1, .insert 2, .remove 1, .size] := by
    refine ⟨by simp [setPre], fun o t h => ⟨trivial, fun o' t' h' => ⟨?_, fun o'' t'' h'' =>
      ⟨trivial, fun _ _ _ => ⟨trivial, fun _ _ _ => trivial⟩⟩⟩⟩⟩
    cases o <;> simp only [setSpec] at h
    cases o' <;> simp only [setSpec] at h'
    obtain ⟨rfl, -⟩ := h'
    subst h
    simp [setPre]
  obtain ⟨m, outs, s, h1, h2, h3, h4, -⟩ :=
    hashMap_refines_finset (fun n : Nat => n) (fun _ => 0) _ hadm
  exact ⟨m, outs, s, h1, h2, h3, h4⟩

end ByoRedis.HashMap
