import Mathlib

/-!
# Lib — bucket arrays

A bucket array is a list of lists; its content is the flattened list, up to
order. The lemmas say what an update of one bucket does to the content, which
is all that a chained hash table needs to know about its slots.
-/

namespace Buckets

variable {β : Type} {bs : List (List β)} {i : Nat} {b b' : List β} {x : β}

/-- A bucket that grows by `x` adds `x` to the content. -/
theorem flatten_set_perm_cons (h : bs[i]? = some b) (hp : b'.Perm (x :: b)) :
    (bs.set i b').flatten.Perm (x :: bs.flatten) := by
  induction bs generalizing i with
  | nil => simp at h
  | cons c cs ih =>
    cases i with
    | zero =>
      obtain rfl : c = b := by simpa using h
      simpa using hp.append_right cs.flatten
    | succ i =>
      have h' : cs[i]? = some b := by simpa using h
      simp only [List.set_cons_succ, List.flatten_cons]
      exact ((ih h').append_left c).trans List.perm_middle

/-- A bucket that loses `x` takes `x` out of the content. -/
theorem flatten_perm_cons_set (h : bs[i]? = some b) (hp : b.Perm (x :: b')) :
    bs.flatten.Perm (x :: (bs.set i b').flatten) := by
  have hi : i < bs.length := (List.getElem?_eq_some_iff.mp h).1
  have hset : (bs.set i b')[i]? = some b' := by simp [hi]
  have hback : (bs.set i b').set i b = bs := by
    rw [List.set_set]
    obtain ⟨_, rfl⟩ := List.getElem?_eq_some_iff.mp h
    exact List.set_getElem_self hi
  simpa [hback] using flatten_set_perm_cons hset hp

/-- A predicate that holds of a bucket and of every other one holds of the
array with that bucket in place. -/
theorem forall_set (p : Nat → List β → Prop) (hb : p i b')
    (h : ∀ j c, bs[j]? = some c → p j c) :
    ∀ j c, (bs.set i b')[j]? = some c → p j c := by
  intro j c hj
  rw [List.getElem?_set] at hj
  split at hj
  · rename_i hij
    subst hij
    split at hj
    · cases hj
      exact hb
    · cases hj
  · exact h j c hj

theorem mem_flatten_of_getElem? (h : bs[i]? = some b) (hx : x ∈ b) : x ∈ bs.flatten :=
  List.mem_flatten.mpr ⟨b, List.mem_of_getElem? h, hx⟩

theorem exists_getElem?_of_mem_flatten (h : x ∈ bs.flatten) :
    ∃ (j : Nat) (c : List β), bs[j]? = some c ∧ x ∈ c := by
  obtain ⟨c, hc, hx⟩ := List.mem_flatten.mp h
  obtain ⟨j, hj⟩ := List.getElem?_of_mem hc
  exact ⟨j, c, hj, hx⟩

/-- An array whose buckets are all empty has no content. -/
theorem flatten_eq_nil (h : ∀ (j : Nat) (c : List β), bs[j]? = some c → c = []) : bs.flatten = [] := by
  rw [List.flatten_eq_nil_iff]
  intro c hc
  obtain ⟨j, hj⟩ := List.getElem?_of_mem hc
  exact h j c hj

end Buckets
