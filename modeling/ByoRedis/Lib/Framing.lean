import Mathlib

/-!
# Lib — streams cut into items

A `Reader` takes one item off the front of a stream, or finds the stream
incomplete or broken there. What it says of an item or of a broken stream must
not change when more of the stream arrives; then parsing a stream in pieces is
parsing it as a whole (`parse_append`).
-/

namespace Framing

variable {α β : Type}

/-- What stands at the front of a stream. -/
inductive Cut (α β : Type) where
  | incomplete
  | bad
  | item (b : β) (rest : List α)

/-- A way to cut items off the front of a stream. -/
structure Reader (α β : Type) where
  cut : List α → Cut α β
  shorter : ∀ {s b rest}, cut s = .item b rest → rest.length < s.length
  item_append : ∀ {s b rest} (t), cut s = .item b rest → cut (s ++ t) = .item b (rest ++ t)
  bad_append : ∀ {s} (t), cut s = .bad → cut (s ++ t) = .bad

/-- A stream taken apart: its items, what is left, and whether it is broken
there. -/
structure Parsed (α β : Type) where
  items : List β
  rest : List α
  bad : Bool

namespace Reader

variable (r : Reader α β)

/-- Cut off items until the stream is incomplete or broken. -/
def parse (s : List α) : Parsed α β :=
  match _h : r.cut s with
  | .incomplete => ⟨[], s, false⟩
  | .bad => ⟨[], s, true⟩
  | .item b rest =>
    let p := parse rest
    ⟨b :: p.items, p.rest, p.bad⟩
termination_by s.length
decreasing_by exact r.shorter _h

variable {r} {s : List α}

theorem parse_incomplete (h : r.cut s = .incomplete) : r.parse s = ⟨[], s, false⟩ := by
  rw [parse]
  split <;> simp_all

theorem parse_bad (h : r.cut s = .bad) : r.parse s = ⟨[], s, true⟩ := by
  rw [parse]
  split <;> simp_all

theorem parse_item {b : β} {rest : List α} (h : r.cut s = .item b rest) :
    r.parse s = ⟨b :: (r.parse rest).items, (r.parse rest).rest, (r.parse rest).bad⟩ := by
  rw [parse]
  split <;> simp_all

/-- Induction along the items of a stream. -/
theorem parse_induction {P : List α → Prop} (incomplete : ∀ s, r.cut s = .incomplete → P s)
    (bad : ∀ s, r.cut s = .bad → P s)
    (item : ∀ s b rest, r.cut s = .item b rest → P rest → P s) (s : List α) : P s := by
  induction hn : s.length using Nat.strong_induction_on generalizing s with
  | _ n ih =>
    cases h : r.cut s with
    | incomplete => exact incomplete s h
    | bad => exact bad s h
    | item b rest =>
      have hlt := r.shorter h
      exact item s b rest h (ih rest.length (by omega) rest rfl)

/-- What is left of a stream starts with no item. -/
theorem parse_rest (s : List α) :
    r.cut (r.parse s).rest = if (r.parse s).bad then .bad else .incomplete := by
  induction s using r.parse_induction with
  | incomplete s h => simp [parse_incomplete h, h]
  | bad s h => simp [parse_bad h, h]
  | item s b rest h ih => simpa [parse_item h] using ih

/-- Behind a broken place a stream does not matter. -/
theorem parse_append_of_bad (t : List α) (h : (r.parse s).bad = true) :
    (r.parse (s ++ t)).items = (r.parse s).items ∧ (r.parse (s ++ t)).bad = true := by
  induction s using r.parse_induction with
  | incomplete s hc => simp [parse_incomplete hc] at h
  | bad s hc => simp [parse_bad hc, parse_bad (r.bad_append t hc)]
  | item s b rest hc ih =>
    rw [parse_item hc] at h
    have := ih h
    simp [parse_item hc, parse_item (r.item_append t hc), this]

/-- **Parsing in pieces**: the items of the first piece, then those of what
was left of it with the second. -/
theorem parse_append (t : List α) (h : (r.parse s).bad = false) :
    r.parse (s ++ t) =
      ⟨(r.parse s).items ++ (r.parse ((r.parse s).rest ++ t)).items,
        (r.parse ((r.parse s).rest ++ t)).rest, (r.parse ((r.parse s).rest ++ t)).bad⟩ := by
  induction s using r.parse_induction with
  | incomplete s hc => simp [parse_incomplete hc]
  | bad s hc => simp [parse_bad hc] at h
  | item s b rest hc ih =>
    rw [parse_item hc] at h
    simp [parse_item hc, parse_item (r.item_append t hc), ih h]

end Reader

end Framing
