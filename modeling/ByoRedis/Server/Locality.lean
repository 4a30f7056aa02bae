import ByoRedis.Server.Service

/-!
# Server — one key at a time

A command reads and writes the key that it names, and no other one. So a request
is answered as if it came right behind the last request with its key, whatever
the server does for other keys and other connections in between, unless the key
expires.
-/

namespace ByoRedis

open Framing Run

/-- The key that a command names; `keys` names none. -/
def Command.key : Command → Option Bytes
  | .get key | .set key _ | .del key | .pexpire key _ | .pttl key | .zadd key _ _ | .zrem key _
  | .zscore key _ | .zquery key _ _ _ _ => some key
  | .keys | .unknown => none

variable {plus : Nat → Nat → Nat} {cores now limit : Nat} {st st' st₁ st₁' : Store} {cmd : Command}
  {reply : Reply} {key : Bytes} {gen gen' : Ptr → Bytes} {as : List Action}

/-- **Frame.** A command leaves all other keys as they are. -/
theorem RefCommand.frame (h : RefCommand plus now st cmd reply st') (hkey : cmd.key ≠ some key) :
    st'.lookup key = st.lookup key := by
  have hinsert (k : Bytes) (hk : k ≠ key) (item : Item) :
      (st.insert k item).lookup key = st.lookup key := Finmap.lookup_insert_of_ne st (Ne.symm hk)
  cases cmd with
  | get k | zscore k | zquery k | keys => rw [h.1]
  | pttl k | unknown => rw [h.2]
  | del k =>
    have hk : k ≠ key := fun he => hkey (congrArg some he)
    rw [h.2, Finmap.lookup_erase_ne (Ne.symm hk)]
  | set k val =>
    have hk : k ≠ key := fun he => hkey (congrArg some he)
    simp only [RefCommand] at h
    split at h
    · rw [h.2, hinsert k hk]
    · rw [h.2, hinsert k hk]
    · rw [h.2]
  | pexpire k ttl =>
    have hk : k ≠ key := fun he => hkey (congrArg some he)
    simp only [RefCommand] at h
    split at h
    · rw [h.2]
    · rw [h.2]
    · rw [h.2, hinsert k hk]
  | zadd k score name =>
    have hk : k ≠ key := fun he => hkey (congrArg some he)
    simp only [RefCommand] at h
    split at h
    · rw [h.2]
    · rw [h.2, hinsert k hk]
    · rw [h.2, hinsert k hk]
    · rw [h.2]
  | zrem k name =>
    have hk : k ≠ key := fun he => hkey (congrArg some he)
    simp only [RefCommand] at h
    split at h
    · rw [h.2]
    · rw [h.2, hinsert k hk]
    · rw [h.2]

/-- **Locality.** What a command answers depends on its key only. -/
theorem RefCommand.local (h : RefCommand plus now st cmd reply st') (hkey : cmd.key = some key)
    (hlook : st₁.lookup key = st.lookup key) :
    ∃ st₁', RefCommand plus now st₁ cmd reply st₁' ∧ st₁'.lookup key = st'.lookup key := by
  cases cmd with
  | keys => cases hkey
  | unknown => cases hkey
  | get k | zscore k | zquery k =>
    cases hkey
    refine ⟨st₁, ?_, by rw [h.1, hlook]⟩
    have h' := h.2
    simp only [RefCommand, hlook]
    exact ⟨trivial, h'⟩
  | pttl k =>
    cases hkey
    refine ⟨st₁, ?_, by rw [h.2, hlook]⟩
    simp only [RefCommand, hlook]
    exact ⟨h.1, trivial⟩
  | del k =>
    cases hkey
    have hmem : key ∈ st₁ ↔ key ∈ st := by
      rw [← Finmap.lookup_isSome, ← Finmap.lookup_isSome, hlook]
    refine ⟨st₁.erase key, ⟨?_, rfl⟩, by rw [h.2, Finmap.lookup_erase, Finmap.lookup_erase]⟩
    rw [h.1, if_congr hmem rfl rfl]
  | set k val =>
    cases hkey
    simp only [RefCommand, hlook]
    simp only [RefCommand] at h
    split at h
    · exact ⟨_, ⟨h.1, rfl⟩, by rw [h.2, Finmap.lookup_insert, Finmap.lookup_insert]⟩
    · exact ⟨_, ⟨h.1, rfl⟩, by rw [h.2, Finmap.lookup_insert, Finmap.lookup_insert]⟩
    · exact ⟨_, ⟨h.1, rfl⟩, by rw [h.2, hlook]⟩
  | pexpire k ttl =>
    cases hkey
    simp only [RefCommand, hlook]
    simp only [RefCommand] at h
    split at h
    · exact ⟨_, ⟨h.1, rfl⟩, by rw [h.2, hlook]⟩
    · exact ⟨_, ⟨h.1, rfl⟩, by rw [h.2, hlook]⟩
    · exact ⟨_, ⟨h.1, rfl⟩, by rw [h.2, Finmap.lookup_insert, Finmap.lookup_insert]⟩
  | zadd k score name =>
    cases hkey
    simp only [RefCommand, hlook]
    simp only [RefCommand] at h
    split at h
    · exact ⟨_, ⟨h.1, rfl⟩, by rw [h.2, hlook]⟩
    · exact ⟨_, ⟨h.1, rfl⟩, by rw [h.2, Finmap.lookup_insert, Finmap.lookup_insert]⟩
    · exact ⟨_, ⟨h.1, rfl⟩, by rw [h.2, Finmap.lookup_insert, Finmap.lookup_insert]⟩
    · exact ⟨_, ⟨h.1, rfl⟩, by rw [h.2, hlook]⟩
  | zrem k name =>
    cases hkey
    simp only [RefCommand, hlook]
    simp only [RefCommand] at h
    split at h
    · exact ⟨_, ⟨h.1, rfl⟩, by rw [h.2, hlook]⟩
    · exact ⟨_, ⟨h.1, rfl⟩, by rw [h.2, Finmap.lookup_insert, Finmap.lookup_insert]⟩
    · exact ⟨_, ⟨h.1, rfl⟩, by rw [h.2, hlook]⟩

/-- A key that is not due does not expire. -/
theorem Expires.frame (h : Expires limit now st st')
    (hdue : ∀ item, st.lookup key = some item → ∀ d, item.deadline = some d → now ≤ d) :
    st'.lookup key = st.lookup key := by
  obtain ⟨D, hD, -, hlook, -⟩ := h
  rw [hlook key, if_neg]
  intro hmem
  obtain ⟨-, item, hitem, d, hd, hlt⟩ := Finset.mem_filter.mp (hD hmem)
  exact absurd hlt (Nat.not_lt.mpr (hdue item hitem d hd))

/-! ## Between two requests -/

/-- None of the actions is a request with the key. -/
def Skips (key : Bytes) (as : List Action) : Prop :=
  ∀ r, Action.request r ∈ as → (Command.ofRequest r.cmd).key ≠ some key

/-- The key does not expire in the course of the actions. -/
def Outlives (item : Option Item) (as : List Action) : Prop :=
  ∀ now, Action.timers now ∈ as → ∀ i, item = some i → ∀ d, i.deadline = some d → now ≤ d

theorem Serves.frame (h : Serves st gen as st' gen') (hskips : Skips key as)
    (hlives : Outlives (st.lookup key) as) : st'.lookup key = st.lookup key := by
  induction h with
  | nil => rfl
  | request hr _ ih =>
    have hlook := hr.frame (hskips _ List.mem_cons_self)
    rw [ih (fun r hmem => hskips r (List.mem_cons_of_mem _ hmem)), hlook]
    rw [hlook]
    exact fun now hmem => hlives now (List.mem_cons_of_mem _ hmem)
  | timers he _ ih =>
    have hlook := he.frame (hlives _ List.mem_cons_self)
    rw [ih (fun r hmem => hskips r (List.mem_cons_of_mem _ hmem)), hlook]
    rw [hlook]
    exact fun now hmem => hlives now (List.mem_cons_of_mem _ hmem)
  | worker _ ih =>
    exact ih (fun r hmem => hskips r (List.mem_cons_of_mem _ hmem))
      (fun now hmem => hlives now (List.mem_cons_of_mem _ hmem))

end ByoRedis
