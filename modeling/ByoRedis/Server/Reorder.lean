import ByoRedis.Server.Locality
import ByoRedis.Server.Resources

/-!
# Server — the order of service

The event loop serves all connections in one order, in which the kernel has a
say. Of requests on different keys that come by different connections the order
does not matter: no later state and no byte that is sent depends on it, and the
tasks of the thread pool can be done at any time.
-/

namespace ByoRedis

open Framing Run

variable {plus : Nat → Nat → Nat} {cores now now' : Nat} {st st₁ st₂ st' : Store} {cmd cmd' : Command}
  {reply reply' : Reply} {key key' : Bytes} {gen gen' : Ptr → Bytes} {as bs : List Action}
  {a b : Action}

/-- **Commands on different keys commute**, with the same replies. -/
theorem RefCommand.comm (h : RefCommand plus now st cmd reply st₁)
    (h' : RefCommand plus now' st₁ cmd' reply' st₂) (hkey : cmd.key = some key)
    (hkey' : cmd'.key = some key') (hne : key ≠ key') :
    ∃ st', RefCommand plus now' st cmd' reply' st' ∧ RefCommand plus now st' cmd reply st₂ := by
  have hframe {k : Bytes} (hk : k ≠ key) : st₁.lookup k = st.lookup k :=
    h.frame (by rw [hkey]; exact fun he => hk (Option.some.inj he).symm)
  have hframe' {k : Bytes} (hk : k ≠ key') : st₂.lookup k = st₁.lookup k :=
    h'.frame (by rw [hkey']; exact fun he => hk (Option.some.inj he).symm)
  -- the second one first, and the first one behind it
  obtain ⟨st', hfirst, hlook'⟩ := h'.local hkey' (hframe (Ne.symm hne)).symm
  have hrest {k : Bytes} (hk : k ≠ key') : st'.lookup k = st.lookup k :=
    hfirst.frame (by rw [hkey']; exact fun he => hk (Option.some.inj he).symm)
  obtain ⟨st₃, hsecond, hlook⟩ := h.local hkey (hrest hne)
  have hlast {k : Bytes} (hk : k ≠ key) : st₃.lookup k = st'.lookup k :=
    hsecond.frame (by rw [hkey]; exact fun he => hk (Option.some.inj he).symm)
  have hsame : st₃ = st₂ := by
    refine Finmap.ext_lookup fun k => ?_
    by_cases hk : k = key
    · rw [hk, hlook, hframe' hne]
    · rw [hlast hk]
      by_cases hk' : k = key'
      · rw [hk', hlook']
      · rw [hrest hk', hframe' hk', hframe hk]
  exact ⟨st', hfirst, hsame ▸ hsecond⟩

/-! ## Orders that nobody can tell apart -/

/-- On different keys, by different connections. -/
structure Request.Apart (r w : Request) : Prop where
  conn : r.conn ≠ w.conn
  keys : ∃ key key', (Command.ofRequest r.cmd).key = some key ∧
    (Command.ofRequest w.cmd).key = some key' ∧ key ≠ key'

/-- Actions whose order does not matter. -/
inductive Action.Independent : Action → Action → Prop
  | requests {r w : Request} (h : r.Apart w) : Independent (.request r) (.request w)
  | before (a : Action) : Independent .worker a
  | after (a : Action) : Independent a .worker

/-- Two actions next to each other change their places. -/
inductive Swap : List Action → List Action → Prop
  | here {a b : Action} (h : a.Independent b) (as : List Action) :
      Swap (a :: b :: as) (b :: a :: as)
  | there (a : Action) {as bs : List Action} (h : Swap as bs) : Swap (a :: as) (a :: bs)

/-- Any number of times. -/
def Reordered : List Action → List Action → Prop := Relation.ReflTransGen Swap

theorem Serves.independent (h : Serves st gen (a :: b :: as) st' gen') (hab : a.Independent b) :
    Serves st gen (b :: a :: as) st' gen' := by
  cases hab with
  | before b =>
    cases h with
    | worker hrest =>
      cases hrest with
      | request hr hrest => exact .request hr (.worker hrest)
      | timers he hrest => exact .timers he (.worker hrest)
      | worker hrest => exact .worker (.worker hrest)
  | after a =>
    cases h with
    | request hr hrest =>
      cases hrest with
      | worker hrest => exact .worker (.request hr hrest)
    | timers he hrest =>
      cases hrest with
      | worker hrest => exact .worker (.timers he hrest)
    | worker hrest =>
      cases hrest with
      | worker hrest => exact .worker (.worker hrest)
  | @requests r w hapart =>
    obtain ⟨key, key', hkey, hkey', hne⟩ := hapart.keys
    cases h with
    | request hr hrest =>
      cases hrest with
      | request hw hrest =>
        obtain ⟨st', hw', hr'⟩ := hr.comm hw hkey hkey' hne
        refine .request hw' (.request hr' ?_)
        rw [Function.update_of_ne hapart.conn.symm] at hrest
        rw [Function.update_of_ne hapart.conn, Function.update_comm hapart.conn.symm]
        exact hrest

theorem Serves.swap (h : Serves st gen as st' gen') (hswap : Swap as bs) :
    Serves st gen bs st' gen' := by
  induction hswap generalizing st gen with
  | here hab as => exact h.independent hab
  | there a _ ih =>
    cases h with
    | request hr hrest => exact .request hr (ih hrest)
    | timers he hrest => exact .timers he (ih hrest)
    | worker hrest => exact .worker (ih hrest)

/-- Each connection has its requests in the same order. -/
theorem Swap.commands (h : Swap as bs) (p : Ptr) :
    bs.filterMap (Action.cmdOf p) = as.filterMap (Action.cmdOf p) := by
  induction h with
  | here hab as =>
    cases hab with
    | before b => simp [List.filterMap_cons, Action.cmdOf]
    | after a => simp [List.filterMap_cons, Action.cmdOf]
    | @requests r w hapart =>
      by_cases hr : r.conn = p
      · have hw : w.conn ≠ p := fun hw => hapart.conn (hr.trans hw.symm)
        simp [Action.cmdOf, hr, hw]
      · simp [List.filterMap_cons, Action.cmdOf, hr]
  | there a _ ih => rw [List.filterMap_cons, List.filterMap_cons, ih]

theorem Reordered.commands (h : Reordered as bs) (p : Ptr) :
    bs.filterMap (Action.cmdOf p) = as.filterMap (Action.cmdOf p) := by
  induction h with
  | refl => rfl
  | tail _ hswap ih => rw [hswap.commands p, ih]

variable {s : Server} {l : List Ptr} {L : Log} {p q : Ptr} {c c' : List Bytes}

end ByoRedis
