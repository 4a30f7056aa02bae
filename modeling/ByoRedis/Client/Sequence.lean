import ByoRedis.Client.Session
import ByoRedis.Server.Drain
import ByoRedis.Server.Linear
import ByoRedis.Server.Resources

/-!
# Client — one client after the other

Two clients, and the second is started when the first has heard of the server.
Then the request of the first was executed before the one of the second, and the
second is shown what the first has left behind.
-/

namespace ByoRedis

open ByteBuf Framing Run

namespace Client

/-- A client with the request `cmd` puts out what belongs to the reply, or nothing
if it could not send the request. -/
def Socket.Shows (c : Socket) (cmd : List Bytes) (reply : Reply) : Prop :=
  ∀ wbuf rbuf : Bytes, wbuf.length = 4 + kMaxMsg → rbuf.length = 4 + kMaxMsg →
    ∃ notes c', c.main wbuf rbuf cmd = some (notes, c') ∧ c'.sent <+: message cmd ∧
      (c'.sent ≠ message cmd ∧ notes = [] ∨ c'.sent = message cmd ∧ Prints c.incoming reply notes)

/-- A client at the other end of the connection `p`: the server has read nothing
but its request, and it has received something. -/
structure Socket.Heard (c : Socket) (L : Log) (p : Ptr) (cmd : List Bytes) : Prop where
  unsent : c.sent = []
  fits : reqSize cmd ≤ kMaxMsg
  got : L.got p <+: message cmd
  incoming : c.incoming <+: L.sent p
  some : c.incoming ≠ []

variable {c : Socket} {L L' : Log} {p : Ptr} {cmd : List Bytes} {s s' : Server} {l l' : List Ptr}
  {st st' : Store} {gen gen' : Ptr → Bytes}

theorem Socket.Heard.front (h : c.Heard L p cmd) {got : Bytes} (hgot : got <+: message cmd) :
    (requests got).items = [] ∨ (requests got).items = [cmd] :=
  requests_front (nargs_le_of_size h.fits)
    (by rw [length_enc]; exact h.fits.trans (by decide)) hgot

/-- Who has received something has been read to the end. -/
theorem Socket.Heard.commands (h : c.Heard L p cmd) (hr : L.Records s l st gen) :
    L.commands p = [cmd] := by
  have hcmds := hr.accounts.commands p
  rcases h.front h.got with hnone | hone
  · rw [hnone] at hcmds
    have hgen := h.incoming.trans (hr.accounts.sent p)
    rw [hr.accounts.serves.silent hcmds, List.prefix_nil] at hgen
    exact absurd hgen h.some
  · exact hcmds.trans hone

end Client

variable {st₁ st' : Store} {gen₁ gen' : Ptr → Bytes} {as later : List Action} {p q : Ptr}
  {cmd cmd' : List Bytes} {reply : Reply} {L L' : Log} {cores : Nat}

/-- What is executed later comes behind. -/
theorem Log.Extends.commands (h : L.Extends L') : ∃ later, L'.actions = L.actions ++ later ∧
    ∀ p, L'.commands p = L.commands p ++ later.filterMap (Action.cmdOf p) := by
  obtain ⟨later, hlater⟩ := h.actions
  refine ⟨later, hlater.symm, fun p => ?_⟩
  rw [Log.commands, ← hlater, List.filterMap_append]
  rfl

variable {s s' : Server}

end ByoRedis
