import ByoRedis.Client.Io
import ByoRedis.Client.RequestBuffer

/-!
# Client — whatever the kernel does with the pieces

`read_full` and `write_all` loop over calls that may take or give less than
they are asked for. What they achieve depends on the stream alone, not on how
it is cut up; so what `read_res` puts out is a function of the stream
(`Socket.received`).
-/

namespace ByoRedis.Client

open ByteBuf

namespace Socket

variable {s : Socket} {n : Nat}

/-! ## Reading -/

/-- Only what was sent, the calls to come and `errno` change, and `part` was sent. -/
structure Sent (s s' : Socket) (part : Bytes) : Prop where
  incoming : s'.incoming = s.incoming
  broken : s'.broken = s.broken
  there : s'.there = s.there
  sent : s'.sent = s.sent ++ part

end Socket

end ByoRedis.Client
