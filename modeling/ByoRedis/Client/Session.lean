import ByoRedis.Client.Exchange
import ByoRedis.Client.Lines
import ByoRedis.Server.Service

/-!
# Client — a request and its reply

A client at one end of a connection, the event loop at the other. The socket is
a pair of streams: what the server reads is the front of what the client has
written, and what the client reads the front of what the server has written.
Whatever else the server does meanwhile, a client that prints a reply prints the
one that the map gave to its command.
-/

namespace ByoRedis

open ByteBuf Framing Run

/-! ## The stream of a single request -/

/-- A stream that has only part of a request in it completes nothing. -/
theorem requests_front {t : Bytes} {cmd : List Bytes} (hargs : cmd.length ≤ kMaxArgs)
    (hlen : (enc cmd).length ≤ kMaxMsg) (ht : t <+: message cmd) :
    (requests t).items = [] ∨ (requests t).items = [cmd] := by
  obtain ⟨u, hu⟩ := ht
  have hmax : kMaxMsg = 33554432 := rfl
  have hl : t.length + u.length = 4 + (enc cmd).length := by
    rw [← List.length_append, hu, message, List.length_append, length_le]
  by_cases hfull : u = []
  · subst hfull
    rw [List.append_nil] at hu
    right
    rw [hu, requests_single hargs hlen]
  · have hpos := List.length_pos_iff.mpr hfull
    have hcut : requestReader.cut t = .incomplete := by
      rw [requestReader_cut, nextMessage]
      by_cases h4 : t.length < 4
      · rw [if_pos h4]
      · have htake : t.take 4 = le 4 (enc cmd).length := by
          have hu4 : (t ++ u).take 4 = t.take 4 := List.take_append_of_le_length (by omega)
          rw [← hu4, hu, message]
          exact List.take_left' (length_le 4 _)
        have hof : ofLe (t.take 4) = (enc cmd).length := by
          rw [htake]
          exact ofLe_le_of_lt (by omega)
        rw [if_neg h4, hof, if_neg (by omega), if_pos (by omega)]
    left
    rw [requests, Reader.parse_incomplete hcut]

/-! ## The response to a single request -/

variable {cores : Nat} {st st' : Store} {gen gen' : Ptr → Bytes} {as : List Action} {p : Ptr}
  {cmd : List Bytes}

/-- Nothing is generated for a connection that asks for nothing. -/
theorem Serves.silent (h : Serves st gen as st' gen') (hc : as.filterMap (Action.cmdOf p) = []) :
    gen' p = gen p := by
  induction h with
  | nil => rfl
  | @request _ _ _ gen _ r _ _ _ _ ih =>
    have hne : p ≠ r.conn := by
      rintro rfl
      simp [Action.cmdOf] at hc
    rw [ih (by simpa [Action.cmdOf, Ne.symm hne] using hc), Function.update_of_ne hne]
  | timers _ _ ih => exact ih (by simpa [Action.cmdOf] using hc)
  | worker _ ih => exact ih (by simpa [Action.cmdOf] using hc)

/-- A request that fits the client's buffer has few strings. -/
theorem nargs_le_of_size {cmd : List Bytes} (h : reqSize cmd ≤ Client.kMaxMsg) :
    cmd.length ≤ kMaxArgs := by
  have hsum : cmd.length ≤ (cmd.map (fun s => 4 + s.length)).sum := by
    rw [← List.length_map (fun s : Bytes => 4 + s.length)]
    exact List.length_le_sum_of_one_le _ (by simp; omega)
  have hmax : Client.kMaxMsg = 4096 := rfl
  have hargs : kMaxArgs = 200000 := rfl
  rw [reqSize] at h
  omega

namespace Client

/-- What is put out after the front `stream` of the response with the reply:
that it ends early or is too long, or the lines of the reply. -/
def Prints (stream : Bytes) (reply : Reply) (notes : List Note) : Prop :=
  (notes = [.eof] ∨ notes = [.readError]) ∧ stream ≠ response reply.encode ∨
    notes = [.tooLong] ∧ kMaxMsg < reply.limited.encode.length ∨
    notes = reply.limited.lines.map .line

end Client

/-! ## The server at the other end -/

end ByoRedis
