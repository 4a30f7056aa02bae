import ByoRedis.Client.ResponseFrame
import ByoRedis.Server.Keyspace
import ByoRedis.Server.Message

/-!
# Server — every response is one frame

In every reachable state of the keyspace, whatever is in the output buffer, a
request is answered with a length and that many bytes, which are one frame of
the grammar; the client's `print_response` takes it as one.
-/

namespace ByoRedis

open ByteBuf

/-- `do_request` only appends, in every state that shows a map. -/
theorem doRequest_appendsOn : Handler.AppendsOn doRequest (fun g => ∃ s S, Db.Abs g S s) := by
  intro g hg now cmd
  obtain ⟨s, S, habs⟩ := hg
  obtain ⟨g', S', r, s', hrun, -, habs'⟩ := doRequest_answered habs now cmd
  exact ⟨g', r.encode, ⟨s', S', habs'⟩, hrun⟩

/-- What stands in for an answer that is too long. -/
def tooBig : Scalar := .err .tooBig "response is too big."

/-- The reply that is sent: an error in place of one that is too long. -/
def Reply.limited (r : Reply) : Reply := if kMaxMsg < r.encode.length then .one tooBig else r

theorem responseBody_limited (r : Reply) : responseBody r.encode = r.limited.encode := by
  rw [responseBody, Reply.limited]
  split
  · rw [writeErr_eq, List.nil_append]
    rfl
  · rfl

/-- `try_one_request` takes the message of the request off the front of the incoming
bytes, whatever is behind it, and puts the frame of the reply behind the outgoing
ones. -/
def Responds (now : Nat) (g : Db) (cmd : List Bytes) (g' : Db) (r : Reply) : Prop :=
  ∀ (conn : Conn) (rest : Bytes), conn.incoming = message cmd ++ rest →
    tryOneRequest doRequest now g conn =
      some (g', { conn with
        incoming := rest
        outgoing := conn.outgoing ++ le 4 r.encode.length ++ r.encode }, true)

/-- What `do_request` answers is the response, unless it is too long. -/
theorem responds_of_run {now : Nat} {g g' : Db} {cmd : List Bytes} {r : Reply}
    (hargs : cmd.length ≤ kMaxArgs) (hlen : (enc cmd).length ≤ kMaxMsg)
    (hrun : ∀ out, doRequest now g cmd out = some (g', out ++ r.encode)) :
    Responds now g cmd g' r.limited := by
  intro conn rest hin
  have hnext : nextMessage conn.incoming = .item cmd rest := nextMessage_enc hargs hlen hin
  rw [tryOneRequest_eq, hnext]
  simp only [hrun, Option.bind_some, responseEnd_eq, Option.map_some]
  rw [response, responseBody_limited, List.append_assoc]

/-- The body of a response is one frame. -/
theorem responseBody_isFrame (r : Reply) : IsFrame (responseBody r.encode) := by
  have hmax : kMaxMsg = 33554432 := rfl
  rw [responseBody]
  by_cases hbig : kMaxMsg < r.encode.length
  · rw [if_pos hbig, writeErr_eq, List.nil_append]
    exact Scalar.isFrame tooBig (by decide)
  · rw [if_neg hbig]
    exact r.isFrame (by omega)

/-- **Every response is exactly one frame, and the client accepts it.** A
request that `parse_req` accepts is answered behind the bytes already in
`outgoing` with a length and a body of that length. The body is what the
command answers, or the error in its place where that is too long; it is one
frame; and if it fits in the client's buffer, `print_response` returns its
length. -/
theorem response_is_one_frame (g : Db) (hg : g.Reachable) (now : Nat) (conn : Conn)
    (request rest : Bytes) (cmd : List Bytes) (hlen : request.length ≤ kMaxMsg)
    (hin : conn.incoming = le 4 request.length ++ request ++ rest)
    (hreq : parseReq request [] = some (0, cmd)) :
    ∃ g' r body,
      tryOneRequest doRequest now g conn =
        some (g', { conn with incoming := rest
                              outgoing := conn.outgoing ++ le 4 body.length ++ body }, true) ∧
      (∀ out, doRequest now g cmd out = some (g', out ++ Reply.encode r)) ∧
      body = (if kMaxMsg < r.encode.length then tooBig.encode else r.encode) ∧
      body.length ≤ kMaxMsg ∧ IsFrame body ∧
      (body.length ≤ 4096 →
        ∃ lines, Client.printResponse body = some ((body.length : Int), lines)) := by
  obtain ⟨s, S, habs⟩ := hg.abs
  obtain ⟨g', S', r, s', hrun, -, -⟩ := doRequest_answered habs now cmd
  have hnext : nextMessage conn.incoming = .item cmd rest := by
    obtain ⟨rc, out, hrun', -, hok⟩ := parseReq_sound request
    rw [hreq] at hrun'
    cases hrun'
    obtain ⟨rfl, hargs⟩ := hok rfl
    exact nextMessage_enc hargs hlen hin
  have hend := responseEnd_eq conn.outgoing r.encode
  refine ⟨g', r, responseBody r.encode, ?_, hrun, ?_, responseBody_length_le _,
    responseBody_isFrame r, ?_⟩
  · rw [tryOneRequest_eq, hnext]
    simp only [hrun, Option.bind_some, hend, Option.map_some]
    rw [response, List.append_assoc]
  · rw [responseBody, writeErr_eq, List.nil_append]
    rfl
  · intro hfit
    obtain ⟨lines, h⟩ := Client.printResponse_frame (responseBody_isFrame r) [] (by
      rw [List.append_nil]
      omega)
    rw [List.append_nil] at h
    exact ⟨lines, h⟩

/-- `get k` in the empty keyspace, behind a byte that was not yet written. -/
theorem response_is_one_frame_get : ∃ g g' r body,
    Db.new 4 = some g ∧
    tryOneRequest doRequest 0 g { fd := 5, incoming := le 4 16 ++ enc [lit "get", lit "k"] ++ [7]
                                  outgoing := [9] } =
      some (g', { fd := 5, incoming := [7], outgoing := [9] ++ le 4 body.length ++ body }, true) ∧
    body = (if kMaxMsg < (Reply.encode r).length then tooBig.encode else Reply.encode r) ∧
    IsFrame body := by
  obtain ⟨g, hnew, -⟩ := Db.new_abs 4
  obtain ⟨g', r, body, hrun, -, hbody, -, hframe, -⟩ :=
    response_is_one_frame g (Db.new_reachable hnew) 0
      { fd := 5, incoming := le 4 16 ++ enc [lit "get", lit "k"] ++ [7], outgoing := [9] }
      (enc [lit "get", lit "k"]) [7] [lit "get", lit "k"] (by decide) rfl
      (parseReq_enc (by decide) (by decide))
  exact ⟨g, g', r, body, hnew, hrun, hbody, hframe⟩

end ByoRedis
