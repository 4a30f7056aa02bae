import ByoRedis.Lib.Framing
import ByoRedis.Server.RequestCodec

/-!
# Server — the messages of a stream

`nextMessage` says what stands at the front of a stream, `requests` cuts the
whole stream up, and `response` frames an answer. In these terms one call of
`try_one_request` is `tryOneRequest_eq`, and the loop around it executes the
requests of the buffer one after the other (`requestLoop_eq`).
-/

namespace ByoRedis

open ByteBuf Framing

/-! ## Cutting a stream -/

/-- What stands at the front of a stream: a request, a message that is not
there to its end, or one that is too long or cannot be parsed. -/
def nextMessage (s : Bytes) : Cut UInt8 (List Bytes) :=
  if s.length < 4 then .incomplete
  else if kMaxMsg < ofLe (s.take 4) then .bad
  else if s.length < 4 + ofLe (s.take 4) then .incomplete
  else
    match parseReq ((s.drop 4).take (ofLe (s.take 4))) [] with
    | some (0, cmd) => .item cmd (s.drop (4 + ofLe (s.take 4)))
    | _ => .bad

variable {s : Bytes}

/-- In a message that is there to its end nothing depends on what follows. -/
theorem nextMessage_append_of_long (t : Bytes) (h4 : ¬ s.length < 4)
    (hlen : ¬ s.length < 4 + ofLe (s.take 4)) :
    (s ++ t).take 4 = s.take 4 ∧
      ((s ++ t).drop 4).take (ofLe (s.take 4)) = (s.drop 4).take (ofLe (s.take 4)) ∧
      (s ++ t).drop (4 + ofLe (s.take 4)) = s.drop (4 + ofLe (s.take 4)) ++ t := by
  refine ⟨List.take_append_of_le_length (by omega), ?_,
    List.drop_append_of_le_length (by omega)⟩
  rw [List.drop_append_of_le_length (by omega), List.take_append_of_le_length]
  rw [List.length_drop]
  omega

theorem nextMessage_item_append {cmd : List Bytes} {rest : Bytes} (t : Bytes)
    (h : nextMessage s = .item cmd rest) : nextMessage (s ++ t) = .item cmd (rest ++ t) := by
  unfold nextMessage at h
  split at h
  · cases h
  · rename_i h4
    split at h
    · cases h
    · rename_i hmax
      split at h
      · cases h
      · rename_i hlen
        obtain ⟨ht, hb, hr⟩ := nextMessage_append_of_long t h4 hlen
        split at h
        · rename_i cmd' hp
          cases h
          have hl : (s ++ t).length = s.length + t.length := List.length_append
          rw [nextMessage, ht, if_neg (by omega), if_neg hmax, if_neg (by omega), hb, hp, hr]
          rfl
        · cases h

theorem nextMessage_bad_append (t : Bytes) (h : nextMessage s = .bad) :
    nextMessage (s ++ t) = .bad := by
  have hl : (s ++ t).length = s.length + t.length := List.length_append
  unfold nextMessage at h
  split at h
  · cases h
  · rename_i h4
    split at h
    · rename_i hmax
      have ht : (s ++ t).take 4 = s.take 4 := List.take_append_of_le_length (by omega)
      rw [nextMessage, ht, if_neg (by omega), if_pos hmax]
    · rename_i hmax
      split at h
      · cases h
      · rename_i hlen
        obtain ⟨ht, hb, -⟩ := nextMessage_append_of_long t h4 hlen
        split at h
        · cases h
        · rename_i hp
          rw [nextMessage, ht, if_neg (by omega), if_neg hmax, if_neg (by omega), hb]
          split
          · rename_i cmd hp'
            exact absurd hp' (hp cmd)
          · rfl

theorem nextMessage_shorter {cmd : List Bytes} {rest : Bytes} (h : nextMessage s = .item cmd rest) :
    rest.length < s.length := by
  unfold nextMessage at h
  split at h
  · cases h
  · split at h
    · cases h
    · split at h
      · cases h
      · split at h
        · cases h
          simp only [List.length_drop]
          omega
        · cases h

/-- The requests of a stream. -/
def requestReader : Reader UInt8 (List Bytes) where
  cut := nextMessage
  shorter := nextMessage_shorter
  item_append := nextMessage_item_append
  bad_append := nextMessage_bad_append

theorem requestReader_cut : requestReader.cut = nextMessage := rfl

/-- A stream cut into requests, up to its first bad message. -/
abbrev requests (s : Bytes) : Parsed UInt8 (List Bytes) := requestReader.parse s

/-- A request at the front of a stream is the encoding of a command. -/
theorem nextMessage_enc {cmd : List Bytes} {rest : Bytes} (hargs : cmd.length ≤ kMaxArgs)
    (hlen : (enc cmd).length ≤ kMaxMsg) (hs : s = le 4 (enc cmd).length ++ enc cmd ++ rest) :
    nextMessage s = .item cmd rest := by
  have hmax : kMaxMsg = 33554432 := rfl
  have hbound := encArgs_bounds cmd
  have hencl : (enc cmd).length = 4 + (encArgs cmd).length := by simp [enc]
  have hparse : parseReq (enc cmd) [] = some (0, cmd) := by
    apply parseReq_enc hargs
    intro x hx
    have := hbound.2 x hx
    omega
  have hl : s.length = 4 + (enc cmd).length + rest.length := by simp [hs, Nat.add_assoc]
  have htake : s.take 4 = le 4 (enc cmd).length := by
    rw [hs, List.append_assoc]
    exact List.take_left' (length_le 4 _)
  have hof : ofLe (s.take 4) = (enc cmd).length := by
    rw [htake]
    exact ofLe_le_of_lt (by omega)
  have hbody : (s.drop 4).take (enc cmd).length = enc cmd := by
    rw [hs, List.append_assoc, List.drop_left' (length_le 4 _)]
    exact List.take_left
  have hrest : s.drop (4 + (enc cmd).length) = rest := by
    rw [hs]
    exact List.drop_left' (by simp)
  rw [nextMessage, hof, if_neg (by omega), if_neg (by omega), if_neg (by omega), hbody, hparse]
  simp only [hrest]

/-- The message of a request. -/
def message (cmd : List Bytes) : Bytes := le 4 (enc cmd).length ++ enc cmd

/-- The first request of a stream that starts with its message. -/
theorem requests_message {cmd : List Bytes} (hargs : cmd.length ≤ kMaxArgs)
    (hlen : (enc cmd).length ≤ kMaxMsg) (rest : Bytes) :
    requests (message cmd ++ rest) =
      ⟨cmd :: (requests rest).items, (requests rest).rest, (requests rest).bad⟩ := by
  have hcut : requestReader.cut (message cmd ++ rest) = .item cmd rest := by
    rw [requestReader_cut, message]
    exact nextMessage_enc hargs hlen rfl
  rw [requests, Reader.parse_item hcut]

theorem requests_nil : requests [] = ⟨[], [], false⟩ := by
  have hcut : requestReader.cut [] = .incomplete := rfl
  rw [requests, Reader.parse_incomplete hcut]

theorem requests_single {cmd : List Bytes} (hargs : cmd.length ≤ kMaxArgs)
    (hlen : (enc cmd).length ≤ kMaxMsg) : requests (message cmd) = ⟨[cmd], [], false⟩ := by
  have hsplit := requests_message hargs hlen []
  rwa [List.append_nil, requests_nil] at hsplit

/-! ## One request -/

variable {σ : Type}

/-- **`try_one_request`**, by what stands at the front of the buffer. -/
theorem tryOneRequest_eq (h : Handler σ) (now : Nat) (g : σ) (conn : Conn) :
    tryOneRequest h now g conn =
      match nextMessage conn.incoming with
      | .incomplete => some (g, conn, false)
      | .bad => some (g, { conn with wantClose := true }, false)
      | .item cmd rest =>
        (h now g cmd (conn.outgoing ++ le 4 0)).bind (fun (g', out) =>
          (responseEnd out conn.outgoing.length).map (fun out =>
            (g', { conn with incoming := rest, outgoing := out }, true))) := by
  rw [tryOneRequest, nextMessage]
  by_cases h4 : conn.incoming.length < 4
  · rw [if_pos h4, if_pos h4]
  · have hslice : slice? conn.incoming 0 4 = some (conn.incoming.take 4) := by
      rw [slice?, if_pos (by omega), List.drop_zero]
    rw [if_neg h4, if_neg h4, hslice]
    simp only [Option.bind_eq_bind, Option.bind_some]
    by_cases hmax : kMaxMsg < ofLe (conn.incoming.take 4)
    · rw [if_pos hmax, if_pos hmax]
    · rw [if_neg hmax, if_neg hmax]
      by_cases hlen : conn.incoming.length < 4 + ofLe (conn.incoming.take 4)
      · rw [if_pos hlen, if_pos hlen]
      · rw [if_neg hlen, if_neg hlen, slice?, if_pos (by omega)]
        obtain ⟨rc, cmd, hrun, hrc, -⟩ :=
          parseReq_sound ((conn.incoming.drop 4).take (ofLe (conn.incoming.take 4)))
        have hconsume : conn.incoming.consume (4 + ofLe (conn.incoming.take 4)) =
            some (conn.incoming.drop (4 + ofLe (conn.incoming.take 4))) := by
          rw [Buffer.consume, if_pos (by omega)]
        simp only [Option.bind_some, hrun, hconsume]
        rcases hrc with rfl | rfl
        · simp only [responseBegin, Buffer.writeU32, Buffer.write]
          rw [if_neg (by omega)]
          congr 1
          funext x
          obtain ⟨g', out⟩ := x
          cases responseEnd out conn.outgoing.length <;> rfl
        · rfl

/-- **The request codec.** `parse_req` always answers, without reading outside
of the request; it answers 0 with `cmd` exactly on the encoding of a command
of at most `k_max_args` strings, and -1 on everything else. What the client
sends for a command that fits in its buffer is the length of the encoding and
the encoding, from which `try_one_request` takes exactly that command and
leaves nothing behind. -/
theorem request_codec :
    (∀ d : Bytes, d.length ≤ kMaxMsg →
      (∃ rc out, parseReq d [] = some (rc, out) ∧
        (rc = 0 ∨ rc = -1 ∧ ∀ cmd, ¬ (d = enc cmd ∧ cmd.length ≤ kMaxArgs))) ∧
      ∀ cmd, parseReq d [] = some (0, cmd) ↔ d = enc cmd ∧ cmd.length ≤ kMaxArgs) ∧
    ∀ (cmd : List Bytes) (wbuf : Bytes), wbuf.length = 4 + Client.kMaxMsg →
      4 + (cmd.map (fun s => 4 + s.length)).sum ≤ 4096 →
      Client.sendReq wbuf cmd = some (some (le 4 (enc cmd).length ++ enc cmd)) ∧
      ∀ (σ : Type) (h : Handler σ) (now : Nat) (g : σ) (conn : Conn),
        conn.incoming = le 4 (enc cmd).length ++ enc cmd →
        tryOneRequest h now g conn =
          (h now g cmd (conn.outgoing ++ le 4 0)).bind (fun (g', out) =>
            (responseEnd out conn.outgoing.length).map (fun out =>
              (g', { conn with incoming := [], outgoing := out }, true))) := by
  constructor
  · intro d hd
    have hiff : ∀ cmd, parseReq d [] = some (0, cmd) ↔ d = enc cmd ∧ cmd.length ≤ kMaxArgs := by
      intro cmd
      constructor
      · intro hrun
        obtain ⟨rc, out, hrun', -, hok⟩ := parseReq_sound d
        rw [hrun] at hrun'
        cases hrun'
        exact hok rfl
      · rintro ⟨rfl, hargs⟩
        apply parseReq_enc hargs
        intro s hs
        have hmax : kMaxMsg = 33554432 := rfl
        have := (encArgs_bounds cmd).2 s hs
        rw [enc, List.length_append] at hd
        omega
    refine ⟨?_, hiff⟩
    obtain ⟨rc, out, hrun, hrc, -⟩ := parseReq_sound d
    refine ⟨rc, out, hrun, ?_⟩
    rcases hrc with rfl | rfl
    · exact .inl rfl
    · refine .inr ⟨rfl, ?_⟩
      intro cmd hcmd
      rw [(hiff cmd).mpr hcmd] at hrun
      cases hrun
  · intro cmd wbuf hw hlen
    have hmax : kMaxMsg = 33554432 := rfl
    have hargs : kMaxArgs = 200000 := rfl
    have henc : (enc cmd).length ≤ 4096 := by
      rw [length_enc]
      exact hlen
    have hcount := (encArgs_bounds cmd).1
    rw [enc, List.length_append] at henc
    refine ⟨Client.sendReq_spec hw hlen, ?_⟩
    intro σ h now g conn hin
    have hnext : nextMessage conn.incoming = .item cmd [] := by
      apply nextMessage_enc (by omega)
      · rw [enc, List.length_append]
        omega
      · rw [hin, List.append_nil]
    rw [tryOneRequest_eq, hnext]

/-- The command `get k`, parsed and sent. -/
theorem request_codec_get :
    (enc [lit "get", lit "k"]).length ≤ kMaxMsg ∧
      parseReq (enc [lit "get", lit "k"]) [] = some (0, [lit "get", lit "k"]) ∧
      Client.sendReq (List.replicate 4100 0) [lit "get", lit "k"] =
        some (some (le 4 16 ++ enc [lit "get", lit "k"])) := by
  refine ⟨by decide, ?_, ?_⟩
  · exact ((request_codec.1 _ (by decide)).2 _).mpr ⟨rfl, by decide⟩
  · exact (request_codec.2 [lit "get", lit "k"] (List.replicate 4100 0)
      (by rw [List.length_replicate]; rfl) (by decide)).1

/-! ## Responses -/

/-- The body that is sent for an answer: one that is too long is replaced. -/
def responseBody (body : Bytes) : Bytes :=
  if kMaxMsg < body.length then
    Buffer.writeFrameError [] ErrCode.tooBig.code (lit "response is too big.")
  else body

/-- The message that is sent for an answer. -/
def response (body : Bytes) : Bytes := le 4 (responseBody body).length ++ responseBody body

theorem responseBody_length_le (body : Bytes) : (responseBody body).length ≤ kMaxMsg := by
  rw [responseBody]
  split
  · decide
  · omega

/-- `response_end` fills in the header that `response_begin` has reserved, and
nothing in front of it changes. -/
theorem responseEnd_eq (out body : Bytes) :
    responseEnd (out ++ le 4 0 ++ body) out.length = some (out ++ response body) := by
  have hsize : ∀ b : Bytes, responseSize (out ++ le 4 0 ++ b) out.length = b.length := by
    intro b
    simp only [responseSize, List.length_append, length_le]
    omega
  have hpatch : ∀ b : Bytes, patch? (out ++ le 4 0 ++ b) out.length (le 4 b.length) =
      some (out ++ le 4 b.length ++ b) := fun b => patch?_append rfl rfl (by simp)
  rw [responseEnd, hsize, response, responseBody]
  by_cases hbig : kMaxMsg < body.length
  · have htake : (out ++ le 4 0 ++ body).take (out.length + 4) = out ++ le 4 0 :=
      List.take_left' (by simp)
    have herr : ∀ msg : Bytes, Buffer.writeFrameError (out ++ le 4 0) ErrCode.tooBig.code msg =
        out ++ le 4 0 ++ Buffer.writeFrameError [] ErrCode.tooBig.code msg := by
      intro msg
      simp [Buffer.writeFrameError, Buffer.writeU32, Buffer.writeU8, Buffer.write]
    rw [if_pos hbig, if_pos hbig, htake, herr, hsize, hpatch, List.append_assoc]
  · rw [if_neg hbig, if_neg hbig, hsize, hpatch, List.append_assoc]

/-! ## The loop -/

/-- In every state of `I` the handler goes through, only appends to the buffer
it is given, whatever is in it, and stays in `I`. -/
def Handler.AppendsOn (h : Handler σ) (I : σ → Prop) : Prop :=
  ∀ g, I g → ∀ now cmd, ∃ g' body, I g' ∧ ∀ out, h now g cmd out = some (g', out ++ body)

/-- Commands executed one after the other, the first of them at `clock i`: the
state and the responses. -/
def executeAll (h : Handler σ) (clock : Nat → Nat) (i : Nat) (g : σ) :
    List (List Bytes) → Option (σ × Bytes)
  | [] => some (g, [])
  | cmd :: cmds => do
    let (g, body) ← h (clock i) g cmd []
    let (g, out) ← executeAll h clock (i + 1) g cmds
    some (g, response body ++ out)

variable {h : Handler σ} {I : σ → Prop}

/-- One request, taken off the front of the buffer. -/
theorem tryOneRequest_item (hh : h.AppendsOn I) (now : Nat) {g : σ} (hg : I g) {conn : Conn}
    {cmd : List Bytes} {rest : Bytes} (hnext : nextMessage conn.incoming = .item cmd rest) :
    ∃ g' body, I g' ∧ (∀ out, h now g cmd out = some (g', out ++ body)) ∧
      tryOneRequest h now g conn =
        some (g', { conn with incoming := rest, outgoing := conn.outgoing ++ response body },
          true) := by
  obtain ⟨g', body, hg', hrun⟩ := hh g hg now cmd
  refine ⟨g', body, hg', hrun, ?_⟩
  have hend := responseEnd_eq conn.outgoing body
  rw [tryOneRequest_eq, hnext]
  simp only [hrun, Option.bind_some, hend, Option.map_some]

/-- One round of the loop. -/
theorem requestLoop_step (h : Handler σ) (clock : Nat → Nat) (i : Nat) (g : σ) (conn : Conn) :
    requestLoop h clock i g conn =
      (tryOneRequest h (clock i) g conn).bind (fun (g', conn', again) =>
        if again then requestLoop h clock (i + 1) g' conn' else some (g', conn')) := by
  rw [requestLoop.eq_def]
  split <;> rename_i hrun <;> simp [hrun]

theorem requestLoop_incomplete (h : Handler σ) (clock : Nat → Nat) (i : Nat) (g : σ) (conn : Conn)
    (hc : nextMessage conn.incoming = .incomplete) :
    requestLoop h clock i g conn = some (g, conn) := by
  rw [requestLoop_step, tryOneRequest_eq, hc]
  rfl

/-- **`while (try_one_request(conn)) {}`** executes the requests of the buffer
one after the other, keeps what follows them, and asks for a close at a bad
message. -/
theorem requestLoop_spec (hh : h.AppendsOn I) (clock : Nat → Nat) (i : Nat) {g : σ} (hg : I g)
    (conn : Conn) :
    ∃ g' out, I g' ∧ executeAll h clock i g (requests conn.incoming).items = some (g', out) ∧
      requestLoop h clock i g conn =
        some (g', { conn with
          incoming := (requests conn.incoming).rest
          outgoing := conn.outgoing ++ out
          wantClose := conn.wantClose || (requests conn.incoming).bad }) := by
  induction hs : conn.incoming using requestReader.parse_induction generalizing i g conn with
  | incomplete s hc =>
    subst hs
    refine ⟨g, [], hg, by simp [Reader.parse_incomplete hc, executeAll], ?_⟩
    rw [requestLoop_incomplete h clock i g conn hc]
    simp [Reader.parse_incomplete hc]
  | bad s hc =>
    subst hs
    have hc' : nextMessage conn.incoming = .bad := hc
    refine ⟨g, [], hg, by simp [Reader.parse_bad hc, executeAll], ?_⟩
    rw [requestLoop_step]
    simp [tryOneRequest_eq, hc', Reader.parse_bad hc]
  | item s cmd rest hc ih =>
    subst hs
    obtain ⟨g₁, body, hg₁, hrun, htry⟩ := tryOneRequest_item hh (clock i) hg hc
    obtain ⟨g', out, hg', hall, hloop⟩ := ih (i + 1) hg₁
      { conn with incoming := rest, outgoing := conn.outgoing ++ response body } rfl
    refine ⟨g', response body ++ out, hg', ?_, ?_⟩
    · simp only [requests] at hall
      simp [Reader.parse_item hc, executeAll, hrun, hall]
    · rw [requestLoop_step, htry]
      simp only [Option.bind_some, if_true, hloop]
      simp [Reader.parse_item hc]

end ByoRedis
