import ByoRedis.Server.Message

/-!
# Server — what reading and writing do to a connection

One lemma each for `handle_write` and `handle_read`, for everything `read` and
`write` may answer: which bytes are taken, which requests are executed, and
how the intentions end up.
-/

namespace ByoRedis

open Framing

/-- The intentions fit the output: read when it is empty, write when not. -/
structure Conn.Tuned (conn : Conn) : Prop where
  read : conn.wantRead = true ↔ conn.outgoing = []
  write : conn.wantWrite = true ↔ conn.outgoing ≠ []

/-- Nothing but the intentions and the output of a connection has changed, and
`sent` was taken off the output. -/
structure Conn.Sent (conn conn' : Conn) (sent : Bytes) : Prop where
  fd : conn'.fd = conn.fd
  active : conn'.lastActiveMs = conn.lastActiveMs
  incoming : conn'.incoming = conn.incoming
  outgoing : conn.outgoing = sent ++ conn'.outgoing

/-- **`handle_write`** when there is something to write. -/
theorem handleWrite_spec (conn : Conn) (hne : conn.outgoing ≠ []) (w : WriteResult) :
    ∃ conn' sent, handleWrite conn w = some (conn', sent) ∧ conn.Sent conn' sent ∧
      conn'.wantClose = (conn.wantClose || decide (w = .error)) ∧ (conn.Tuned → conn'.Tuned) := by
  have hlen : conn.outgoing.length ≠ 0 := by simpa using hne
  unfold handleWrite
  rw [if_neg hlen]
  cases w with
  | again => exact ⟨conn, [], rfl, ⟨rfl, rfl, rfl, rfl⟩, by simp, id⟩
  | error => exact ⟨_, [], rfl, ⟨rfl, rfl, rfl, rfl⟩, by simp, fun h => ⟨h.read, h.write⟩⟩
  | room n =>
    have hconsume : conn.outgoing.consume (min n conn.outgoing.length) =
        some (conn.outgoing.drop (min n conn.outgoing.length)) := by
      rw [Buffer.consume, if_pos (Nat.min_le_right _ _)]
    have hsplit := (List.take_append_drop (min n conn.outgoing.length) conn.outgoing).symm
    simp only [hconsume, Option.bind_eq_bind, Option.bind_some]
    by_cases hempty : (conn.outgoing.drop (min n conn.outgoing.length)).length = 0
    · rw [if_pos hempty]
      refine ⟨_, _, rfl, ⟨rfl, rfl, rfl, hsplit⟩, by simp, ?_⟩
      intro _
      have hnil := List.eq_nil_of_length_eq_zero hempty
      exact ⟨by simp [hnil], by simp [hnil]⟩
    · rw [if_neg hempty]
      refine ⟨_, _, rfl, ⟨rfl, rfl, rfl, hsplit⟩, by simp, ?_⟩
      intro h
      have hnil : conn.outgoing.drop (min n conn.outgoing.length) ≠ [] :=
        fun he => hempty (by rw [he]; rfl)
      exact ⟨by simpa [hne, hnil] using h.read, by simpa [hne, hnil] using h.write⟩

variable {σ : Type} {h : Handler σ} {I : σ → Prop}

/-- **`handle_read`** when `read` gives bytes: the requests completed by them
are executed in order. -/
theorem handleRead_got (hh : h.AppendsOn I) (clock : Nat → Nat) {g : σ} (hg : I g) (conn : Conn)
    {bytes : Bytes} (hne : bytes ≠ []) (w : WriteResult) :
    ∃ g' out conn' sent, I g' ∧
      executeAll h clock 0 g (requests (conn.incoming ++ bytes)).items = some (g', out) ∧
      handleRead h clock g conn (.got bytes) w = some (g', conn', sent) ∧
      conn'.fd = conn.fd ∧ conn'.lastActiveMs = conn.lastActiveMs ∧
      conn'.incoming = (requests (conn.incoming ++ bytes)).rest ∧
      conn.outgoing ++ out = sent ++ conn'.outgoing ∧
      conn'.wantClose = (conn.wantClose || (requests (conn.incoming ++ bytes)).bad ||
        (decide (conn.outgoing ++ out ≠ []) && decide (w = .error))) ∧
      (conn.Tuned → conn'.Tuned) := by
  have hlen : bytes.length ≠ 0 := by simpa using hne
  obtain ⟨g', out, hg', hall, hloop⟩ :=
    requestLoop_spec hh clock 0 hg { conn with incoming := conn.incoming ++ bytes }
  let conn₁ : Conn := { conn with
    incoming := (requests (conn.incoming ++ bytes)).rest
    outgoing := conn.outgoing ++ out
    wantClose := conn.wantClose || (requests (conn.incoming ++ bytes)).bad }
  by_cases hempty : conn.outgoing ++ out = []
  · refine ⟨g', out, conn₁, [], hg', hall, ?_, rfl, rfl, rfl, ?_, ?_, ?_⟩
    · rw [handleRead, if_neg hlen]
      simp only [Buffer.write, hloop, Option.bind_eq_bind, Option.bind_some]
      rw [if_neg (by rw [hempty]; exact Nat.lt_irrefl 0)]
    · rfl
    · simp [hempty, conn₁]
    · intro ht
      obtain ⟨hout, hout'⟩ := List.append_eq_nil_iff.mp hempty
      exact ⟨by simpa [conn₁, hout, hout'] using ht.read,
        by simpa [conn₁, hout, hout'] using ht.write⟩
  · obtain ⟨conn', sent, hw, hsent, hclose, htuned⟩ :=
      handleWrite_spec { conn₁ with wantRead := false, wantWrite := true } hempty w
    refine ⟨g', out, conn', sent, hg', hall, ?_, hsent.fd, hsent.active, hsent.incoming,
      hsent.outgoing, ?_,
      fun _ => htuned ⟨by simpa [conn₁] using hempty, by simpa [conn₁] using hempty⟩⟩
    · rw [handleRead, if_neg hlen]
      simp only [Buffer.write, hloop, Option.bind_eq_bind, Option.bind_some]
      rw [if_pos (List.length_pos_iff.mpr hempty)]
      rw [show handleWrite _ w = some (conn', sent) from hw, Option.bind_some]
    · rw [hclose]
      simp [conn₁, hempty]

end ByoRedis
