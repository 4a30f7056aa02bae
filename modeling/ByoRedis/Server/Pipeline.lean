import ByoRedis.Server.ConnInv
import ByoRedis.Server.Response

/-!
# Server — pipelining

Any number of connections, their streams delivered in pieces of any size by
`handle_read` and their responses taken away in pieces by `handle_write`, in
any order. The requests are those of the streams as a whole, cut up by
`requests`; they are executed one at a time, in the order in which their last
byte arrives.
-/

namespace ByoRedis

open Framing Run

variable {σ : Type}

/-! ## Schedules -/

/-- One step: `handle_read` with the bytes that `read` gives, the clock values
of the requests it executes and what `write` does; or `handle_write`. -/
inductive Io where
  | read (c : Nat) (chunk : Bytes) (clock : Nat → Nat) (w : WriteResult)
  | write (c : Nat) (w : WriteResult)

/-- The state behind all connections, the connections, and the bytes that
each socket has taken. -/
structure Conns (σ : Type) where
  g : σ
  conn : Nat → Conn
  written : Nat → Bytes

/-- Freshly accepted connections. -/
def Conns.start (g : σ) : Conns σ :=
  { g := g, conn := fun c => { fd := c, wantRead := true }, written := fun _ => [] }

/-- One step. -/
def Conns.step (h : Handler σ) (s : Conns σ) : Io → Option (Conns σ)
  | .read c chunk clock w => do
    let (g, conn, sent) ← handleRead h clock s.g (s.conn c) (.got chunk) w
    some { g := g
           conn := Function.update s.conn c conn
           written := Function.update s.written c (s.written c ++ sent) }
  | .write c w => do
    let (conn, sent) ← handleWrite (s.conn c) w
    some { s with
      conn := Function.update s.conn c conn
      written := Function.update s.written c (s.written c ++ sent) }

/-- The steps of a schedule: read only while the connection wants to read and
is not to be closed, write only what there is, and no errors. -/
def Conns.Allowed (s : Conns σ) : Io → Prop
  | .read c chunk _ w =>
    (s.conn c).wantRead = true ∧ (s.conn c).wantClose = false ∧ chunk ≠ [] ∧
      chunk.length ≤ 64 * 1024 ∧ w ≠ .error
  | .write c w => (s.conn c).outgoing ≠ [] ∧ w ≠ .error

/-- A schedule carried out. -/
abbrev Schedule (h : Handler σ) : Conns σ → List Io → Conns σ → Prop :=
  Guarded (Conns.step h) Conns.Allowed

/-- The bytes generated for a connection: written, and still to be written. -/
def Conns.generated (s : Conns σ) (c : Nat) : Bytes := s.written c ++ (s.conn c).outgoing

/-! ## One request at a time -/

/-- A request of a connection and the clock at its execution. -/
structure Request where
  conn : Nat
  now : Nat
  cmd : List Bytes

/-- The bytes read from each connection, beyond those of `str`. -/
def streams (str : Nat → Bytes) : List Io → Nat → Bytes
  | [] => str
  | .read c chunk _ _ :: ios => streams (Function.update str c (str c ++ chunk)) ios
  | .write _ _ :: ios => streams str ios

/-- Commands of one connection at successive clock values. -/
def stamp (c : Nat) (clock : Nat → Nat) (i : Nat) : List (List Bytes) → List Request
  | [] => []
  | cmd :: cmds => { conn := c, now := clock i, cmd := cmd } :: stamp c clock (i + 1) cmds

/-- The requests in the order in which their last byte is read: those of a
stream with the new chunk that the stream did not have before. -/
def completed (str : Nat → Bytes) : List Io → List Request
  | [] => []
  | .read c chunk clock _ :: ios =>
    stamp c clock 0
        ((requests (str c ++ chunk)).items.drop (requests (str c)).items.length) ++
      completed (Function.update str c (str c ++ chunk)) ios
  | .write _ _ :: ios => completed str ios

/-- Execute requests one at a time, each response behind the others of its
connection. -/
def serve (h : Handler σ) (g : σ) (gen : Nat → Bytes) :
    List Request → Option (σ × (Nat → Bytes))
  | [] => some (g, gen)
  | r :: rs => do
    let (g, body) ← h r.now g r.cmd []
    serve h g (Function.update gen r.conn (gen r.conn ++ response body)) rs

/-! ## The requests are those of the streams -/

/-- More bytes only add requests. -/
theorem items_append (s t : Bytes) :
    (requests (s ++ t)).items =
      (requests s).items ++ (requests (s ++ t)).items.drop (requests s).items.length := by
  cases hb : (requests s).bad with
  | true => simp [(Reader.parse_append_of_bad t hb).1]
  | false => simp [requests, Reader.parse_append t hb]

theorem filter_stamp (c c' : Nat) (clock : Nat → Nat) (i : Nat) (cmds : List (List Bytes)) :
    ((stamp c clock i cmds).filter (fun r => r.conn = c')).map Request.cmd =
      if c = c' then cmds else [] := by
  induction cmds generalizing i with
  | nil => simp [stamp]
  | cons cmd cmds ih =>
    by_cases hc : c = c'
    · subst hc
      have := ih (i + 1)
      rw [if_pos rfl] at this ⊢
      simp [stamp, this]
    · have := ih (i + 1)
      rw [if_neg hc] at this ⊢
      simp [stamp, hc, this]

/-- Each connection's requests are those of its stream, in order, each once. -/
theorem completed_filter (ios : List Io) (str : Nat → Bytes) (c : Nat) :
    (requests (str c)).items ++
        ((completed str ios).filter (fun r => r.conn = c)).map Request.cmd =
      (requests (streams str ios c)).items := by
  induction ios generalizing str with
  | nil => simp [completed, streams]
  | cons io ios ih =>
    cases io with
    | write c' w => exact ih str
    | read c' chunk clock w =>
      have := ih (Function.update str c' (str c' ++ chunk))
      rw [streams, ← this, completed, List.filter_append, List.map_append, filter_stamp]
      by_cases hc : c' = c
      · subst hc
        rw [if_pos rfl, Function.update_self, ← List.append_assoc, ← items_append]
      · rw [if_neg hc, Function.update_of_ne (Ne.symm hc), List.nil_append]

/-! ## The schedule serves the requests -/

variable {h : Handler σ}

theorem serve_append (g : σ) (gen : Nat → Bytes) (rs rs' : List Request) :
    serve h g gen (rs ++ rs') = (serve h g gen rs).bind (fun (g', gen') => serve h g' gen' rs') := by
  induction rs generalizing g gen with
  | nil => rfl
  | cons r rs ih =>
    rw [List.cons_append, serve, serve]
    cases h r.now g r.cmd [] with
    | none => rfl
    | some x => exact ih _ _

/-- The requests of one connection, served. -/
theorem serve_stamp {clock : Nat → Nat} {i : Nat} {g g' : σ} {out : Bytes} {c : Nat}
    (cmds : List (List Bytes)) (gen : Nat → Bytes)
    (hall : executeAll h clock i g cmds = some (g', out)) :
    serve h g gen (stamp c clock i cmds) = some (g', Function.update gen c (gen c ++ out)) := by
  induction cmds generalizing i g gen out with
  | nil =>
    cases hall
    simp [stamp, serve]
  | cons cmd cmds ih =>
    simp only [executeAll, Option.bind_eq_bind, Option.bind_eq_some_iff] at hall
    obtain ⟨⟨g₁, body⟩, hrun, ⟨g₂, out₂⟩, hall, he⟩ := hall
    cases he
    rw [stamp, serve]
    simp only [hrun, Option.bind_eq_bind, Option.bind_some, ih _ hall, Function.update_idem,
      Function.update_self, List.append_assoc]

/-- The buffers hold what is left of the streams, and a connection is to be
closed when its stream is broken. -/
structure Conns.Follows (s : Conns σ) (str : Nat → Bytes) : Prop where
  rest : ∀ c, (s.conn c).incoming = (requests (str c)).rest
  close : ∀ c, (s.conn c).wantClose = (requests (str c)).bad

variable {I : σ → Prop} {s s' : Conns σ} {str : Nat → Bytes}

theorem Conns.generated_update {g : σ} {c : Nat} {conn' : Conn} {sent out : Bytes}
    (hsent : (s.conn c).outgoing ++ out = sent ++ conn'.outgoing) :
    Conns.generated { g := g
                      conn := Function.update s.conn c conn'
                      written := Function.update s.written c (s.written c ++ sent) } =
      Function.update s.generated c (s.generated c ++ out) := by
  funext c'
  by_cases hc : c' = c
  · subst hc
    simp [Conns.generated, hsent]
  · simp [Conns.generated, hc]

theorem Conns.follows_update {s' : Conns σ} (hf : s.Follows str) {c : Nat} {conn' : Conn}
    {stream : Bytes} (hconn : s'.conn = Function.update s.conn c conn')
    (hrest : conn'.incoming = (requests stream).rest)
    (hclose : conn'.wantClose = (requests stream).bad) :
    s'.Follows (Function.update str c stream) := by
  constructor
  · intro c'
    by_cases hc : c' = c
    · subst hc
      simp [hconn, hrest]
    · simp [hconn, hc, hf.rest c']
  · intro c'
    by_cases hc : c' = c
    · subst hc
      simp [hconn, hclose]
    · simp [hconn, hc, hf.close c']

/-- **One step** of a schedule goes through and serves the requests that it
completes. -/
theorem step_serves (hh : h.AppendsOn I) (hg : I s.g) (hf : s.Follows str) (io : Io)
    (hio : s.Allowed io) :
    ∃ s', s.step h io = some s' ∧ I s'.g ∧ s'.Follows (streams str [io]) ∧
      serve h s.g s.generated (completed str [io]) = some (s'.g, s'.generated) := by
  cases io with
  | read c chunk clock w =>
    obtain ⟨-, hopen, hne, -, hw⟩ := hio
    obtain ⟨g', out, conn', sent, hg', hall, hrun, -, -, hrest, hsent, hclose, -⟩ :=
      handleRead_got hh clock hg (s.conn c) hne w
    -- the stream with the chunk, in terms of what is left of the stream before
    have hbad : (requests (str c)).bad = false := (hf.close c).symm.trans hopen
    have hparse : requests (str c ++ chunk) =
        ⟨(requests (str c)).items ++ (requests ((requests (str c)).rest ++ chunk)).items,
          (requests ((requests (str c)).rest ++ chunk)).rest,
          (requests ((requests (str c)).rest ++ chunk)).bad⟩ := Reader.parse_append chunk hbad
    rw [hf.rest c] at hall hrest hclose
    let s' : Conns σ := {
      g := g'
      conn := Function.update s.conn c conn'
      written := Function.update s.written c (s.written c ++ sent) }
    refine ⟨s', by simp [Conns.step, hrun, s'], hg', ?_, ?_⟩
    · refine Conns.follows_update hf rfl (hrest.trans ?_) (hclose.trans ?_)
      · rw [hparse]
      · rw [hparse, hopen]
        simp [hw]
    · rw [completed, completed, List.append_nil, Conns.generated_update hsent]
      apply serve_stamp
      rw [hparse, List.drop_left]
      exact hall
  | write c w =>
    obtain ⟨hne, hw⟩ := hio
    obtain ⟨conn', sent, hrun, hsent, hclose, -⟩ := handleWrite_spec (s.conn c) hne w
    let s' : Conns σ := { s with
      conn := Function.update s.conn c conn'
      written := Function.update s.written c (s.written c ++ sent) }
    refine ⟨s', by simp [Conns.step, hrun, s'], hg, ?_, ?_⟩
    · have hcl : conn'.wantClose = (requests (str c)).bad := by
        rw [hclose, hf.close c]
        simp [hw]
      have hf' : s'.Follows (Function.update str c (str c)) :=
        Conns.follows_update hf rfl (hsent.incoming.trans (hf.rest c)) hcl
      rw [Function.update_eq_self] at hf'
      exact hf'
    · have hgen : s'.generated = Function.update s.generated c (s.generated c ++ []) :=
        Conns.generated_update ((List.append_nil _).trans hsent.outgoing)
      rw [List.append_nil, Function.update_eq_self] at hgen
      rw [completed, completed, serve, hgen]

/-- A whole schedule. -/
theorem schedule_serves (hh : h.AppendsOn I) {ios : List Io} (hrun : Schedule h s ios s') :
    ∀ {str : Nat → Bytes}, I s.g → s.Follows str →
      I s'.g ∧ s'.Follows (streams str ios) ∧
        serve h s.g s.generated (completed str ios) = some (s'.g, s'.generated) := by
  induction hrun with
  | nil s =>
    intro str hg hf
    exact ⟨hg, hf, rfl⟩
  | @cons s s₁ s' io ios hio hstep _ ih =>
    intro str hg hf
    obtain ⟨s₂, hstep', hg₁, hf₁, hserve⟩ := step_serves hh hg hf io hio
    obtain rfl : s₁ = s₂ := Option.some.inj (hstep.symm.trans hstep')
    obtain ⟨hg', hf', hserve'⟩ := ih hg₁ hf₁
    have hcomp : completed str (io :: ios) =
        completed str [io] ++ completed (streams str [io]) ios := by
      cases io <;> simp [completed, streams]
    have hstr : streams str (io :: ios) = streams (streams str [io]) ios := by
      cases io <;> rfl
    refine ⟨hg', hstr ▸ hf', ?_⟩
    rw [hcomp, serve_append, hserve]
    exact hserve'

theorem Conns.start_follows (g : σ) : (Conns.start g).Follows (fun _ => []) := by
  have hnil : requests [] = ⟨[], [], false⟩ := Reader.parse_incomplete rfl
  exact ⟨fun c => by rw [hnil]; rfl, fun c => by rw [hnil]; rfl⟩

/-- **Pipelining.** From a reachable keyspace and freshly accepted
connections, every schedule ends with the keyspace and the generated bytes
that executing the completed requests one at a time leads to. The requests of
a connection are those of its stream, each once and in order, up to its first
bad message; it is to be closed exactly when there is one. And no step that
may be taken next fails. -/
theorem pipelining_serializes (g : Db) (hg : g.Reachable) (ios : List Io) (s : Conns Db)
    (hrun : Schedule doRequest (Conns.start g) ios s) :
    serve doRequest g (fun _ => []) (completed (fun _ => []) ios) = some (s.g, s.generated) ∧
    (∀ c, ((completed (fun _ => []) ios).filter (fun r => r.conn = c)).map Request.cmd =
        (requests (streams (fun _ => []) ios c)).items ∧
      (s.conn c).wantClose = (requests (streams (fun _ => []) ios c)).bad) ∧
    ∀ io, s.Allowed io → ∃ s', s.step doRequest io = some s' := by
  obtain ⟨hg', hf, hserve⟩ :=
    schedule_serves doRequest_appendsOn hrun hg.abs (Conns.start_follows g)
  refine ⟨hserve, ?_, ?_⟩
  · intro c
    have hc := completed_filter ios (fun _ => []) c
    have hnil : (requests []).items = [] := by
      rw [requests, Reader.parse_incomplete rfl]
    rw [hnil, List.nil_append] at hc
    exact ⟨hc, hf.close c⟩
  · intro io hio
    obtain ⟨s', hstep, -⟩ := step_serves doRequest_appendsOn hg' hf io hio
    exact ⟨s', hstep⟩

/-- `get k` on connection 3, cut inside of the header; two bytes of the response
are written at once. -/
theorem pipelining_serializes_split : ∃ g s, Db.new 4 = some g ∧
    Schedule doRequest (Conns.start g)
      [.read 3 [16, 0, 0] (fun _ => 7) .again,
        .read 3 (0 :: enc [lit "get", lit "k"]) (fun _ => 7) (.room 2)] s ∧
    serve doRequest g (fun _ => []) (completed (fun _ => [])
      [.read 3 [16, 0, 0] (fun _ => 7) .again,
        .read 3 (0 :: enc [lit "get", lit "k"]) (fun _ => 7) (.room 2)]) =
      some (s.g, s.generated) := by
  obtain ⟨g, hnew, -⟩ := Db.new_abs 4
  have hg := Db.new_reachable hnew
  have hstep : (Conns.start g).step doRequest (.read 3 [16, 0, 0] (fun _ => 7) .again) =
      some { Conns.start g with
        conn := Function.update (Conns.start g).conn 3
          { fd := 3, wantRead := true, incoming := [16, 0, 0] }
        written := Function.update (Conns.start g).written 3 [] } := by
    have hloop := requestLoop_incomplete doRequest (fun _ => 7) 0 g
      { fd := 3, wantRead := true, incoming := [16, 0, 0] } rfl
    simp [Conns.step, handleRead, Conns.start, Buffer.write, hloop]
  have hio₁ : (Conns.start g).Allowed (.read 3 [16, 0, 0] (fun _ => 7) .again) := by
    simp [Conns.Allowed, Conns.start]
  obtain ⟨s₁, hs₁, hg₁, hf₁, -⟩ :=
    step_serves (s := Conns.start g) doRequest_appendsOn hg.abs (Conns.start_follows g) _ hio₁
  have hconn : s₁.conn 3 = { fd := 3, wantRead := true, incoming := [16, 0, 0] } := by
    rw [← Option.some.inj (hstep.symm.trans hs₁)]
    simp
  have hio₂ : s₁.Allowed (.read 3 (0 :: enc [lit "get", lit "k"]) (fun _ => 7) (.room 2)) := by
    refine ⟨by rw [hconn], by rw [hconn], List.cons_ne_nil _ _, ?_, by decide⟩
    rw [List.length_cons, length_enc]
    decide
  obtain ⟨s, hs, -⟩ := step_serves doRequest_appendsOn hg₁ hf₁ _ hio₂
  have hrun := Guarded.cons hio₁ hs₁ (.cons hio₂ hs (.nil s))
  exact ⟨g, s, hnew, hrun, (pipelining_serializes g hg _ s hrun).1⟩

end ByoRedis
