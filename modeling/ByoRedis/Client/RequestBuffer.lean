import ByoRedis.Server.RequestCodec

/-!
# Client — the request buffer

`send_req` checks a length that it has added up in a `uint32_t`, and then stores
strings of any `size_t`. The two agree while the sum stays below `2^32`; a
longer request passes the check when what is left of its length modulo `2^32`
fits, and is stored past the end of `wbuf`.
-/

namespace ByoRedis.Client

open ByteBuf

theorem patch?_length {d src d' : Bytes} {pos : Nat} (h : patch? d pos src = some d') :
    d'.length = d.length ∧ pos + src.length ≤ d.length := by
  unfold patch? at h
  split at h
  · rename_i hfit
    cases h
    refine ⟨?_, hfit⟩
    simp only [List.length_append, List.length_take, List.length_drop]
    omega
  · cases h

/-- Strings that are stored without leaving the array fit in it. -/
theorem storeArgs_fits {wbuf wbuf' : Bytes} {cmd : List Bytes} {cur cur' : Nat}
    (hcur : cur ≤ wbuf.length) (h : storeArgs wbuf cur cmd = some (wbuf', cur')) :
    cur' = cur + (cmd.map (fun s => 4 + s.length)).sum ∧ cur' ≤ wbuf.length := by
  induction cmd generalizing wbuf cur with
  | nil =>
    cases h
    exact ⟨rfl, hcur⟩
  | cons s cmd ih =>
    rw [storeArgs] at h
    simp only [Option.bind_eq_bind, Option.bind_eq_some_iff] at h
    obtain ⟨w₁, h₁, w₂, h₂, hrest⟩ := h
    obtain ⟨hl₁, -⟩ := patch?_length h₁
    obtain ⟨hl₂, hfit⟩ := patch?_length h₂
    obtain ⟨hsum, hle⟩ := ih (by omega) hrest
    rw [List.map_cons, List.sum_cons]
    omega

/-- A request that does not fit is stored past the end. -/
theorem fillReq_overruns {wbuf : Bytes} {cmd : List Bytes} (h : wbuf.length < 4 + reqSize cmd) :
    fillReq wbuf cmd = none := by
  by_contra hne
  obtain ⟨⟨wbuf', cur⟩, hfill⟩ := Option.ne_none_iff_exists'.mp hne
  simp only [fillReq, Option.bind_eq_bind, Option.bind_eq_some_iff] at hfill
  obtain ⟨w₁, h₁, w₂, h₂, hstore⟩ := hfill
  obtain ⟨hl₁, -⟩ := patch?_length h₁
  obtain ⟨hl₂, hfit⟩ := patch?_length h₂
  rw [length_le] at hfit
  obtain ⟨hsum, hle⟩ := storeArgs_fits (by omega) hstore
  rw [reqSize] at h
  omega

/-- Whatever is in `wbuf`: -1 is returned before anything is stored, or all
that is stored lies within `wbuf`, up to where `cur` ends, which is where the
length says, and the length is the sum without a wrap. -/
def SendsWithin (cmd : List Bytes) : Prop :=
  ∀ wbuf : Bytes, wbuf.length = 4 + kMaxMsg →
    (kMaxMsg < reqLen cmd ∧ sendReq wbuf cmd = some none) ∨
    ∃ wbuf' cur bytes, fillReq wbuf cmd = some (wbuf', cur) ∧ sendReq wbuf cmd = some (some bytes) ∧
      cur = 4 + reqLen cmd ∧ reqLen cmd = reqSize cmd

/-- **The request buffer is not overrun**, except by requests whose length is
too large but not so modulo `2^32`. -/
theorem send_req_within_iff (cmd : List Bytes) :
    SendsWithin cmd ↔ reqSize cmd ≤ kMaxMsg ∨ kMaxMsg < reqSize cmd % 2 ^ 32 := by
  have hmax : kMaxMsg = 4096 := rfl
  constructor
  · intro h
    rcases h (List.replicate (4 + kMaxMsg) 0) List.length_replicate with
      ⟨hlen, -⟩ | ⟨wbuf', cur, bytes, -, hsend, -, hexact⟩
    · rw [reqLen_mod] at hlen
      exact .inr hlen
    · left
      by_contra hbig
      rw [sendReq_eq, hexact, if_pos (by omega)] at hsend
      cases hsend
  · rintro (hfit | hbig) wbuf hw
    · right
      obtain ⟨rest, hfill⟩ := fillReq_spec hw hfit
      have hexact : reqLen cmd = reqSize cmd := reqLen_eq (by omega)
      exact ⟨_, _, _, hfill, sendReq_spec hw hfit, by rw [hexact], hexact⟩
    · left
      rw [← reqLen_mod] at hbig
      exact ⟨hbig, by rw [sendReq_eq, if_pos hbig]⟩

/-- One string of `2^32 - 8` bytes: the length wraps to 0 and passes the check,
and the string is stored past the end. -/
theorem send_req_overruns : ∃ cmd : List Bytes, cmd.map List.length = [2 ^ 32 - 8] ∧
    reqLen cmd = 0 ∧ ¬ SendsWithin cmd ∧
    ∀ wbuf : Bytes, wbuf.length = 4 + kMaxMsg → sendReq wbuf cmd = none := by
  have hmax : kMaxMsg = 4096 := rfl
  let cmd : List Bytes := [List.replicate (2 ^ 32 - 8) 0]
  have hsize : reqSize cmd = 2 ^ 32 := by
    simp only [reqSize, cmd, List.map_cons, List.map_nil, List.sum_cons, List.sum_nil,
      List.length_replicate]
    omega
  have hlen : reqLen cmd = 0 := by rw [reqLen_mod, hsize, Nat.mod_self]
  have hfill : ∀ wbuf : Bytes, wbuf.length = 4 + kMaxMsg → fillReq wbuf cmd = none := by
    intro wbuf hw
    exact fillReq_overruns (by omega)
  refine ⟨cmd, by simp only [cmd, List.map_cons, List.map_nil, List.length_replicate], hlen, ?_, ?_⟩
  · intro h
    rcases h (List.replicate (4 + kMaxMsg) 0) List.length_replicate with
      ⟨hbig, -⟩ | ⟨wbuf', cur, bytes, hrun, -⟩
    · omega
    · rw [hfill _ List.length_replicate] at hrun
      cases hrun
  · intro wbuf hw
    rw [sendReq_eq, if_neg (by omega), hfill wbuf hw]
    rfl

end ByoRedis.Client
