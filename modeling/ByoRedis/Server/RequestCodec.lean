import ByoRedis.Server.Conn
import ByoRedis.Client.Request

/-!
# Server — the parser accepts exactly the encoder's image

`enc` is the layout drawn above `parse_req` in the source: the number of
strings, then each string behind its length. The parser is proved to accept
exactly the encodings, and the client to send exactly them.
-/

namespace ByoRedis

open ByteBuf

/-! ## The encoding -/

/-- A string behind its length. -/
def encStr (s : Bytes) : Bytes := le 4 s.length ++ s

/-- The strings of a command, one after the other. -/
def encArgs (cmd : List Bytes) : Bytes := (cmd.map encStr).flatten

/-- The body of a request. -/
def enc (cmd : List Bytes) : Bytes := le 4 cmd.length ++ encArgs cmd

@[simp] theorem encArgs_nil : encArgs [] = [] := rfl

@[simp] theorem encArgs_cons (s : Bytes) (cmd : List Bytes) :
    encArgs (s :: cmd) = le 4 s.length ++ s ++ encArgs cmd := rfl

theorem length_encArgs_cons (s : Bytes) (cmd : List Bytes) :
    (encArgs (s :: cmd)).length = 4 + s.length + (encArgs cmd).length := by
  simp [Nat.add_assoc]

/-- Every string is shorter than what encodes it, and so is their number. -/
theorem encArgs_bounds (cmd : List Bytes) :
    cmd.length ≤ (encArgs cmd).length ∧ ∀ s ∈ cmd, s.length ≤ (encArgs cmd).length := by
  induction cmd with
  | nil => simp
  | cons s cmd ih =>
    rw [length_encArgs_cons]
    refine ⟨by simp only [List.length_cons]; omega, ?_⟩
    intro x hx
    rcases List.mem_cons.mp hx with rfl | hx
    · omega
    · have := ih.2 x hx
      omega

/-! ## The helpers -/

variable {data a b c rest : Bytes}

theorem readU32_short {cur : Nat} (h : data.length < cur + 4) :
    readU32 data cur data.length = some none := by
  rw [readU32, if_pos h]

theorem readU32_at (hd : data = a ++ b ++ c) (hb : b.length = 4) :
    readU32 data a.length data.length = some (some (ofLe b, (a ++ b).length)) := by
  have hlen : data.length = a.length + 4 + c.length := by simp [hd, hb, Nat.add_assoc]
  rw [readU32, if_neg (by omega), slice?_append hd rfl hb.symm]
  simp [hb]

theorem readStr_short {cur n : Nat} (h : data.length < cur + n) :
    readStr data cur data.length n = some none := by
  rw [readStr, if_pos h]

theorem readStr_at (hd : data = a ++ b ++ c) :
    readStr data a.length data.length b.length = some (some (b, (a ++ b).length)) := by
  have hlen : data.length = a.length + b.length + c.length := by simp [hd, Nat.add_assoc]
  rw [readStr, if_neg (by omega), slice?_append hd rfl rfl]
  simp

/-! ## The loop -/

/-- Encoded strings are read back. -/
theorem parseLoop_complete (strs : List Bytes) {nstr : Nat} {out : List Bytes}
    (hd : data = a ++ encArgs strs ++ rest) (hs : ∀ s ∈ strs, s.length < 2 ^ 32)
    (hn : out.length + strs.length = nstr) :
    parseLoop data data.length nstr a.length out =
      some (some (a ++ encArgs strs).length, out ++ strs) := by
  induction strs generalizing a out with
  | nil =>
    rw [parseLoop, if_neg (by simp only [List.length_nil] at hn; omega)]
    simp
  | cons s strs ih =>
    have hlen : s.length < 256 ^ 4 := hs s (by simp)
    have hd1 : data = a ++ le 4 s.length ++ (s ++ encArgs strs ++ rest) := by simp [hd]
    have hd2 : data = (a ++ le 4 s.length) ++ s ++ (encArgs strs ++ rest) := by simp [hd]
    have hd3 : data = (a ++ le 4 s.length ++ s) ++ encArgs strs ++ rest := by simp [hd]
    rw [parseLoop, if_pos (by simp only [List.length_cons] at hn; omega),
      readU32_at hd1 (length_le 4 _)]
    simp only [ofLe_le_of_lt hlen, readStr_at hd2]
    rw [ih hd3 (fun x hx => hs x (by simp [hx]))
      (by simp only [List.length_append, List.length_cons, List.length_nil] at hn ⊢; omega)]
    simp

/-- The loop always answers, and what it accepts is encoded strings. -/
theorem parseLoop_sound (n : Nat) {nstr : Nat} {out : List Bytes} (hn : nstr - out.length = n)
    (hd : data = a ++ rest) :
    ∃ res out', parseLoop data data.length nstr a.length out = some (res, out') ∧
      ∀ cur, res = some cur → ∃ strs rest', out' = out ++ strs ∧ rest = encArgs strs ++ rest' ∧
        cur = (a ++ encArgs strs).length ∧ (out.length ≤ nstr → out'.length = nstr) := by
  induction n generalizing a rest out with
  | zero =>
    rw [parseLoop, if_neg (by omega)]
    refine ⟨_, _, rfl, ?_⟩
    rintro cur ⟨⟩
    exact ⟨[], rest, by simp, by simp, by simp, fun h => by omega⟩
  | succ n ih =>
    rw [parseLoop, if_pos (by omega)]
    by_cases h4 : data.length < a.length + 4
    · rw [readU32_short h4]
      exact ⟨none, out, rfl, by simp⟩
    · obtain ⟨a', b, c, hsplit, ha', hb, -⟩ := slice?_split data a.length 4 (by omega)
      obtain rfl : a' = a := by
        have := hsplit.symm.trans hd
        rw [List.append_assoc] at this
        exact (List.append_inj this ha').1
      rw [readU32_at hsplit hb]
      simp only
      by_cases hstr : data.length < (a' ++ b).length + ofLe b
      · rw [readStr_short hstr]
        exact ⟨none, _, rfl, by simp⟩
      · obtain ⟨a'', s, c', hsplit', ha'', hs, -⟩ :=
          slice?_split data (a' ++ b).length (ofLe b) (by omega)
        obtain rfl : a'' = a' ++ b := by
          have := hsplit'.symm.trans hsplit
          rw [List.append_assoc] at this
          exact (List.append_inj this ha'').1
        have hb' : b = le 4 s.length := by rw [hs, le_ofLe hb]
        rw [← hs, readStr_at hsplit']
        simp only
        have hleft : nstr - (out ++ [s]).length = n := by
          simp only [List.length_append, List.length_cons, List.length_nil]
          omega
        obtain ⟨res, out', hrun, hres⟩ := ih hleft hsplit'
        refine ⟨res, out', hrun, ?_⟩
        intro cur hcur
        obtain ⟨strs, rest', hout, hrest, hc, hlen⟩ := hres cur hcur
        refine ⟨s :: strs, rest', by simp [hout], ?_, by simp [hc, hb'], ?_⟩
        · have hall : a' ++ rest = a' ++ (b ++ s ++ c') := by rw [← hd, hsplit']; simp
          rw [List.append_cancel_left hall, hrest, hb']
          simp
        · intro _
          apply hlen
          simp only [List.length_append, List.length_cons, List.length_nil]
          omega

/-! ## The parser -/

/-- An encoding within the limits is accepted. -/
theorem parseReq_enc {cmd : List Bytes} (hargs : cmd.length ≤ kMaxArgs)
    (hlen : ∀ s ∈ cmd, s.length < 2 ^ 32) : parseReq (enc cmd) [] = some (0, cmd) := by
  have hcount : cmd.length < 256 ^ 4 := by
    simp only [kMaxArgs] at hargs
    omega
  have hd : enc cmd = [] ++ le 4 cmd.length ++ encArgs cmd := rfl
  have hd' : enc cmd = le 4 cmd.length ++ encArgs cmd ++ [] := by simp [enc]
  have hread := readU32_at hd (length_le 4 _)
  have hloop := parseLoop_complete cmd hd' hlen (show [].length + cmd.length = cmd.length by simp)
  simp only [List.nil_append, List.length_nil, ofLe_le_of_lt hcount] at hread
  rw [parseReq]
  simp only [hread, if_neg (Nat.not_lt.mpr hargs), hloop]
  simp [enc]

/-- The parser always answers 0 or -1, and what it accepts is an encoding. -/
theorem parseReq_sound (d : Bytes) :
    ∃ rc out, parseReq d [] = some (rc, out) ∧ (rc = 0 ∨ rc = -1) ∧
      (rc = 0 → d = enc out ∧ out.length ≤ kMaxArgs) := by
  rw [parseReq]
  by_cases h4 : d.length < 0 + 4
  · simp only [readU32_short h4]
    exact ⟨-1, [], rfl, .inr rfl, by simp⟩
  · obtain ⟨a, b, c, hsplit, ha, hb, -⟩ := slice?_split d 0 4 (by omega)
    obtain rfl := List.eq_nil_of_length_eq_zero ha
    have hread := readU32_at hsplit hb
    simp only [List.length_nil, List.nil_append] at hread hsplit
    simp only [hread]
    by_cases hargs : kMaxArgs < ofLe b
    · rw [if_pos hargs]
      exact ⟨-1, [], rfl, .inr rfl, by simp⟩
    · rw [if_neg hargs]
      obtain ⟨res, out, hrun, hres⟩ :=
        parseLoop_sound (ofLe b) (show ofLe b - [].length = ofLe b from rfl) hsplit
      simp only [hrun]
      cases res with
      | none => exact ⟨-1, out, rfl, .inr rfl, by simp⟩
      | some cur =>
        obtain ⟨strs, rest, hout, hrest, hcur, hlen⟩ := hres cur rfl
        obtain rfl : out = strs := by simpa using hout
        have hn : out.length = ofLe b := hlen (by simp)
        by_cases htrail : cur = d.length
        · refine ⟨0, out, by simp [htrail], .inl rfl, fun _ => ⟨?_, by omega⟩⟩
          have hnil : rest = [] := by
            apply List.eq_nil_of_length_eq_zero
            have h1 : d.length = b.length + (encArgs out).length + rest.length := by
              rw [hsplit, hrest]
              simp only [List.length_append]
              omega
            rw [htrail] at hcur
            simp only [List.length_append] at hcur
            omega
          rw [hsplit, hrest, hnil, enc, hn, le_ofLe hb, List.append_nil]
        · exact ⟨-1, out, by simp [htrail], .inr rfl, by simp⟩

/-! ## The client -/

/-- The length that the client computes, as a sum. -/
def reqSize (cmd : List Bytes) : Nat := 4 + (cmd.map (fun s => 4 + s.length)).sum

theorem length_encArgs (cmd : List Bytes) :
    (encArgs cmd).length = (cmd.map (fun s => 4 + s.length)).sum := by
  induction cmd with
  | nil => rfl
  | cons s cmd ih => rw [length_encArgs_cons, ih, List.map_cons, List.sum_cons]

theorem length_enc (cmd : List Bytes) : (enc cmd).length = reqSize cmd := by
  rw [enc, List.length_append, length_le, length_encArgs, reqSize]

/-- The `uint32_t` holds the sum modulo `2^32`. -/
theorem Client.reqLen_mod (cmd : List Bytes) : Client.reqLen cmd = reqSize cmd % 2 ^ 32 := by
  have hfold : ∀ (cmd : List Bytes) (acc : Nat), acc < 2 ^ 32 →
      cmd.foldl (fun len s => (len + (4 + s.length)) % 2 ^ 32) acc =
        (acc + (cmd.map (fun s => 4 + s.length)).sum) % 2 ^ 32 := by
    intro cmd
    induction cmd with
    | nil =>
      intro acc hacc
      exact (Nat.mod_eq_of_lt hacc).symm
    | cons s cmd ih =>
      intro acc _
      rw [List.foldl_cons, ih _ (Nat.mod_lt _ (by decide)), Nat.mod_add_mod, List.map_cons,
        List.sum_cons, Nat.add_assoc]
  exact hfold cmd 4 (by decide)

/-- A length that fits in the `uint32_t` is the sum. -/
theorem Client.reqLen_eq {cmd : List Bytes} (h : reqSize cmd < 2 ^ 32) :
    Client.reqLen cmd = reqSize cmd := by
  rw [Client.reqLen_mod, Nat.mod_eq_of_lt h]

/-- The strings are stored one after the other, within the array. -/
theorem Client.storeArgs_spec (cmd : List Bytes) {pre rest wbuf : Bytes}
    (hw : wbuf = pre ++ rest) (hfit : (encArgs cmd).length ≤ rest.length) :
    Client.storeArgs wbuf pre.length cmd =
      some (pre ++ encArgs cmd ++ rest.drop (encArgs cmd).length, (pre ++ encArgs cmd).length) := by
  induction cmd generalizing pre rest wbuf with
  | nil => simp [Client.storeArgs, hw]
  | cons s cmd ih =>
    rw [length_encArgs_cons] at hfit
    obtain ⟨x, y, z, rfl, hx, hy, -⟩ :=
      slice?_split rest 4 s.length (by omega)
    have h1 : patch? wbuf pre.length (le 4 s.length) =
        some (pre ++ le 4 s.length ++ (y ++ z)) :=
      patch?_append (b := x) (by simp [hw]) rfl (by simp [hx])
    have h2 : patch? (pre ++ le 4 s.length ++ (y ++ z)) (pre.length + 4) s =
        some (pre ++ le 4 s.length ++ s ++ z) :=
      patch?_append (a := pre ++ le 4 s.length) (b := y) (by simp) (by simp) hy.symm
    have hz : (encArgs cmd).length ≤ z.length := by
      simp only [List.length_append] at hfit
      omega
    have h3 := ih
      (show pre ++ le 4 s.length ++ s ++ z = (pre ++ le 4 s.length ++ s) ++ z from rfl) hz
    have hcur : (pre ++ le 4 s.length ++ s).length = pre.length + (4 + s.length) := by
      simp
    have hdrop : (x ++ y ++ z).drop (4 + s.length + (encArgs cmd).length) =
        z.drop (encArgs cmd).length := by
      rw [← List.drop_drop, show 4 + s.length = (x ++ y).length by simp [hx, hy],
        List.drop_left]
    rw [hcur] at h3
    rw [Client.storeArgs, h1]
    simp only [Option.bind_eq_bind, Option.bind_some, h2, h3, length_encArgs_cons, hdrop]
    simp

/-- A request that fits is laid out in the array. -/
theorem Client.fillReq_spec {cmd : List Bytes} {wbuf : Bytes}
    (hw : wbuf.length = 4 + Client.kMaxMsg) (hlen : reqSize cmd ≤ Client.kMaxMsg) :
    ∃ rest, Client.fillReq wbuf cmd =
      some (le 4 (enc cmd).length ++ enc cmd ++ rest, 4 + reqSize cmd) := by
  have hsize : reqSize cmd = 4 + (encArgs cmd).length := by rw [length_encArgs, reqSize]
  have hmax : Client.kMaxMsg = 4096 := rfl
  have hreq : Client.reqLen cmd = reqSize cmd := Client.reqLen_eq (by omega)
  obtain ⟨x, y, z, rfl, hx, hy, -⟩ := slice?_split wbuf 4 4 (by omega)
  have h1 : patch? (x ++ y ++ z) 0 (le 4 (reqSize cmd)) =
      some (le 4 (reqSize cmd) ++ (y ++ z)) :=
    patch?_append (a := []) (b := x) (by simp) rfl (by simp [hx])
  have h2 : patch? (le 4 (reqSize cmd) ++ (y ++ z)) 4 (le 4 cmd.length) =
      some (le 4 (reqSize cmd) ++ le 4 cmd.length ++ z) :=
    patch?_append (b := y) (by simp) (by simp) (by simp [hy])
  have h3 := Client.storeArgs_spec cmd
    (show le 4 (reqSize cmd) ++ le 4 cmd.length ++ z = (le 4 (reqSize cmd) ++ le 4 cmd.length) ++ z
      from rfl)
    (by simp only [List.length_append] at hw; omega)
  have h8 : (le 4 (reqSize cmd) ++ le 4 cmd.length).length = 8 := by simp
  have hcur : (le 4 (reqSize cmd) ++ le 4 cmd.length ++ encArgs cmd).length = 4 + reqSize cmd := by
    rw [List.length_append, h8, hsize]
    omega
  rw [h8, hcur] at h3
  refine ⟨z.drop (encArgs cmd).length, ?_⟩
  rw [Client.fillReq, hreq, h1]
  simp only [Option.bind_eq_bind, Option.bind_some, h2, h3, length_enc]
  simp only [enc, List.append_assoc]

/-- The bytes the client hands to `write_all`. -/
theorem Client.sendReq_spec {cmd : List Bytes} {wbuf : Bytes}
    (hw : wbuf.length = 4 + Client.kMaxMsg) (hlen : reqSize cmd ≤ Client.kMaxMsg) :
    Client.sendReq wbuf cmd = some (some (le 4 (enc cmd).length ++ enc cmd)) := by
  have hmax : Client.kMaxMsg = 4096 := rfl
  have hreq : Client.reqLen cmd = reqSize cmd := Client.reqLen_eq (by omega)
  obtain ⟨rest, hfill⟩ := Client.fillReq_spec hw hlen
  have hslice : slice? (le 4 (enc cmd).length ++ enc cmd ++ rest) 0 (4 + reqSize cmd) =
      some (le 4 (enc cmd).length ++ enc cmd) :=
    slice?_append (a := []) (c := rest) (by simp) rfl (by simp [length_enc])
  rw [Client.sendReq_eq, hreq, if_neg (by omega), hfill]
  simp only [Option.bind_some, hslice, Option.map_some]

end ByoRedis
