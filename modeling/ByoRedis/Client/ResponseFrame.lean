import ByoRedis.Client.Response
import ByoRedis.Server.Frame

/-!
# Client — every frame is accepted

On a frame of the grammar, whatever follows it, `print_response` returns the
length of the frame. The bound keeps every length below the range of an
`int32_t`, so that no sum of the client wraps.
-/

namespace ByoRedis.Client

open ByteBuf

variable {data : Bytes}

/-- A string inside of the data is printed without reading past it. -/
theorem printfStr_append (s rest : Bytes) (h : s.length < 2 ^ 31) :
    printfStr (s ++ rest) s.length = some (s.takeWhile (· ≠ 0)) := by
  rw [printfStr, if_pos ⟨h, by simp⟩, List.take_left]

/-- The loop over the elements of an array, given what happens on each. -/
theorem printElems_frames {fs : List Bytes} {rest : Bytes} {k : Nat}
    (hfs : ∀ f ∈ fs, ∀ rest : Bytes, (f ++ rest).length < 2 ^ 31 →
      ∃ lines, printResponse (f ++ rest) = some ((f.length : Int), lines))
    (hlen : k + (fs.flatten ++ rest).length < 2 ^ 31) :
    ∃ lines, printElems fs.length (fs.flatten ++ rest) k =
      some (((k + fs.flatten.length : Nat) : Int), lines) := by
  induction fs generalizing k with
  | nil =>
    simp only [List.flatten_nil, List.nil_append] at hlen
    refine ⟨[.arrEnd], ?_⟩
    rw [List.length_nil, printElems.eq_def]
    simp [toInt32_of_lt (show k < 2 ^ 31 by omega)]
  | cons f fs ih =>
    simp only [List.flatten_cons, List.append_assoc, List.length_append] at hlen ⊢
    obtain ⟨lines, hf⟩ := hfs f (by simp) (fs.flatten ++ rest) (by
      simp only [List.length_append]
      omega)
    obtain ⟨lines', hrec⟩ := ih (k := k + f.length)
      (fun x hx => hfs x (List.mem_cons_of_mem _ hx)) (by
        simp only [List.length_append]
        omega)
    refine ⟨lines ++ lines', ?_⟩
    rw [List.length_cons, printElems.eq_def]
    simp only [hf, Option.bind_eq_bind, Option.bind_some, Int.toNat_natCast, List.drop_left, hrec]
    rw [if_neg (by omega), if_neg (by simp only [List.length_append]; omega)]
    simp [Nat.add_assoc]

/-- An error with its length field: the check, and the text. -/
theorem printResponse_error_eq {code r : Bytes} {len : Nat} (hc : code.length = 4)
    (hlen : len < 2 ^ 32) (hd : data = Tag.error.byte :: (code ++ le 4 len ++ r)) :
    printResponse data =
      if data.length < (1 + 8 + len) % 2 ^ 32 then some (-1, [.badResponse])
      else (printfStr r len).map fun text =>
        (toInt32 (1 + 8 + len), [.err (toInt32 (ofLe code)) text]) := by
  have hhead : data.head? = some Tag.error.byte := by simp [hd]
  have hl : data.length = 1 + 8 + r.length := by
    simp [hd, hc]
    omega
  have h1 : slice? data 1 4 = some code :=
    slice?_append (a := [Tag.error.byte]) (c := le 4 len ++ r) (by simp [hd]) rfl hc.symm
  have h2 : slice? data (1 + 4) 4 = some (le 4 len) :=
    slice?_append (a := Tag.error.byte :: code) (c := r) (by simp [hd]) (by simp [hc]) (by simp)
  have h3 : data.drop (1 + 8) = r := by
    rw [hd, ← List.cons_append]
    exact List.drop_left' (by simp [hc])
  have htag : tagOf Tag.error.byte = some .error := rfl
  rw [printResponse.eq_def]
  simp only [hhead, htag, h1, h2, h3, ofLe_le_of_lt (show len < 256 ^ 4 by omega),
    Option.bind_eq_bind, Option.bind_some]
  rw [if_neg (by omega), Option.map_eq_bind]
  rfl

/-- A string with its length field. -/
theorem printResponse_string_eq {r : Bytes} {len : Nat} (hlen : len < 2 ^ 32)
    (hd : data = Tag.string.byte :: (le 4 len ++ r)) :
    printResponse data =
      if data.length < (1 + 4 + len) % 2 ^ 32 then some (-1, [.badResponse])
      else (printfStr r len).map fun text => (toInt32 (1 + 4 + len), [.str text]) := by
  have hhead : data.head? = some Tag.string.byte := by simp [hd]
  have hl : data.length = 1 + 4 + r.length := by
    simp [hd]
    omega
  have h1 : slice? data 1 4 = some (le 4 len) :=
    slice?_append (a := [Tag.string.byte]) (c := r) (by simp [hd]) rfl (by simp)
  have h2 : data.drop (1 + 4) = r := by
    rw [hd, ← List.cons_append]
    exact List.drop_left' (by simp)
  have htag : tagOf Tag.string.byte = some .string := rfl
  rw [printResponse.eq_def]
  simp only [hhead, htag, h1, h2, ofLe_le_of_lt (show len < 256 ^ 4 by omega),
    Option.bind_eq_bind, Option.bind_some]
  rw [if_neg (by omega), Option.map_eq_bind]
  rfl

theorem printResponse_error {code : Bytes} (msg rest : Bytes) (hc : code.length = 4)
    (hd : data = Tag.error.byte :: (code ++ le 4 msg.length ++ msg ++ rest))
    (hlen : data.length < 2 ^ 31) :
    ∃ lines, printResponse data = some (((1 + 8 + msg.length : Nat) : Int), lines) := by
  have hl : data.length = 1 + 8 + msg.length + rest.length := by
    simp [hd, hc]
    omega
  rw [List.append_assoc _ msg] at hd
  rw [printResponse_error_eq hc (by omega) hd, if_neg (by omega),
    printfStr_append msg rest (by omega), Option.map_some,
    toInt32_of_lt (show 1 + 8 + msg.length < 2 ^ 31 by omega)]
  exact ⟨_, rfl⟩

theorem printResponse_string (s rest : Bytes)
    (hd : data = Tag.string.byte :: (le 4 s.length ++ s ++ rest)) (hlen : data.length < 2 ^ 31) :
    ∃ lines, printResponse data = some (((1 + 4 + s.length : Nat) : Int), lines) := by
  have hl : data.length = 1 + 4 + s.length + rest.length := by
    simp [hd]
    omega
  rw [List.append_assoc] at hd
  rw [printResponse_string_eq (by omega) hd, if_neg (by omega),
    printfStr_append s rest (by omega), Option.map_some,
    toInt32_of_lt (show 1 + 4 + s.length < 2 ^ 31 by omega)]
  exact ⟨_, rfl⟩

theorem printResponse_int64 {val : Bytes} (rest : Bytes) (hv : val.length = 8)
    (hd : data = Tag.int64.byte :: (val ++ rest)) :
    ∃ lines, printResponse data = some (1 + 8, lines) := by
  have hhead : data.head? = some Tag.int64.byte := by simp [hd]
  have hl : data.length = 1 + 8 + rest.length := by
    simp [hd, hv]
    omega
  have h1 : slice? data 1 8 = some val :=
    slice?_append (a := [Tag.int64.byte]) (c := rest) (by simp [hd]) rfl hv.symm
  have htag : tagOf Tag.int64.byte = some .int64 := rfl
  refine ⟨[.int (Int.bmod (ofLe val) (2 ^ 64))], ?_⟩
  rw [printResponse.eq_def]
  simp only [hhead, htag, h1, Option.bind_eq_bind, Option.bind_some]
  rw [if_neg (by omega)]

theorem printResponse_double {val : Bytes} (rest : Bytes) (hv : val.length = 8)
    (hd : data = Tag.double.byte :: (val ++ rest)) :
    ∃ lines, printResponse data = some (1 + 8, lines) := by
  have hhead : data.head? = some Tag.double.byte := by simp [hd]
  have hl : data.length = 1 + 8 + rest.length := by
    simp [hd, hv]
    omega
  have h1 : slice? data 1 8 = some val :=
    slice?_append (a := [Tag.double.byte]) (c := rest) (by simp [hd]) rfl hv.symm
  have htag : tagOf Tag.double.byte = some .double := rfl
  refine ⟨[.dbl ⟨BitVec.ofNat 64 (ofLe val)⟩], ?_⟩
  rw [printResponse.eq_def]
  simp only [hhead, htag, h1, Option.bind_eq_bind, Option.bind_some]
  rw [if_neg (by omega)]

/-- An array is its header and the loop over the elements. -/
theorem printResponse_array_eq {n : Nat} {elems : Bytes} (hn : n < 2 ^ 32)
    (hd : data = Tag.array.byte :: (le 4 n ++ elems)) :
    printResponse data = (printElems n elems (1 + 4)).map fun x => (x.1, .arr n :: x.2) := by
  have hhead : data.head? = some Tag.array.byte := by simp [hd]
  have hl : data.length = 1 + 4 + elems.length := by
    simp [hd]
    omega
  have h1 : slice? data 1 4 = some (le 4 n) :=
    slice?_append (a := [Tag.array.byte]) (c := elems) (by simp [hd]) rfl (by simp)
  have h2 : data.drop (1 + 4) = elems := by
    rw [hd, ← List.cons_append]
    exact List.drop_left' (by simp)
  have hof : ofLe (le 4 n) = n := ofLe_le_of_lt (by omega)
  have htag : tagOf Tag.array.byte = some .array := rfl
  rw [printResponse.eq_def]
  simp only [hhead, htag, h1, h2, hof, Option.bind_eq_bind, Option.bind_some]
  rw [if_neg (by omega), Option.map_eq_bind]
  rfl

theorem printResponse_array {n : Nat} {elems : Bytes} {rv : Int} {lines : List Line}
    (hn : n < 2 ^ 32) (hd : data = Tag.array.byte :: (le 4 n ++ elems))
    (helems : printElems n elems (1 + 4) = some (rv, lines)) :
    printResponse data = some (rv, .arr n :: lines) := by
  rw [printResponse_array_eq hn hd, helems, Option.map_some]

/-- **A frame is accepted**, whatever follows it. -/
theorem printResponse_frame {f : Bytes} (h : IsFrame f) :
    ∀ rest : Bytes, (f ++ rest).length < 2 ^ 31 →
      ∃ lines, printResponse (f ++ rest) = some ((f.length : Int), lines) := by
  induction h with
  | nil =>
    intro rest _
    exact ⟨[.nil], by rw [printResponse.eq_def]; rfl⟩
  | error code msg hc hm =>
    intro rest hlen
    obtain ⟨lines, h⟩ := printResponse_error msg rest hc (by simp) hlen
    refine ⟨lines, h.trans ?_⟩
    simp [hc]
    omega
  | string s hs =>
    intro rest hlen
    obtain ⟨lines, h⟩ := printResponse_string s rest (by simp) hlen
    refine ⟨lines, h.trans ?_⟩
    simp
    omega
  | int64 val hv =>
    intro rest _
    obtain ⟨lines, h⟩ := printResponse_int64 rest hv rfl
    exact ⟨lines, h.trans (by simp [hv])⟩
  | double val hv =>
    intro rest _
    obtain ⟨lines, h⟩ := printResponse_double rest hv rfl
    exact ⟨lines, h.trans (by simp [hv])⟩
  | array fs hn hfs ih =>
    intro rest hlen
    have hbound : 1 + 4 + (fs.flatten ++ rest).length < 2 ^ 31 := by
      simp only [List.length_append, List.length_cons, length_le] at hlen ⊢
      omega
    obtain ⟨lines, h⟩ := printElems_frames ih hbound
    refine ⟨.arr fs.length :: lines, (printResponse_array hn (by simp) h).trans ?_⟩
    simp
    omega

end ByoRedis.Client
