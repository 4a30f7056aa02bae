import ByoRedis.Server.Conn

/-!
# Server — replies and the frames they are written as

A `Reply` is what a command answers; `encode` are its bytes. The writers of
`Buffer` append exactly these. `IsFrame` is the grammar of the tags, with
arrays of any depth; every reply within the message limit is a frame of it.
-/

namespace ByoRedis

open ByteBuf

/-! ## The grammar -/

/-- The bytes are exactly one well-formed frame. -/
inductive IsFrame : Bytes → Prop
  | nil : IsFrame [Tag.nil.byte]
  | error (code msg : Bytes) (hc : code.length = 4) (hm : msg.length < 2 ^ 32) :
      IsFrame (Tag.error.byte :: (code ++ le 4 msg.length ++ msg))
  | string (s : Bytes) (hs : s.length < 2 ^ 32) :
      IsFrame (Tag.string.byte :: (le 4 s.length ++ s))
  | int64 (val : Bytes) (hv : val.length = 8) : IsFrame (Tag.int64.byte :: val)
  | double (val : Bytes) (hv : val.length = 8) : IsFrame (Tag.double.byte :: val)
  | array (fs : List Bytes) (hn : fs.length < 2 ^ 32) (hfs : ∀ f ∈ fs, IsFrame f) :
      IsFrame (Tag.array.byte :: (le 4 fs.length ++ fs.flatten))

theorem IsFrame.length_pos {f : Bytes} (h : IsFrame f) : 0 < f.length := by
  cases h <;> simp

/-! ## Replies -/

/-- A value that is not an array. -/
inductive Scalar where
  | nil
  | err (code : ErrCode) (msg : String)
  | str (s : Bytes)
  | int (n : Int)
  | dbl (d : Double)
deriving DecidableEq

/-- What a command answers. -/
inductive Reply where
  | one (x : Scalar)
  | arr (xs : List Scalar)
deriving DecidableEq

/-- The bytes of a value. -/
def Scalar.encode : Scalar → Bytes
  | .nil => [Tag.nil.byte]
  | .err code msg =>
    Tag.error.byte :: (le 4 code.code ++ le 4 (lit msg).length ++ lit msg)
  | .str s => Tag.string.byte :: (le 4 s.length ++ s)
  | .int n => Tag.int64.byte :: le 8 (n % 2 ^ 64).toNat
  | .dbl d => Tag.double.byte :: le 8 d.bits.toNat

/-- The elements of an array, one after the other. -/
def encodeAll (xs : List Scalar) : Bytes := (xs.map Scalar.encode).flatten

/-- The bytes of a reply. -/
def Reply.encode : Reply → Bytes
  | .one x => x.encode
  | .arr xs => Tag.array.byte :: (le 4 xs.length ++ encodeAll xs)

/-! ## The writers -/

variable (out : Buffer)

@[simp] theorem writeFrameNil_eq : out.writeFrameNil = out ++ Scalar.nil.encode := rfl

@[simp] theorem writeErr_eq (code : ErrCode) (msg : String) :
    out.writeFrameError code.code (lit msg) = out ++ (Scalar.err code msg).encode := by
  simp [Buffer.writeFrameError, Buffer.writeU32, Buffer.writeU8, Buffer.write, Scalar.encode]

@[simp] theorem writeFrameString_eq (s : Bytes) :
    out.writeFrameString s = out ++ (Scalar.str s).encode := by
  simp [Buffer.writeFrameString, Buffer.writeU32, Buffer.writeU8, Buffer.write, Scalar.encode]

@[simp] theorem writeFrameInt64_eq (n : Int) :
    out.writeFrameInt64 n = out ++ (Scalar.int n).encode := by
  simp [Buffer.writeFrameInt64, Buffer.writeI64, Buffer.writeU8, Buffer.write, Scalar.encode]

@[simp] theorem writeFrameDouble_eq (d : Double) :
    out.writeFrameDouble d = out ++ (Scalar.dbl d).encode := by
  simp [Buffer.writeFrameDouble, Buffer.writeDouble, Buffer.writeU8, Buffer.write, Scalar.encode]

@[simp] theorem writeFrameArray_eq (n : Nat) :
    out.writeFrameArray n = out ++ Tag.array.byte :: le 4 n := by
  simp [Buffer.writeFrameArray, Buffer.writeU32, Buffer.writeU8, Buffer.write]

theorem writeFrameArrayBegin_eq :
    out.writeFrameArrayBegin = (out ++ Tag.array.byte :: le 4 0, out.length + 1) := by
  simp [Buffer.writeFrameArrayBegin, Buffer.writeU32, Buffer.writeU8, Buffer.write]

/-- Filling in the count of the array that was begun behind `out`. -/
theorem writeFrameArrayEnd_eq (n : Nat) (body : Bytes) :
    Buffer.writeFrameArrayEnd (out ++ Tag.array.byte :: (le 4 0 ++ body)) (out.length + 1) n =
      some (out ++ Tag.array.byte :: (le 4 n ++ body)) := by
  have htag : (out ++ Tag.array.byte :: (le 4 0 ++ body))[out.length + 1 - 1]? =
      some Tag.array.byte := by simp
  rw [Buffer.writeFrameArrayEnd, if_pos htag,
    patch?_append (a := out ++ [Tag.array.byte]) (b := le 4 0) (c := body) (by simp) (by simp)
      (by simp)]
  simp

/-! ## Replies are frames -/

theorem Scalar.encode_pos (x : Scalar) : 0 < x.encode.length := by
  cases x <;> simp [Scalar.encode]

/-- A value within the message limit is a frame. -/
theorem Scalar.isFrame (x : Scalar) (h : x.encode.length < 2 ^ 32) : IsFrame x.encode := by
  cases x with
  | nil => exact .nil
  | err code msg =>
    refine .error _ _ (length_le 4 _) ?_
    simp only [Scalar.encode, List.length_cons, List.length_append, length_le] at h
    omega
  | str s =>
    refine .string s ?_
    simp only [Scalar.encode, List.length_cons, List.length_append, length_le] at h
    omega
  | int n => exact .int64 _ (length_le 8 _)
  | dbl d => exact .double _ (length_le 8 _)

theorem length_le_encodeAll (xs : List Scalar) : xs.length ≤ (encodeAll xs).length := by
  induction xs with
  | nil => simp [encodeAll]
  | cons x xs ih =>
    have := x.encode_pos
    simp only [encodeAll, List.map_cons, List.flatten_cons, List.length_append,
      List.length_cons] at *
    omega

theorem encode_le_encodeAll {xs : List Scalar} {x : Scalar} (hx : x ∈ xs) :
    x.encode.length ≤ (encodeAll xs).length := by
  induction xs with
  | nil => cases hx
  | cons y xs ih =>
    simp only [encodeAll, List.map_cons, List.flatten_cons, List.length_append] at *
    rcases List.mem_cons.mp hx with rfl | hx
    · omega
    · have := ih hx
      omega

/-- **A reply within the message limit is exactly one frame.** -/
theorem Reply.isFrame (r : Reply) (h : r.encode.length < 2 ^ 32) : IsFrame r.encode := by
  cases r with
  | one x => exact x.isFrame h
  | arr xs =>
    simp only [Reply.encode, List.length_cons, List.length_append, length_le] at h
    have hlen := length_le_encodeAll xs
    have harr := IsFrame.array (xs.map Scalar.encode) (by rw [List.length_map]; omega) (by
      intro f hf
      obtain ⟨x, hx, rfl⟩ := List.mem_map.mp hf
      have := encode_le_encodeAll hx
      exact x.isFrame (by omega))
    rw [List.length_map] at harr
    exact harr

end ByoRedis
