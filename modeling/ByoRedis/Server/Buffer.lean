import ByoRedis.Lib.ByteBuf
import ByoRedis.Lib.Double
import ByoRedis.Container.Common

/-!
# Server — the buffer and its frames

`server/buffer.h`. A `Buffer` is its bytes. Numbers are written in the byte
order of the machine, which is little endian. The overloads of `write_frame`
get a name each.
-/

namespace ByoRedis

open ByteBuf

/-- `class Buffer`. -/
abbrev Buffer := Bytes

/-- `TAG_NIL` to `TAG_ARRAY`. -/
inductive Tag where
  | nil
  | error
  | string
  | int64
  | double
  | array
deriving DecidableEq

/-- The byte a tag is written as. -/
def Tag.byte : Tag → UInt8
  | .nil => 0
  | .error => 1
  | .string => 2
  | .int64 => 3
  | .double => 4
  | .array => 5

namespace Buffer

/-- `Buffer::consume`: erasing past the end is undefined. -/
def consume (b : Buffer) (n : Nat) : Option Buffer :=
  if n ≤ b.length then some (b.drop n) else none

/-- `Buffer::write(const uint8_t *, size_t)`. -/
def write (b : Buffer) (data : Bytes) : Buffer := b ++ data

/-- `Buffer::write(uint8_t)`. -/
def writeU8 (b : Buffer) (data : UInt8) : Buffer := b ++ [data]

/-- `Buffer::write(uint32_t)`, of a value converted to `uint32_t`. -/
def writeU32 (b : Buffer) (data : Nat) : Buffer := b.write (le 4 data)

/-- `Buffer::write(int64_t)`. -/
def writeI64 (b : Buffer) (data : Int) : Buffer := b.write (le 8 (data % 2 ^ 64).toNat)

/-- `Buffer::write(double)`. -/
def writeDouble (b : Buffer) (data : Double) : Buffer := b.write (le 8 data.bits.toNat)

/-- `write_frame()`. -/
def writeFrameNil (b : Buffer) : Buffer := b.writeU8 Tag.nil.byte

/-- `write_frame(const std::string &)` and `write_frame(const char *, size_t)`. -/
def writeFrameString (b : Buffer) (s : Bytes) : Buffer :=
  ((b.writeU8 Tag.string.byte).writeU32 s.length).write s

/-- `write_frame(int64_t)`. -/
def writeFrameInt64 (b : Buffer) (val : Int) : Buffer := (b.writeU8 Tag.int64.byte).writeI64 val

/-- `write_frame(double)`. -/
def writeFrameDouble (b : Buffer) (val : Double) : Buffer :=
  (b.writeU8 Tag.double.byte).writeDouble val

/-- `write_frame_array`. -/
def writeFrameArray (b : Buffer) (n : Nat) : Buffer := (b.writeU8 Tag.array.byte).writeU32 n

/-- `write_frame_array_begin`: the position of the count to fill in. -/
def writeFrameArrayBegin (b : Buffer) : Buffer × Nat :=
  let b := (b.writeU8 Tag.array.byte).writeU32 0
  (b, b.length - 4)

/-- `write_frame_array_end`, with its assertion. -/
def writeFrameArrayEnd (b : Buffer) (pos n : Nat) : Option Buffer :=
  if b[pos - 1]? = some Tag.array.byte then patch? b pos (le 4 n) else none

/-- `write_frame(uint32_t, const std::string &)`. -/
def writeFrameError (b : Buffer) (code : Nat) (msg : Bytes) : Buffer :=
  (((b.writeU8 Tag.error.byte).writeU32 code).writeU32 msg.length).write msg

end Buffer

end ByoRedis
