import ByoRedis.Client.ResponseFrame

/-!
# Client — a reply is printed as it is

What `print_response` puts out for the bytes of a reply: every value on a line
of its own, the numbers exactly, the texts up to their first NUL, which is where
`%.*s` stops.
-/

namespace ByoRedis

open ByteBuf

/-! ## Lines -/

/-- A text as `%.*s` shows it. -/
def shown (s : Bytes) : Bytes := s.takeWhile (· ≠ 0)

/-- The line of a value; an integer is the one that an `int64_t` holds. -/
def Scalar.line : Scalar → Client.Line
  | .nil => .nil
  | .err code msg => .err code.code (shown (lit msg))
  | .str s => .str (shown s)
  | .int n => .int (Int.bmod n (2 ^ 64))
  | .dbl d => .dbl d

/-- The lines of a reply. -/
def Reply.lines : Reply → List Client.Line
  | .one x => [x.line]
  | .arr xs => .arr xs.length :: (xs.map Scalar.line ++ [.arrEnd])

namespace Client

variable {data : Bytes}

/-! ## Values -/

end Client

end ByoRedis
