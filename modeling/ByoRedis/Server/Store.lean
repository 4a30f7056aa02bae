import ByoRedis.Container.ZsetInv
import ByoRedis.Server.Db
import ByoRedis.Server.Frame

/-!
# Server — the keyspace as a finite map

What the commands mean, without hash tables, heaps or trees: a finite map
from keys to a string or a set of members, each with an optional deadline.
`RefCommand` relates a state, a command, its reply and the next state; only
the order of `keys` is left open (and the elements of `zquery`).

The deadline of `pexpire` is computed with a parameter `plus`, so that the
same relation speaks of the addition of numbers and of the one of `uint64_t`.
-/

namespace ByoRedis

/-- The value of a key. -/
inductive Val where
  | str (s : Bytes)
  | zset (m : Members)

/-- The value and the TTL of a key. -/
structure Item where
  val : Val
  deadline : Option Nat

/-- The keyspace. -/
abbrev Store := Finmap (fun _ : Bytes => Item)

/-- The commands, told apart by name and number of arguments. -/
inductive Command where
  | get (key : Bytes)
  | set (key val : Bytes)
  | del (key : Bytes)
  | pexpire (key ttl : Bytes)
  | pttl (key : Bytes)
  | keys
  | zadd (key score name : Bytes)
  | zrem (key name : Bytes)
  | zscore (key name : Bytes)
  | zquery (key score name offset limit : Bytes)
  | unknown
deriving DecidableEq

/-- The command that a request stands for. -/
def Command.ofRequest : List Bytes → Command
  | [name] => if name = lit "keys" then .keys else .unknown
  | [name, a] =>
    if name = lit "get" then .get a
    else if name = lit "del" then .del a
    else if name = lit "pttl" then .pttl a
    else .unknown
  | [name, a, b] =>
    if name = lit "set" then .set a b
    else if name = lit "pexpire" then .pexpire a b
    else if name = lit "zrem" then .zrem a b
    else if name = lit "zscore" then .zscore a b
    else .unknown
  | [name, a, b, c] => if name = lit "zadd" then .zadd a b c else .unknown
  | [name, a, b, c, d, e] => if name = lit "zquery" then .zquery a b c d e else .unknown
  | _ => .unknown

/-- The reply to a `pttl` of a key. -/
def pttlReply (now : Nat) : Option Item → Int
  | none => -2
  | some item =>
    match item.deadline with
    | none => -1
    | some d => ((d - now : Nat) : Int)

/-- What a command answers and what it leaves behind. -/
def RefCommand (plus : Nat → Nat → Nat) (now : Nat) (s : Store) :
    Command → Reply → Store → Prop
  | .get key, r, s' =>
    s' = s ∧
      r = .one (match s.lookup key with
        | none => .nil
        | some ⟨.str v, _⟩ => .str v
        | some ⟨.zset _, _⟩ => .err .badTyp "not a string value")
  | .set key val, r, s' =>
    match s.lookup key with
    | none => r = .one .nil ∧ s' = s.insert key ⟨.str val, none⟩
    | some ⟨.str _, d⟩ => r = .one .nil ∧ s' = s.insert key ⟨.str val, d⟩
    | some ⟨.zset _, _⟩ => r = .one (.err .badTyp "a non-string value exists") ∧ s' = s
  | .del key, r, s' => r = .one (.int (if key ∈ s then 1 else 0)) ∧ s' = s.erase key
  | .pexpire key ttl, r, s' =>
    match str2int ttl, s.lookup key with
    | none, _ => r = .one (.err .badArg "expect int64") ∧ s' = s
    | some _, none => r = .one (.int 0) ∧ s' = s
    | some t, some item =>
      r = .one (.int 1) ∧
        s' = s.insert key
          { item with deadline := if t < 0 then none else some (plus now t.toNat) }
  | .pttl key, r, s' => r = .one (.int (pttlReply now (s.lookup key))) ∧ s' = s
  | .keys, r, s' =>
    s' = s ∧ ∃ l : List Bytes, r = .arr (l.map .str) ∧ l.Nodup ∧ ∀ key, key ∈ l ↔ key ∈ s
  | .zadd key score name, r, s' =>
    match str2dbl score, s.lookup key with
    | none, _ => r = .one (.err .badArg "expect float") ∧ s' = s
    | some x, none => r = .one (.int 1) ∧ s' = s.insert key ⟨.zset ((∅ : Members).insert name x), none⟩
    | some x, some ⟨.zset m, d⟩ =>
      r = .one (.int (if name ∈ m then 0 else 1)) ∧ s' = s.insert key ⟨.zset (m.add name x), d⟩
    | some _, some ⟨.str _, _⟩ => r = .one (.err .badTyp "expect zset") ∧ s' = s
  | .zrem key name, r, s' =>
    match s.lookup key with
    | none => r = .one (.int 0) ∧ s' = s
    | some ⟨.zset m, d⟩ =>
      r = .one (.int (if name ∈ m then 1 else 0)) ∧ s' = s.insert key ⟨.zset (m.erase name), d⟩
    | some ⟨.str _, _⟩ => r = .one (.err .badTyp "expect zset") ∧ s' = s
  | .zscore key name, r, s' =>
    s' = s ∧
      r = .one (match s.lookup key with
        | none => .nil
        | some ⟨.zset m, _⟩ =>
          (match m.lookup name with
          | none => .nil
          | some x => .dbl x)
        | some ⟨.str _, _⟩ => .err .badTyp "expect zset")
  | .zquery key score _ offset limit, r, s' =>
    s' = s ∧
      match str2dbl score, str2int offset, str2int limit, s.lookup key with
      | none, _, _, _ => r = .one (.err .badArg "expect fp number")
      | some _, some _, some _, some ⟨.str _, _⟩ => r = .one (.err .badTyp "expect zset")
      | some _, some _, some _, _ => ∃ xs, r = .arr xs
      | some _, _, _, _ => r = .one (.err .badArg "expect int")
  | .unknown, r, s' => r = .one (.err .unknown "unknown command.") ∧ s' = s

/-! ## Expiry -/

/-- The keys whose deadline has passed. -/
def Store.due (s : Store) (now : Nat) : Finset Bytes :=
  s.keys.filter (fun key => ∃ item ∈ s.lookup key, ∃ d ∈ item.deadline, d < now)

/-- At most `limit` keys expire, all of them due and none of them later than
a key that is left; nothing else changes. -/
def Expires (limit now : Nat) (s s' : Store) : Prop :=
  ∃ D ⊆ s.due now, D.card = min (s.due now).card limit ∧
    (∀ key, s'.lookup key = if key ∈ D then none else s.lookup key) ∧
    ∀ key ∈ D, ∀ item d, s.lookup key = some item → item.deadline = some d →
      ∀ key' item' d', s'.lookup key' = some item' → item'.deadline = some d' → d ≤ d'

end ByoRedis
