import LnurlMint.Text

/-!
# JSON values

What `json.loads` returns and how `json.dumps` writes it, as far as the mint's Nostr events go. The
parser is a package's (see `LnurlMint.Config`); the writer is needed character for character,
because an event's id is the hash of what it writes.

## Main definitions

* `Json`, `Json.get` — values, and the field of an object
* `Json.dumps` — the canonical serialization
-/

namespace LnurlMint

/-- What `json.loads` returns. -/
inductive Json
  | null
  | bool (b : Bool)
  /-- A number: the integer that it equals, if it equals one, and how it is written. -/
  | num (value : Option ℤ) (text : Str)
  | str (s : Str)
  | arr (elems : List Json)
  | obj (fields : List (Str × Json))

namespace Json

/-- An integer. -/
def ofInt (n : ℤ) : Json := .num (some n) (decimal n)

/-- `value.get(name)` of an object; `none` of anything else. -/
def get (name : String) : Json → Option Json
  | .obj fields => fields.lookup name.toList
  | _ => none

/-- The string that a value is. -/
def str? : Json → Option Str
  | .str s => some s
  | _ => none

/-- How a character is written inside a string, outside ASCII as it is. -/
def escape (c : Char) : Str :=
  match c.toNat with
  | 0x22 => ['\\', c]
  | 0x5c => ['\\', c]
  | 0x08 => "\\b".toList
  | 0x09 => "\\t".toList
  | 0x0a => "\\n".toList
  | 0x0c => "\\f".toList
  | 0x0d => "\\r".toList
  | n => if n < 0x20 then "\\u".toList ++ hex [0, UInt8.ofNat n] else [c]

/-- A string in quotes. -/
def quoted (s : Str) : Str := Char.ofNat 0x22 :: s.flatMap escape ++ [Char.ofNat 0x22]

mutual

/-- `json.dumps(value, separators=(",", ":"), ensure_ascii=False)`. -/
def dumps : Json → Str
  | .null => "null".toList
  | .bool b => if b then "true".toList else "false".toList
  | .num _ text => text
  | .str s => quoted s
  | .arr elems => '[' :: dumpsElems elems ++ [']']
  | .obj fields => Char.ofNat 0x7b :: dumpsFields fields ++ [Char.ofNat 0x7d]

/-- The elements of an array, with a comma after each but the last. -/
def dumpsElems : List Json → Str
  | [] => []
  | [x] => dumps x
  | x :: y :: xs => dumps x ++ ',' :: dumpsElems (y :: xs)

/-- The fields of an object, likewise. -/
def dumpsFields : List (Str × Json) → Str
  | [] => []
  | [(k, x)] => quoted k ++ ':' :: dumps x
  | (k, x) :: field :: fields => quoted k ++ ':' :: dumps x ++ ',' :: dumpsFields (field :: fields)

end

-- no blanks, and escapes where JSON asks for them
example : dumps (.obj [("a".toList, .arr [.ofInt 1, .str "b\n".toList])]) =
    "\x7b\"a\":[1,\"b\\n\"]\x7d".toList := by decide +kernel

end Json

end LnurlMint
