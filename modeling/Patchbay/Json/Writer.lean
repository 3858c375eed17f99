/-
# The text of a JSON value

`Json.text` writes a value without blanks, members and items in order.  In a string only the
quote, the backslash and the characters below the space are escaped: those with a short escape
by it, the others as `u00` and two digits.  Everything else, the slash included, stands for
itself.

The writer produces characters rather than a string, because the reader consumes them one by
one; `Json.compact` packs them.
-/
import Patchbay.Json.Basic
import Patchbay.Double.Layout

namespace Patchbay
namespace Json

/-! ## 1. Strings -/

/-- A digit of a base up to sixteen, in lower case. -/
def hexDigit (n : Nat) : Char := Nat.digitChar n

/-- A character as it stands between quotes. -/
def escape (c : Char) : List Char :=
  if c = '"' then ['\\', '"']
  else if c = '\\' then ['\\', '\\']
  else if c = '\x08' then ['\\', 'b']
  else if c = '\x0c' then ['\\', 'f']
  else if c = '\n' then ['\\', 'n']
  else if c = '\r' then ['\\', 'r']
  else if c = '\t' then ['\\', 't']
  else if c.toNat < 0x20 then
    ['\\', 'u', '0', '0', hexDigit (c.toNat / 16), hexDigit (c.toNat % 16)]
  else [c]

/-- A string between quotes. -/
def quoted (s : String) : List Char := '"' :: s.toList.flatMap escape ++ ['"']

/-! ## 2. Numbers -/

/-- A whole number in decimal. -/
def intText (n : Int) : List Char :=
  if n < 0 then '-' :: Nat.toDigits 10 n.natAbs else Nat.toDigits 10 n.natAbs

end Json

/-- The text of a number. -/
def Number.text : Number → List Char
  | .int n _ => Json.intText n
  | .double d => d.text

namespace Json

/-! ## 3. Values -/

mutual
/-- The text of a value. -/
def text : Json → List Char
  | null => ['n', 'u', 'l', 'l']
  | bool true => ['t', 'r', 'u', 'e']
  | bool false => ['f', 'a', 'l', 's', 'e']
  | number n => n.text
  | string s => quoted s
  | array [] => ['[', ']']
  | array (v :: vs) => '[' :: text v ++ textItems vs
  | object [] => ['{', '}']
  | object ((k, v) :: rest) => '{' :: quoted k ++ ':' :: text v ++ textMembers rest

/-- The rest of an array behind its first item. -/
def textItems : List Json → List Char
  | [] => [']']
  | v :: vs => ',' :: text v ++ textItems vs

/-- The rest of an object behind its first member. -/
def textMembers : List (String × Json) → List Char
  | [] => ['}']
  | (k, v) :: rest => ',' :: quoted k ++ ':' :: text v ++ textMembers rest
end

/-- The text of a value as a string. -/
def compact (v : Json) : String := String.ofList v.text

/-! ## 4. Written forms -/

example : (array [null, bool true, string "a/\"\n"]).compact = "[null,true,\"a/\\\"\\n\"]" := by
  decide +kernel
example : (object []).compact = "\x7b\x7d" := by decide +kernel
example : (string "\x1f").compact = "\"\\u001f\"" := by decide +kernel
example : intText (-120) = ['-', '1', '2', '0'] := by decide +kernel

end Json
end Patchbay
