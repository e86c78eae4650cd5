import Schemata.Json.Basic
import Schemata.Number.Printer
/-!
# The text of a value

Compact: no spaces, members in their order.  Strings escape the quote, the backslash and the
controls below the space; everything else stands as it is.
-/
namespace Schemata
namespace Json

def escapeLetter? (c : Char) : Option Char :=
  if c = '"' then some '"'
  else if c = '\\' then some '\\'
  else if c = '\x08' then some 'b'
  else if c = '\x0c' then some 'f'
  else if c = '\n' then some 'n'
  else if c = '\r' then some 'r'
  else if c = '\t' then some 't'
  else none

def hexDigit (n : Nat) : Char := Nat.digitChar (n % 16)

def escapeChar (c : Char) : List Char :=
  match escapeLetter? c with
  | some letter => ['\\', letter]
  | none =>
    if c.toNat < 0x20 then ['\\', 'u', '0', '0', hexDigit (c.toNat / 16), hexDigit c.toNat]
    else [c]

def quote (s : String) : String := "\"" ++ String.ofList (s.toList.flatMap escapeChar) ++ "\""

mutual

def render : Json → String
  | null => "null"
  | bool b => if b then "true" else "false"
  | number x => x.render
  | string s => quote s
  | array items => "[" ++ renderItems items ++ "]"
  | object members => "\x7b" ++ renderMembers members ++ "\x7d"

def renderItems : List Json → String
  | [] => ""
  | [x] => render x
  | x :: y :: xs => render x ++ "," ++ renderItems (y :: xs)

def renderMembers : List (String × Json) → String
  | [] => ""
  | [(n, x)] => quote n ++ ":" ++ render x
  | (n, x) :: y :: xs => quote n ++ ":" ++ render x ++ "," ++ renderMembers (y :: xs)

end

end Json
end Schemata
