import CollationLint.Json.Token

namespace CollationLint.Json

def hexDigit (n : Nat) : Char := if n < 10 then .ofNat (n + 48) else .ofNat (n + 87)

def escape (c : Char) : List Char :=
  if c = '"' then ['\\', '"']
  else if c = '\\' then ['\\', '\\']
  else if c = '\x08' then ['\\', 'b']
  else if c = '\x0c' then ['\\', 'f']
  else if c = '\n' then ['\\', 'n']
  else if c = '\r' then ['\\', 'r']
  else if c = '\t' then ['\\', 't']
  else if c.toNat < 0x20 then ['\\', 'u', '0', '0', hexDigit (c.toNat / 16), hexDigit (c.toNat % 16)]
  else [c]

/-- A spelling of the token. Of a number or string whose contents are not known, some spelling that
reads the same. -/
def Token.text : Token → List Char
  | .openBracket => ['[']
  | .closeBracket => [']']
  | .openBrace => ['{']
  | .closeBrace => ['}']
  | .colon => [':']
  | .comma => [',']
  | .null => ['n', 'u', 'l', 'l']
  | .bool true => ['t', 'r', 'u', 'e']
  | .bool false => ['f', 'a', 'l', 's', 'e']
  | .natural n => Nat.toDigits 10 n
  | .number => ['-', '0']
  | .string (some s) => '"' :: s.toList.flatMap escape ++ ['"']
  | .string none => ['"', '\\', 'u', 'd', '8', '0', '0', '"']

namespace Value

mutual

def tokens : Value → List Token
  | .null => [.null]
  | .bool b => [.bool b]
  | .natural n => [.natural n]
  | .number => [.number]
  | .string text => [.string text]
  | .array [] => [.openBracket, .closeBracket]
  | .array (v :: vs) => .openBracket :: v.tokens ++ itemTokens vs
  | .object [] => [.openBrace, .closeBrace]
  | .object ((name, v) :: ms) => .openBrace :: .string name :: .colon :: v.tokens ++ memberTokens ms

def itemTokens : List Value → List Token
  | [] => [.closeBracket]
  | v :: vs => .comma :: v.tokens ++ itemTokens vs

def memberTokens : List (Text × Value) → List Token
  | [] => [.closeBrace]
  | (name, v) :: ms => .comma :: .string name :: .colon :: v.tokens ++ memberTokens ms

end

def render (v : Value) : String := .ofList (v.tokens.flatMap Token.text)

end Value

end CollationLint.Json
