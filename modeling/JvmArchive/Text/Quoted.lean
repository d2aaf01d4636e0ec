import JvmArchive.Text.Shapeless

/-!
# Quoted text

How text stands in listings and messages: between quotes, with a backslash before the quote and the
backslash, the usual letters for the common controls, and a code point in braces for every
character without a shape.
-/
namespace JvmArchive.Text

/-- The digits of a number in base sixteen, the low letters above nine. -/
def hexText (n : Nat) : String := String.ofList (Nat.toDigits 16 n)

/-- One character between the given quotes. -/
def quotedChar (quote c : Char) : String :=
  if c = '\x00' then "\\0"
  else if c = '\t' then "\\t"
  else if c = '\r' then "\\r"
  else if c = '\n' then "\\n"
  else if c = quote ∨ c = '\\' then String.ofList ['\\', c]
  else if isShapeless c then "\\u\x7b" ++ hexText c.toNat ++ "\x7d"
  else String.singleton c

/-- A text between double quotes. -/
def quote (text : String) : String :=
  "\"" ++ String.join (text.toList.map (quotedChar '"')) ++ "\""

/-- A character between single quotes. -/
def quoteChar (c : Char) : String :=
  "'" ++ quotedChar '\'' c ++ "'"

end JvmArchive.Text
