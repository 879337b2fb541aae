import HashFile.Text.Printable

/-!
# Quoted text

Paths inside messages are quoted: the text stands between double quotes, a
quote, a backslash, tab, newline, carriage return and NUL are written with a
backslash (`\"`, `\\`, `\t`, `\n`, `\r`, `\0`), and a character that is not
printable or that extends a grapheme (see `HashFile.Text.Printable`) as `\u`
followed by its lowercase hexadecimal code in braces. A single quote stands as
it is.
-/
namespace HashFile

/-- The lowercase hexadecimal digits of a code point. -/
def codeHex (n : Nat) : List Char :=
  (Nat.toDigits 16 n).map fun c => c.toLower

/-- The quoted form of one character. -/
def quoteChar (c : Char) : List Char :=
  if c = '"' then ['\\', '"']
  else if c = '\\' then ['\\', '\\']
  else if c = '\t' then ['\\', 't']
  else if c = '\n' then ['\\', 'n']
  else if c = '\r' then ['\\', 'r']
  else if c.toNat = 0 then ['\\', '0']
  else if isGraphemeExtend c || !isPrintable c then
    ['\\', 'u', '\x7b'] ++ codeHex c.toNat ++ ['\x7d']
  else [c]

/-- Text between double quotes, escaped as above. -/
def quoted (s : String) : String :=
  String.ofList ('"' :: s.toList.flatMap quoteChar ++ ['"'])

end HashFile
