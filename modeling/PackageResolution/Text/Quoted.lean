import PackageResolution.Text.Printable

/-!
# PackageResolution.Text.Quoted

Text between quotation marks, as it is shown in messages. Single marks are used, unless the text
has single and no double ones. The mark itself and the backslash are escaped, line ends and tabs
have escapes of their own, and other characters that cannot be printed are written by code point.

* `quote`: the quoted form of a text.
-/

namespace PackageResolution
namespace Text

/-- `n` in lower-case hexadecimal, with at least `width` digits. -/
def hex (width n : Nat) : List Char := (Nat.toDigits 16 n).leftpad width '0'

def quotationMark (cs : List Char) : Char :=
  if cs.contains '\'' && !cs.contains '"' then '"' else '\''

/-- One character between two marks. -/
def escape (mark c : Char) : List Char :=
  if c == mark || c == '\\' then ['\\', c]
  else if c == '\n' then ['\\', 'n']
  else if c == '\r' then ['\\', 'r']
  else if c == '\t' then ['\\', 't']
  else if isPrintable c then [c]
  else if c.toNat < 0x100 then '\\' :: 'x' :: hex 2 c.toNat
  else if c.toNat < 0x10000 then '\\' :: 'u' :: hex 4 c.toNat
  else '\\' :: 'U' :: hex 8 c.toNat

def quote (text : String) : String :=
  let mark := quotationMark text.toList
  String.ofList (mark :: (text.toList.flatMap (escape mark) ++ [mark]))

/-- The quoted forms of several texts, in brackets. -/
def quoteList (texts : List String) : String :=
  "[" ++ String.intercalate ", " (texts.map quote) ++ "]"

end Text
end PackageResolution
