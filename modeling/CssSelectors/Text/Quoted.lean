import CssSelectors.Text.Basic
import CssSelectors.Unicode.Bare

namespace CssSelectors.Text

open Unicode

-- A code point in hexadecimal digits, without leading zeros, between braces.
def numbered (c : Char) : Text :=
  ['\\', 'u', '\x7b'] ++ Nat.toDigits 16 c.toNat ++ ['\x7d']

-- How one character stands between double quotes. The quote and the backslash are marked by a
-- backslash, four controls have a letter, and whatever has no glyph of its own is written by
-- its number.
def quoteChar (c : Char) : Text :=
  if c = '\x22' then ['\\', '\x22']
  else if c = '\\' then ['\\', '\\']
  else if c = '\x00' then ['\\', '0']
  else if c = '\t' then ['\\', 't']
  else if c = '\r' then ['\\', 'r']
  else if c = '\n' then ['\\', 'n']
  else if isBare c then numbered c
  else [c]

-- A text between double quotes, in a form that can be read on one line.
def quoted (text : Text) : String :=
  String.ofList (['\x22'] ++ text.flatMap quoteChar ++ ['\x22'])

end CssSelectors.Text
