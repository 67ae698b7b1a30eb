import CssSelectors.Text.Basic

namespace CssSelectors

-- Values of JSON. The members of an object keep their order, and numbers are whole.
inductive Json where
  | null
  | bool (value : Bool)
  | num (value : Int)
  | str (text : Text)
  | arr (items : List Json)
  | obj (members : List (String × Json))
deriving Inhabited

namespace Json

def ofNat (n : Nat) : Json := .num n

def ofString (word : String) : Json := .str word.toList

-- The four digits that name a control character.
def controlDigits (c : Char) : Text :=
  let digits := Nat.toDigits 16 c.toNat
  List.replicate (4 - digits.length) '0' ++ digits

-- How one character stands in a string. Only what JSON demands is escaped, and five controls
-- have a letter.
def escapeChar (c : Char) : Text :=
  if c = '\x22' then ['\\', '\x22']
  else if c = '\\' then ['\\', '\\']
  else if c = '\x08' then ['\\', 'b']
  else if c = '\x0c' then ['\\', 'f']
  else if c = '\n' then ['\\', 'n']
  else if c = '\r' then ['\\', 'r']
  else if c = '\t' then ['\\', 't']
  else if c.toNat < 0x20 then ['\\', 'u'] ++ controlDigits c
  else [c]

def string (text : Text) : String :=
  String.ofList (['\x22'] ++ text.flatMap escapeChar ++ ['\x22'])

mutual

-- A value on one line, without blanks between its parts.
def compact : Json → String
  | null => "null"
  | bool value => if value then "true" else "false"
  | num value => toString value
  | str text => string text
  | arr items => "[" ++ ",".intercalate (compactItems items) ++ "]"
  | obj members => "\x7b" ++ ",".intercalate (compactMembers members) ++ "\x7d"

def compactItems : List Json → List String
  | [] => []
  | item :: more => item.compact :: compactItems more

def compactMembers : List (String × Json) → List String
  | [] => []
  | (key, value) :: more => (string key.toList ++ ":" ++ value.compact) :: compactMembers more

end

-- Parts between brackets, each on a line of its own, two blanks to the right of the brackets.
-- Where there are no parts the brackets stand together.
def block (opening closing : String) (depth : Nat) : List String → String
  | [] => opening ++ closing
  | parts =>
    let margin (depth : Nat) : String := "\n" ++ String.ofList (List.replicate (2 * depth) ' ')
    opening ++ ",".intercalate (parts.map (margin (depth + 1) ++ ·)) ++ margin depth ++ closing

mutual

-- A value over several lines, from some depth on.
def prettyAt (depth : Nat) : Json → String
  | arr items => block "[" "]" depth (prettyItems (depth + 1) items)
  | obj members => block "\x7b" "\x7d" depth (prettyMembers (depth + 1) members)
  | null => compact null
  | bool value => compact (.bool value)
  | num value => compact (.num value)
  | str text => compact (.str text)

def prettyItems (depth : Nat) : List Json → List String
  | [] => []
  | item :: more => item.prettyAt depth :: prettyItems depth more

def prettyMembers (depth : Nat) : List (String × Json) → List String
  | [] => []
  | (key, value) :: more =>
    (string key.toList ++ ": " ++ value.prettyAt depth) :: prettyMembers depth more

end

def pretty (value : Json) : String := value.prettyAt 0

end Json

end CssSelectors
