import CssSelectors.Cover
import CssSelectors.Pattern.Search
import CssSelectors.Token.Basic
import CssSelectors.Unicode.Word

namespace CssSelectors

open Unicode Pattern

-- The parts of a token's text that are read out.
inductive Field where
  | ns
  | name
  | operator
  | value
  | caseFlag
  | argument
  | index
  | selector
deriving DecidableEq, Repr

namespace Grammar

def blanks : Pattern Field := .many .greedy (.char isBlank)

-- Names are made of ASCII letters and digits, the underscore, the hyphen and everything beyond
-- ASCII. So they take in the covers of hidden characters, and blanks beyond ASCII, too.
def isNameChar (c : Char) : Bool :=
  0x80 ≤ c.val || c.isAlphanum || c = '_' || c = '-'

-- A backslash lets any character but a line feed into a name.
def nameUnit : Pattern Field :=
  .char isNameChar <|> lit '\\' ++ .char (· != '\n')

def name : Pattern Field := .field .name (oneOrMore .greedy nameUnit)

-- The namespace before a name. It may be empty, and it may be missing with its bar.
def nsBar : Pattern Field :=
  perhaps (.field .ns (lit '*' <|> .many .greedy nameUnit) ++ lit '|')

-- An operator ends in an equals sign, with at most one character before it that is no part of
-- a word.
def operator : Pattern Field :=
  .field .operator (perhaps (.char fun c => !isWord c) ++ lit '=')

-- A value may hold any character but a line feed. It is read no further than needed, so that
-- it leaves the blanks and the flag after it alone.
def value : Pattern Field := .field .value (oneOrMore .modest (.char (· != '\n')))

-- A letter after the value that says whether case counts.
def caseFlag : Pattern Field :=
  perhaps (.char isBlank ++ .field .caseFlag (.char fun c => c ∈ ['i', 'I', 's', 'S']))

def comparison : Pattern Field :=
  operator ++ blanks ++ value ++ blanks ++ caseFlag ++ blanks

-- Parens with an argument, which may be missing.
def parens (argument : Pattern Field) : Pattern Field :=
  perhaps (lit '(' ++ .field .argument argument ++ lit ')')

-- The pattern of each kind of token, given how an argument looks.
def pattern (argument : Pattern Field) : Tag → Pattern Field
  | .attr => lit '[' ++ blanks ++ nsBar ++ name ++ blanks ++ perhaps comparison ++ lit ']'
  | .id => lit '#' ++ name
  | .className => lit '.' ++ name
  | .comma => blanks ++ lit ',' ++ blanks
  | .combinator => blanks ++ .char (fun c => isBlank c || c ∈ ['>', '+', '~']) ++ blanks
  | .pseudoElement => lit ':' ++ lit ':' ++ name ++ parens argument
  | .pseudoClass => lit ':' ++ name ++ parens argument
  | .universal => nsBar ++ lit '*'
  | .typeName => nsBar ++ name

-- An argument while it is hidden.
def coveredArgument : Pattern Field := oneOrMore .greedy (lit Cover.group.char)

-- An argument in plain sight, which may be any text but the empty one.
def plainArgument : Pattern Field := oneOrMore .greedy (.char fun _ => true)

end Grammar

namespace Tag

-- What a token of some kind says, given its fields.
def kind? (read : Field → Option Text) : Tag → Option (Kind Selector)
  | attr => (read .name).map fun name =>
    .attr (read .ns) name (read .operator) (read .value) (read .caseFlag)
  | id => (read .name).map .id
  | className => (read .name).map .className
  | comma => some .comma
  | combinator => some .combinator
  | pseudoElement => (read .name).map fun name => .pseudoElement name (read .argument)
  | pseudoClass => (read .name).map fun name => .pseudoClass name (read .argument) none none
  | universal => some (.universal (read .ns))
  | typeName => (read .name).map fun name => .typeName (read .ns) name

-- The kind that a match in a text stands for.
def kindAt? (tag : Tag) (text : Text) (reached : Cursor Field) : Option (Kind Selector) :=
  tag.kind? fun field => (reached.span? field).map (·.of text)

-- The character that every token of some kind holds, for the kinds that may begin with any
-- number of other characters.
def sign? : Tag → Option Char
  | comma => some ','
  | universal => some '*'
  | _ => none

-- The token of some kind at the front of a text whose hidden parts are covered: what it says
-- and its length. Nothing is tried where the sign is missing, so that the characters of a long
-- name are not each taken for its beginning.
def front? (tag : Tag) (text : Text) : Option (Kind Selector × Nat) :=
  if tag.sign?.all text.contains then do
    let reached ← (Grammar.pattern Grammar.coveredArgument tag).front? text
    let kind ← tag.kindAt? text reached
    return (kind, reached.offset)
  else none

-- What a token of some kind says whose whole text is in plain sight.
def read? (tag : Tag) (content : Text) : Option (Kind Selector) := do
  let reached ← (Grammar.pattern Grammar.plainArgument tag).whole? content
  tag.kindAt? content reached

end Tag

-- A token within a text.
structure Found where
  kind : Kind Selector
  span : Span

namespace Tag

def findFrom (tag : Tag) (offset : Nat) : Text → Option Found
  | [] => none
  | c :: rest =>
    match tag.front? (c :: rest) with
    | some (kind, width) => some ⟨kind, offset, offset + width⟩
    | none => findFrom tag (offset + 1) rest

-- The leftmost token of some kind in a text whose hidden parts are covered.
def find? (tag : Tag) (text : Text) : Option Found := findFrom tag 0 text

end Tag

end CssSelectors
