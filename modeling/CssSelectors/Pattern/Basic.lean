import CssSelectors.Text.Basic

namespace CssSelectors

-- A stretch of a text, given by two offsets.
structure Span where
  start : Nat
  stop : Nat
deriving DecidableEq, Repr

namespace Span

-- The text that a span covers.
def of (span : Span) (text : Text) : Text :=
  text.slice span.start span.stop

end Span

-- Which number of repetitions is tried first.
inductive Appetite where
  | greedy
  | modest
deriving DecidableEq, Repr

-- Patterns of text. A field remembers under its label where its body matched.
inductive Pattern (ι : Type) where
  | nothing
  | char (accepts : Char → Bool)
  | seq (first second : Pattern ι)
  | alt (preferred other : Pattern ι)
  | many (appetite : Appetite) (body : Pattern ι)
  | field (label : ι) (body : Pattern ι)

-- A place in a text during a match: how far the match has come, the text still before it and
-- the fields seen so far, latest first.
@[ext] structure Cursor (ι : Type) where
  offset : Nat
  rest : Text
  spans : List (ι × Span)

namespace Cursor

variable {ι : Type}

-- The place before the first character.
def start (text : Text) : Cursor ι := ⟨0, text, []⟩

-- Past one character, if it is accepted.
def next? (accepts : Char → Bool) : Cursor ι → Option (Cursor ι)
  | ⟨offset, c :: rest, spans⟩ => if accepts c then some ⟨offset + 1, rest, spans⟩ else none
  | ⟨_, [], _⟩ => none

-- The same place, with the field noted that was opened at an offset and ends here.
def note (label : ι) (opened : Nat) (cursor : Cursor ι) : Cursor ι :=
  { cursor with spans := (label, ⟨opened, cursor.offset⟩) :: cursor.spans }

-- The span of the latest field with a label.
def span? [DecidableEq ι] (cursor : Cursor ι) (label : ι) : Option Span :=
  cursor.spans.lookup label

end Cursor

namespace Pattern

variable {ι : Type}

instance : Append (Pattern ι) := ⟨.seq⟩

instance : OrElse (Pattern ι) := ⟨fun preferred other => .alt preferred (other ())⟩

-- One given character.
def lit (c : Char) : Pattern ι := .char (· == c)

-- The body or, where it does not help, nothing.
def perhaps (body : Pattern ι) : Pattern ι := .alt body .nothing

-- The body at least once.
def oneOrMore (appetite : Appetite) (body : Pattern ι) : Pattern ι :=
  .seq body (.many appetite body)

-- The places that up to a number of further iterations can reach, in the order of preference.
-- An iteration has to take something.
def iterations (appetite : Appetite) (step : Cursor ι → List (Cursor ι)) :
    Nat → Cursor ι → List (Cursor ι)
  | 0, s => [s]
  | n + 1, s =>
    let more := ((step s).filter fun t => s.offset < t.offset).flatMap
      (iterations appetite step n)
    match appetite with
    | .greedy => more ++ [s]
    | .modest => s :: more

-- What a pattern means: all places that a match from a cursor can reach, the preferred one
-- first. Since every iteration takes a character, their number is bounded by the text left.
def outcomes : Pattern ι → Cursor ι → List (Cursor ι)
  | nothing, s => [s]
  | char accepts, s => (s.next? accepts).toList
  | seq first second, s => (first.outcomes s).flatMap second.outcomes
  | alt preferred other, s => preferred.outcomes s ++ other.outcomes s
  | many appetite body, s => iterations appetite body.outcomes s.rest.length s
  | field label body, s => (body.outcomes s).map (Cursor.note label s.offset)

@[simp] theorem outcomes_append (p q : Pattern ι) (s : Cursor ι) :
    (p ++ q).outcomes s = (p.outcomes s).flatMap q.outcomes := rfl

@[simp] theorem outcomes_orElse (p q : Pattern ι) (s : Cursor ι) :
    (p <|> q).outcomes s = p.outcomes s ++ q.outcomes s := rfl

end Pattern

end CssSelectors
