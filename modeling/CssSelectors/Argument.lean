import CssSelectors.Grammar.Basic
import CssSelectors.Unicode.Digit

namespace CssSelectors

-- The pseudo-classes whose argument is a selector.
def selectorClasses : List Text :=
  ["not".toList, "is".toList, "where".toList, "has".toList, "matches".toList,
    "-moz-any".toList, "-webkit-any".toList, "nth-child".toList, "nth-last-child".toList]

-- Those among them whose selector follows a count and the word "of".
def countingClasses : List Text := ["nth-child".toList, "nth-last-child".toList]

def takesSelector (name : Text) : Bool := name ∈ selectorClasses

def takesCount (name : Text) : Bool := name ∈ countingClasses

-- A pseudo-class that takes a count takes a selector, too.
theorem takesSelector_of_takesCount {name : Text} (h : takesCount name = true) :
    takesSelector name = true := by
  simp only [takesCount, countingClasses, takesSelector, selectorClasses, decide_eq_true_eq,
    List.mem_cons] at h ⊢
  grind

namespace Grammar

open Unicode Pattern

-- A letter in either case.
def letter (c : Char) : Pattern Field := .char fun d => d.toLower = c

-- A count of the children that match a selector. It is read no further than needed.
def count : Pattern Field :=
  letter 'e' ++ letter 'v' ++ letter 'e' ++ letter 'n' <|>
  letter 'o' ++ letter 'd' ++ letter 'd' <|>
  .many .modest (.char fun c => c ∈ ['-', '+', 'n', 'N'] || isDigit c || isBlank c) ++
    .char fun c => c ∈ ['n', 'N'] || isDigit c

-- A count, the word "of" and a selector, with blanks between them.
def countOf : Pattern Field :=
  blanks ++ .field .index count ++ oneOrMore .greedy (.char isBlank) ++
    letter 'o' ++ letter 'f' ++ oneOrMore .greedy (.char isBlank) ++
    .field .selector (oneOrMore .modest (.char fun _ => true)) ++ blanks

end Grammar

-- The count and the selector in an argument that holds both.
def splitCount? (argument : Text) : Option (Text × Text) := do
  let reached ← Grammar.countOf.whole? argument
  let index ← reached.span? .index
  let selector ← reached.span? .selector
  return (index.of argument, selector.of argument)

-- The selector in the argument of a pseudo-class, and the count before it, if the pseudo-class
-- takes one. There is none if the pseudo-class takes no selector or if its count stands alone.
def selectorIn? (name argument : Text) : Option (Option Text × Text) :=
  if takesCount name then (splitCount? argument).map fun (count, text) => (some count, text)
  else if takesSelector name then some (none, argument)
  else none

end CssSelectors
