import CssSelectors.Tag
import CssSelectors.Text.Quoted

namespace CssSelectors

-- Which half of a pair of parens stands alone.
inductive Imbalance where
  | unclosed
  | unopened
deriving DecidableEq, Repr

-- The ways in which a selector can be wrong. Offsets count the characters of the trimmed text
-- that was being read, which may be the argument of a pseudo-class.
inductive Error where
  | imbalance (side : Imbalance) (offset : Nat)
  | leftover (text : Text) (offset : Nat)
  | malformed (tag : Tag) (content : Text)
  | misplacedComma (offset : Nat)
  | trailingComma (offset : Nat)
  | emptyGroup
  | tooDeep (limit : Nat)
deriving DecidableEq, Repr

namespace Error

-- The error in words.
def message : Error → String
  | imbalance .unclosed offset =>
    "opening paren without closing paren at index " ++ toString offset
  | imbalance .unopened offset =>
    "closing paren without opening paren at index " ++ toString offset
  | leftover text offset =>
    "unexpected sequence " ++ text.quoted ++ " found at index " ++ toString offset
  | malformed tag content =>
    "unable to parse content for " ++ tag.text ++ ": " ++ content.quoted
  | misplacedComma offset => "incorrect comma at index " ++ toString offset
  | trailingComma offset => "trailing comma at index " ++ toString offset
  | emptyGroup => "could not build AST from an empty token group"
  | tooDeep limit => "selector nesting exceeds " ++ toString limit ++ " levels"

end Error

end CssSelectors
