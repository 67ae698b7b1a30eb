import CssSelectors.Grammar.Basic
import CssSelectors.Text.Sweep

namespace CssSelectors

-- A stretch of a selector that is being cut: text that is still to be cut, or a token.
inductive Fragment where
  | uncut (text : Text)
  | cut (kind : Kind Selector) (content : Text)

namespace Fragment

-- The fragments that a sweep makes out of a text: what it took are tokens, and neighbours that
-- it left alone stay together.
def ofSwept : List (Swept (Kind Selector)) → List Fragment
  | [] => []
  | .taken kind content :: more => cut kind content :: ofSwept more
  | .loose c :: more =>
    match ofSwept more with
    | uncut text :: fragments => uncut (c :: text) :: fragments
    | fragments => uncut [c] :: fragments

-- Cuts all tokens of one kind out of a fragment, from left to right.
def cutOut (tag : Tag) : Fragment → List Fragment
  | uncut text =>
    ofSwept <| text.sweep fun c rest =>
      (tag.front? (c :: rest)).map fun (kind, width) => (kind, width - 1)
  | fragment => [fragment]

-- Cuts a text by one kind of token after the other. What an earlier kind has taken, a later one
-- does not see.
def ofText (text : Text) : List Fragment :=
  Tag.all.foldl (fun fragments tag => fragments.flatMap (cutOut tag)) [uncut text]

end Fragment

end CssSelectors
