import CssSelectors.Argument
import CssSelectors.Selector.Assembly
import CssSelectors.Token.Reading

namespace CssSelectors

-- Whether the arguments of pseudo-classes are parsed, and whether commas separate alternatives.
structure Options where
  recursive : Bool := true
  list : Bool := true
deriving DecidableEq, Repr

namespace Options

-- Options that leave all arguments as they are.
def flat : Options := { recursive := false }

end Options

namespace Selector

-- How many pseudo-classes may stand inside each other.
def maxNesting : Nat := 64

-- How many combinators may stand above a compound selector, those around the enclosing
-- pseudo-classes included.
def maxChain : Nat := 128

-- A token with the selector in its argument parsed, if it has one.
def attach (parse : Text → Except Error Selector) (token : Token) : Except Error Token :=
  match token.kind with
  | .pseudoClass name (some argument) index _ =>
    match selectorIn? name argument with
    | some (count, text) => do
      let subtree ← parse text
      return { token with
        kind := .pseudoClass name (some argument) (count.or index) (some subtree) }
    | none => return token
  | _ => return token

-- The selector that tokens make up below a number of combinators. Arguments are parsed by the
-- given function, which is told how many combinators are above them.
def build (argument : Nat → Text → Except Error Selector) (options : Options) (above : Nat)
    (tokens : List Token) : Except Error Selector := do
  let chain := above + longestChain options.list tokens
  if chain > maxChain then throw (.tooDeep maxChain)
  let tree ← assemble options.list tokens
  if options.recursive then tree.mapM (attach (argument chain)) else return tree

-- Parses an argument that may hold a number of levels of pseudo-classes, its own included.
def ofArgument : Nat → Nat → Text → Except Error Selector
  | 0, _, _ => throw (.tooDeep maxNesting)
  | levels + 1, above, text => do
    build (ofArgument levels) {} above (← Token.ofText text)

-- The selector that a sequence of tokens makes up.
def ofTokens (options : Options) (tokens : List Token) : Except Error Selector :=
  build (ofArgument maxNesting) options 0 tokens

-- The selector that a text writes.
def ofText (options : Options) (text : Text) : Except Error Selector := do
  ofTokens options (← Token.ofText text)

end Selector

end CssSelectors
