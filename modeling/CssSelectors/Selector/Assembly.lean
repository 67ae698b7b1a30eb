import CssSelectors.Error
import CssSelectors.Runs
import CssSelectors.Token.Basic

namespace CssSelectors.Selector

-- The relation that a combinator token stands for.
def readCombinator (token : Token) : Except Error Combinator :=
  match Combinator.ofText? token.content with
  | some combinator => .ok combinator
  | none => .error (.malformed .combinator token.content)

-- Tokens side by side. A single one needs no compound around it.
def ofRun : List Token → Except Error Selector
  | [] => throw .emptyGroup
  | [token] => return .leaf token
  | tokens => return .compound tokens

-- A first run and, from the last to the first, each combinator with the run after it. The last
-- combinator joins its run with everything before.
def ofChain (first : List Token) : List (Token × List Token) → Except Error Selector
  | [] => ofRun first
  | (token, run) :: before => do
    let combinator ← readCombinator token
    let left ← ofChain first before
    let right ← ofRun run
    return .complex combinator left right

-- A single alternative, in which commas are of no account.
def ofGroup (tokens : List Token) : Except Error Selector :=
  let (first, more) := runs Token.isCombinator tokens
  ofChain first more.reverse

-- The alternatives made of a group and of each further comma with the group after it. An empty
-- group is blamed on the comma that ends it, and at the end of the list on the comma before,
-- whose place is given.
def ofAlternatives (before : Nat) (group : List Token) :
    List (Token × List Token) → Except Error (List Selector)
  | [] =>
    if group.isEmpty then throw (.trailingComma before) else return [← ofGroup group]
  | (comma, next) :: more =>
    if group.isEmpty then throw (.misplacedComma comma.start)
    else do
      let tree ← ofGroup group
      let trees ← ofAlternatives comma.start next more
      return tree :: trees

-- A list of alternatives, or a single one where there is no comma.
def ofList (tokens : List Token) : Except Error Selector :=
  match runs Token.isComma tokens with
  | (group, []) => ofGroup group
  | (group, commas) => return .list (← ofAlternatives 0 group commas)

-- The tree of a sequence of tokens. Where the sequence as a whole is not to be taken for a
-- list, each side of its last combinator still is.
def assemble (list : Bool) (tokens : List Token) : Except Error Selector :=
  if list then ofList tokens
  else
    let (first, more) := runs Token.isCombinator tokens
    match more.reverse with
    | [] => ofRun first
    | (token, right) :: before => do
      let combinator ← readCombinator token
      let left ← ofList (joinRuns first before.reverse)
      let right ← ofList right
      return .complex combinator left right

-- The most combinators in any one alternative. Each of them adds a level to the tree.
def longestChain (list : Bool) (tokens : List Token) : Nat :=
  let count (group : List Token) : Nat := group.countP Token.isCombinator
  if list then
    let (group, commas) := runs Token.isComma tokens
    commas.foldr (fun (_, group) longest => max (count group) longest) (count group)
  else count tokens

end CssSelectors.Selector
