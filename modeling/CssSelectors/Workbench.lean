import CssSelectors.Selector.Reading
import CssSelectors.Specificity

namespace CssSelectors

-- A place to work on selectors step by step: a text that waits to be read with the tokens read
-- from it, and the tokens, the tree and the sum of scores that steps have come to.
structure Workbench where
  waiting : Text := []
  read : List Token := []
  options : Options := {}
  tokens : List Token := []
  tree : Option Selector := none
  total : Specificity := 0

namespace Workbench

inductive Step where
  | load (text : Text)
  | run
  | peek
  | take
  | append (text : Text)
  | push (token : Token)
  | slice (start stop : Nat)
  | reverse
  | retokenize
  | configure (options : Options)
  | parseText (text : Text)
  | parseTokens
  | reparse
  | flatten
  | unfold
  | descend (index : Nat)
  | score

-- What a step has to say.
inductive Answer where
  | count (n : Nat)
  | nothing
  | tokens (tokens : List Token)
  | tree (tree : Selector)
  | pairs (pairs : List (Token × Option Selector))
  | score (total : Specificity)

-- Why a step cannot be taken.
inductive Failure where
  | selector (error : Error)
  | noTree
  | noSubtree

namespace Failure

def message : Failure → String
  | selector error => error.message
  | noTree => "no ast"
  | noSubtree => "no subtree"

end Failure

def tryTo {α : Type} : Except Error α → Except Failure α
  | .ok a => .ok a
  | .error error => .error (.selector error)

def theTree (bench : Workbench) : Except Failure Selector :=
  match bench.tree with
  | some tree => .ok tree
  | none => .error .noTree

def withTokens (bench : Workbench) (tokens : List Token) : Workbench × Answer :=
  ({ bench with tokens }, .tokens tokens)

def withTree (bench : Workbench) (tree : Selector) : Workbench × Answer :=
  ({ bench with tree := some tree }, .tree tree)

-- The subtree of the token at some place among the tokens of a tree.
def subtreeAt? (tree : Selector) (index : Nat) : Option Selector := do
  let token ← tree.tokens[index]?
  token.kind.subtree?

-- One step, if nothing is in its way.
def perform (bench : Workbench) : Step → Except Failure (Workbench × Answer)
  | .load text => return ({ bench with waiting := text, read := [] }, .count 0)
  | .run => do
    let read ← tryTo (Token.ofText bench.waiting)
    return ({ bench with read }, .count read.length)
  | .peek => return (bench, .tokens bench.read)
  | .take => return { bench with waiting := [], read := [] }.withTokens bench.read
  | .append text => do
    let more ← tryTo (Token.ofText text)
    return bench.withTokens (bench.tokens ++ more)
  | .push token => return bench.withTokens (bench.tokens ++ [token])
  | .slice start stop => return bench.withTokens ((bench.tokens.take stop).drop start)
  | .reverse => return bench.withTokens bench.tokens.reverse
  | .retokenize => do
    return bench.withTokens (← tryTo (Token.ofText (Token.textOf bench.tokens)))
  | .configure options => return ({ bench with options }, .nothing)
  | .parseText text => do
    return bench.withTree (← tryTo (Selector.ofText bench.options text))
  | .parseTokens => do
    return bench.withTree (← tryTo (Selector.ofTokens bench.options bench.tokens))
  | .reparse => do
    let tree ← bench.theTree
    return bench.withTree (← tryTo (Selector.ofText bench.options (Selector.text tree)))
  | .flatten => do
    let tree ← bench.theTree
    return (bench, .pairs tree.flatten)
  | .unfold => do
    let tree ← bench.theTree
    return bench.withTokens tree.tokens
  | .descend index => do
    match subtreeAt? (← bench.theTree) index with
    | some subtree => return bench.withTree subtree
    | none => throw .noSubtree
  | .score => do
    let total := bench.total + Specificity.ofSelector (← bench.theTree)
    return ({ bench with total }, .score total)

-- What a step that fails leaves behind. Only a run has an effect then: it drops the tokens of
-- the run before.
def afterFailure (bench : Workbench) : Step → Workbench
  | .run => { bench with read := [] }
  | _ => bench

-- One step and what it has to say.
def step (bench : Workbench) (step : Step) : Workbench × Except Failure Answer :=
  match bench.perform step with
  | .ok (next, answer) => (next, .ok answer)
  | .error failure => (bench.afterFailure step, .error failure)

-- A series of steps, each taken whatever became of those before.
def steps (bench : Workbench) : List Step → List (Except Failure Answer)
  | [] => []
  | first :: more =>
    let (next, answer) := bench.step first
    answer :: next.steps more

end Workbench

end CssSelectors
