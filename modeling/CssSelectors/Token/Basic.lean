import CssSelectors.Tag
import CssSelectors.Tree

namespace CssSelectors

-- What a token says, by its kind. The type of the subtree is left open: a subtree holds tokens
-- again. Namespaces are those before a bar, and an absent one differs from an empty one.
inductive Kind (σ : Type) where
  | attr (ns : Option Text) (name : Text) (operator value caseFlag : Option Text)
  | id (name : Text)
  | className (name : Text)
  | comma
  | combinator
  | pseudoElement (name : Text) (argument : Option Text)
  | pseudoClass (name : Text) (argument index : Option Text) (subtree : Option σ)
  | universal (ns : Option Text)
  | typeName (ns : Option Text) (name : Text)

namespace Kind

variable {σ : Type}

def tag : Kind σ → Tag
  | attr .. => .attr
  | id _ => .id
  | className _ => .className
  | comma => .comma
  | combinator => .combinator
  | pseudoElement .. => .pseudoElement
  | pseudoClass .. => .pseudoClass
  | universal _ => .universal
  | typeName .. => .typeName

def name? : Kind σ → Option Text
  | attr _ name _ _ _ => some name
  | id name => some name
  | className name => some name
  | pseudoElement name _ => some name
  | pseudoClass name _ _ _ => some name
  | typeName _ name => some name
  | comma => none
  | combinator => none
  | universal _ => none

def argument? : Kind σ → Option Text
  | pseudoElement _ argument => argument
  | pseudoClass _ argument _ _ => argument
  | _ => none

def ns? : Kind σ → Option Text
  | attr ns _ _ _ _ => ns
  | universal ns => ns
  | typeName ns _ => ns
  | _ => none

def subtree? : Kind σ → Option σ
  | pseudoClass _ _ _ subtree => subtree
  | _ => none

end Kind

-- A token: what it says, its text, and the stretch of the trimmed selector that it comes from.
structure Token where
  kind : Kind (Tree Token)
  content : Text
  start : Nat
  stop : Nat

-- A selector that has been parsed.
abbrev Selector := Tree Token

namespace Token

def tag (token : Token) : Tag := token.kind.tag

def isComma (token : Token) : Bool := token.tag = .comma

def isCombinator (token : Token) : Bool := token.tag = .combinator

-- The number of characters that a token comes from, which for a combinator or a comma need not
-- be the length of its content.
def width (token : Token) : Nat := token.stop - token.start

-- The contents of tokens one after another.
def textOf (tokens : List Token) : Text := tokens.flatMap Token.content

end Token

namespace Selector

def text (selector : Selector) : Text := selector.render Token.content

end Selector

end CssSelectors
