import CssSelectors.Json.Encode

namespace CssSelectors

-- Why a value of JSON is no selector.
inductive DecodeError where
  | unknownTag
  | misshapen
deriving DecidableEq, Repr

namespace DecodeError

def message : DecodeError → String
  | unknownTag => "Matching variant not found"
  | misshapen => "not the shape of a selector"

end DecodeError

-- The members of an object, in their order.
abbrev Members := List (String × Json)

namespace Members

-- The text under a key, if there is one.
def text? (members : Members) (key : String) : Option Text :=
  match members.lookup key with
  | some (.str text) => some text
  | _ => none

def text (members : Members) (key : String) : Except DecodeError Text :=
  match members.text? key with
  | some text => .ok text
  | none => .error .misshapen

-- The word that says what an object is.
def word (members : Members) : Except DecodeError String :=
  return String.ofList (← members.text "type")

-- The place of a token.
def place (members : Members) : Except DecodeError Span :=
  match members.lookup "pos" with
  | some (.arr [.num (.ofNat start), .num (.ofNat stop)]) => .ok ⟨start, stop⟩
  | _ => .error .misshapen

-- What a token of some kind says, given what became of its subtree.
def kind (members : Members) (subtree : Except DecodeError (Option Selector)) :
    Tag → Except DecodeError (Kind Selector)
  | .attr => do
    let name ← members.text "name"
    return .attr (members.text? "namespace") name (members.text? "operator")
      (members.text? "value") (members.text? "caseSensitive")
  | .id => return .id (← members.text "name")
  | .className => return .className (← members.text "name")
  | .comma => return .comma
  | .combinator => return .combinator
  | .pseudoElement =>
    return .pseudoElement (← members.text "name") (members.text? "argument")
  | .pseudoClass => do
    let name ← members.text "name"
    return .pseudoClass name (members.text? "argument") (members.text? "index") (← subtree)
  | .universal => return .universal (members.text? "namespace")
  | .typeName => return .typeName (members.text? "namespace") (← members.text "name")

-- The token that members make up, given what became of its subtree. Its kind is settled before
-- anything else is looked at. The words for nodes are no kinds of tokens.
def token (members : Members) (subtree : Except DecodeError (Option Selector)) :
    Except DecodeError Token := do
  match Tag.ofText? (← members.word) with
  | none => throw .unknownTag
  | some tag =>
    let kind ← members.kind subtree tag
    let content ← members.text "content"
    let place ← members.place
    return ⟨kind, content, place.start, place.stop⟩

end Members

namespace Selector

mutual

-- The selector that a value stands for. An object that is no node is taken for a token.
def ofJson : Json → Except DecodeError Selector
  | .obj members => do
    let word ← Members.word members
    if word = "list" then return .list (← selectorsIn members)
    else if word = "complex" then
      match Combinator.ofText? (← Members.text members "combinator") with
      | some combinator =>
        return .complex combinator (← selectorIn "left" members) (← selectorIn "right" members)
      | none => throw .misshapen
    else if word = "compound" then return .compound (← tokensIn members)
    else return .leaf (← Members.token members (subtreeIn members))
  | _ => throw .misshapen

-- The selector under a key.
def selectorIn (key : String) : List (String × Json) → Except DecodeError Selector
  | [] => throw .misshapen
  | (other, value) :: more => if other = key then ofJson value else selectorIn key more

-- The subtree of a token, which may be missing.
def subtreeIn : List (String × Json) → Except DecodeError (Option Selector)
  | [] => return none
  | (key, value) :: more =>
    if key = "subtree" then return some (← ofJson value) else subtreeIn more

-- The alternatives of a list.
def selectorsIn : List (String × Json) → Except DecodeError (List Selector)
  | (key, .arr items) :: more => if key = "list" then selectorsOf items else selectorsIn more
  | _ :: more => selectorsIn more
  | [] => throw .misshapen

def selectorsOf : List Json → Except DecodeError (List Selector)
  | [] => return []
  | item :: more => return (← ofJson item) :: (← selectorsOf more)

-- The tokens of a compound.
def tokensIn : List (String × Json) → Except DecodeError (List Token)
  | (key, .arr items) :: more => if key = "list" then tokensOf items else tokensIn more
  | _ :: more => tokensIn more
  | [] => throw .misshapen

def tokensOf : List Json → Except DecodeError (List Token)
  | [] => return []
  | .obj members :: more =>
    return (← Members.token members (subtreeIn members)) :: (← tokensOf more)
  | _ => throw .misshapen

end

end Selector

-- The token that a value stands for.
def Token.ofJson : Json → Except DecodeError Token
  | .obj members => Members.token members (Selector.subtreeIn members)
  | _ => throw .misshapen

end CssSelectors
