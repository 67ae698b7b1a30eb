import CssSelectors.Json.Basic
import CssSelectors.Specificity

namespace CssSelectors

namespace Json

-- A member that is left out where there is nothing to say. An empty text is something.
def given (key : String) : Option Text → List (String × Json)
  | none => []
  | some text => [(key, .str text)]

end Json

open Json

mutual

-- A token as an object: its kind, what that says, its content and its place.
def Token.toJson : Token → Json
  | ⟨kind, content, start, stop⟩ =>
    .obj (kind.members ++
      [("content", .str content), ("pos", .arr [.ofNat start, .ofNat stop])])

def Kind.members : Kind Selector → List (String × Json)
  | .attr ns name operator value caseFlag =>
    ("type", .ofString "attribute") :: given "namespace" ns ++ [("name", .str name)] ++
      given "operator" operator ++ given "value" value ++ given "caseSensitive" caseFlag
  | .id name => [("type", .ofString "id"), ("name", .str name)]
  | .className name => [("type", .ofString "class"), ("name", .str name)]
  | .comma => [("type", .ofString "comma")]
  | .combinator => [("type", .ofString "combinator")]
  | .pseudoElement name argument =>
    [("type", .ofString "pseudo-element"), ("name", .str name)] ++ given "argument" argument
  | .pseudoClass name argument index subtree =>
    [("type", .ofString "pseudo-class"), ("name", .str name)] ++ given "argument" argument ++
      given "index" index ++ subtreeMember subtree
  | .universal ns => ("type", .ofString "universal") :: given "namespace" ns
  | .typeName ns name =>
    ("type", .ofString "type") :: given "namespace" ns ++ [("name", .str name)]

def subtreeMember : Option Selector → List (String × Json)
  | none => []
  | some tree => [("subtree", Selector.toJson tree)]

-- A selector as an object. A leaf is its token.
def Selector.toJson : Selector → Json
  | .leaf token => token.toJson
  | .compound tokens =>
    .obj [("type", .ofString "compound"), ("list", .arr (tokensToJson tokens))]
  | .complex combinator left right =>
    .obj [("type", .ofString "complex"), ("combinator", .str combinator.text),
      ("left", Selector.toJson left), ("right", Selector.toJson right)]
  | .list alternatives =>
    .obj [("type", .ofString "list"), ("list", .arr (selectorsToJson alternatives))]

def tokensToJson : List Token → List Json
  | [] => []
  | token :: more => token.toJson :: tokensToJson more

def selectorsToJson : List Selector → List Json
  | [] => []
  | tree :: more => Selector.toJson tree :: selectorsToJson more

end

def Specificity.toJson (s : Specificity) : Json :=
  .arr [.ofNat s.ids, .ofNat s.classes, .ofNat s.types]

end CssSelectors
