import CssSelectors.Json.Encode
import CssSelectors.Selector.Reading

namespace CssSelectors.CommandLine

inductive Flag where
  | tokens
  | tree
  | json
  | flat
  | noList
deriving DecidableEq, Repr

namespace Flag

def ofWord? : String → Option Flag
  | "tokens" => some tokens
  | "ast" => some tree
  | "json" => some json
  | "flat" => some flat
  | "no-list" => some noList
  | _ => none

def ofLetter? : Char → Option Flag
  | 't' => some tokens
  | 'a' => some tree
  | _ => none

end Flag

-- The flags and the selectors among arguments. A lone hyphen is a selector, and so is
-- everything after two hyphens. There is no answer if a flag is unknown.
def split? : List String → Option (List Flag × List Text)
  | [] => some ([], [])
  | argument :: more =>
    match argument.toList with
    | ['-', '-'] => some ([], more.map String.toList)
    | '-' :: '-' :: word => do
      let flag ← Flag.ofWord? (String.ofList word)
      let (flags, selectors) ← split? more
      return (flag :: flags, selectors)
    | '-' :: letter :: letters => do
      let first ← (letter :: letters).mapM Flag.ofLetter?
      let (flags, selectors) ← split? more
      return (first ++ flags, selectors)
    | selector => do
      let (flags, selectors) ← split? more
      return (flags, selector :: selectors)

-- What is to be shown of each selector.
inductive View where
  | score
  | tokens
  | tree
deriving DecidableEq, Repr

structure Request where
  view : View
  json : Bool
  options : Options
  selectors : List Text
deriving Repr

-- The request that arguments make, if they are in order: at least one selector, no flag twice
-- and not both tokens and trees.
def Request.ofArguments? (arguments : List String) : Option Request := do
  let (flags, selectors) ← split? arguments
  guard (flags.Nodup && !selectors.isEmpty)
  guard !(Flag.tokens ∈ flags && Flag.tree ∈ flags)
  return {
    view := if Flag.tokens ∈ flags then .tokens else if Flag.tree ∈ flags then .tree else .score
    json := Flag.json ∈ flags
    options := { recursive := Flag.flat ∉ flags, list := Flag.noList ∉ flags }
    selectors }

-- A text in a colour or a weight of a terminal, and the way back.
def styled (on off : String) (text : String) : String :=
  "\x1b[" ++ on ++ "m" ++ text ++ "\x1b[" ++ off ++ "m"

def bold : String → String := styled "1" "0"
def dim : String → String := styled "2" "0"
def red : String → String := styled "31" "39"
def green : String → String := styled "32" "39"
def yellow : String → String := styled "33" "39"
def cyan : String → String := styled "36" "39"

def blanks (n : Nat) : String := String.ofList (List.replicate n ' ')

-- A text filled up with blanks to a width, on its right or on its left.
def padRight (width : Nat) (text : String) : String := text ++ blanks (width - text.length)
def padLeft (width : Nat) (text : String) : String := blanks (width - text.length) ++ text

-- A line for a token in a table.
def tokenRow (token : Token) : String :=
  let place := toString token.start ++ ".." ++ toString token.stop
  "  " ++ cyan (padRight 15 token.tag.text) ++ " " ++ dim (padLeft 8 place) ++ "  " ++
    token.content.quoted ++ "\n"

def margin (depth : Nat) : String := blanks (2 * depth)

mutual

-- A tree, a line for each node and each token. What a node holds is two blanks further right.
def treeLines (depth : Nat) : Selector → String
  | .list alternatives =>
    margin depth ++ yellow "list" ++ "\n" ++ alternativeLines (depth + 1) alternatives
  | .complex combinator left right =>
    margin depth ++ yellow "complex" ++ " " ++ combinator.text.quoted ++ "\n" ++
      treeLines (depth + 1) left ++ treeLines (depth + 1) right
  | .compound tokens =>
    margin depth ++ yellow "compound" ++ "\n" ++ compoundLines (depth + 1) tokens
  | .leaf token => tokenLines depth token

def alternativeLines (depth : Nat) : List Selector → String
  | [] => ""
  | tree :: more => treeLines depth tree ++ alternativeLines depth more

def compoundLines (depth : Nat) : List Token → String
  | [] => ""
  | token :: more => tokenLines depth token ++ compoundLines depth more

-- A token, then its count and its subtree, if it has them.
def tokenLines (depth : Nat) : Token → String
  | ⟨kind, content, _, _⟩ =>
    margin depth ++ cyan kind.tag.text ++ " " ++ content.quoted ++ "\n" ++ kindLines depth kind

def kindLines (depth : Nat) : Kind Selector → String
  | .pseudoClass _ _ index subtree =>
    (match index with
      | some index => margin depth ++ "  " ++ dim "index" ++ " " ++ index.quoted ++ "\n"
      | none => "") ++ subtreeLines (depth + 1) subtree
  | _ => ""

def subtreeLines (depth : Nat) : Option Selector → String
  | none => ""
  | some tree => treeLines depth tree

end

-- What is shown of one selector.
def Request.display (request : Request) (selector : Text) : Except Error String :=
  let title := bold (String.ofList selector)
  match request.view with
  | .tokens => do
    let tokens ← Token.ofText selector
    if request.json then return (Json.arr (tokensToJson tokens)).pretty ++ "\n"
    else return title ++ "\n" ++ String.join (tokens.map tokenRow)
  | .tree => do
    let tree ← Selector.ofText request.options selector
    if request.json then return (Selector.toJson tree).pretty ++ "\n"
    else return title ++ "\n" ++ treeLines 1 tree
  | .score => do
    let score := Specificity.ofSelector (← Selector.ofText request.options selector)
    if request.json then return score.toJson.compact ++ "\n"
    else return title ++ "  " ++ green score.text ++ "\n"

-- A complaint about one selector.
def complaint (selector : Text) (error : Error) : String :=
  bold (red "error") ++ " " ++ bold (String.ofList selector) ++ ": " ++ error.message ++ "\n"

-- What a run of the program leaves behind.
structure Outcome where
  exit : Nat
  out : String
  err : String
deriving DecidableEq, Repr

def usage : String :=
  "usage: selectors [-t | --tokens | -a | --ast] [--json] [--flat] [--no-list] [--] SELECTOR...\n"

-- Shows every selector. A selector that fails does not keep those after it from being shown.
def Request.run (request : Request) : Outcome :=
  let shown := request.selectors.map fun selector => (selector, request.display selector)
  let out := shown.map fun
    | (_, .ok lines) => lines
    | (_, .error _) => ""
  let err := shown.map fun
    | (_, .ok _) => ""
    | (selector, .error error) => complaint selector error
  let failed := shown.any fun (_, result) => !result.toBool
  ⟨if failed then 1 else 0, String.join out, String.join err⟩

-- A run with the given arguments. Arguments that are not in order end it at once.
def run (arguments : List String) : Outcome :=
  match Request.ofArguments? arguments with
  | some request => request.run
  | none => ⟨2, "", usage⟩

end CssSelectors.CommandLine
