import CssSelectors.Fragment
import CssSelectors.Masked

namespace CssSelectors.Token

-- The content of delimiters is what is left without the blanks around them. Blanks alone are
-- the descendant combinator.
def normalize : Kind Selector → Text → Text
  | .comma, content => bare content
  | .combinator, content => bare content
  | _, content => content
where
  bare (content : Text) : Text := if content.trim.isEmpty then [' '] else content.trim

-- Gives the tokens of a text their places, from some offset on. The first text that no token
-- has taken is an error, which shows it as it is in the source.
def place (source : Text) : Nat → List Fragment → Except Error (List Token)
  | _, [] => return []
  | offset, .uncut text :: _ =>
    throw (.leftover (source.slice offset (offset + text.length)) offset)
  | offset, .cut kind content :: more => do
    let stop := offset + content.length
    let tokens ← place source stop more
    return ⟨kind, normalize kind content, offset, stop⟩ :: tokens

-- Reads a token again from its content.
def reread (token : Token) : Except Error Token :=
  match token.tag.read? token.content with
  | some kind => .ok { token with kind }
  | none => .error (.malformed token.tag token.content)

-- A token with its hidden parts put back. Its fields are read again if that changed it.
def uncover (masked : Masked) (token : Token) : Except Error Token :=
  match masked.unmask token with
  | (token, true) => token.reread
  | (token, false) => .ok token

-- The tokens of a selector. Blanks around it do not count.
def ofText (text : Text) : Except Error (List Token) := do
  let source := text.trim
  let masked ← Masked.ofText source
  let tokens ← place source 0 (Fragment.ofText masked.text)
  tokens.mapM (uncover masked)

end CssSelectors.Token
