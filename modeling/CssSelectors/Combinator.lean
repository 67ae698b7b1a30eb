import CssSelectors.Text.Basic

namespace CssSelectors

-- How the selectors on two sides of a complex selector are related.
inductive Combinator where
  | descendant
  | child
  | nextSibling
  | subsequentSibling
deriving DecidableEq, Repr

namespace Combinator

-- Every combinator is written with one character.
def symbol : Combinator → Char
  | descendant => ' '
  | child => '>'
  | nextSibling => '+'
  | subsequentSibling => '~'

def text (combinator : Combinator) : Text := [combinator.symbol]

-- The combinator that a text writes.
def ofText? : Text → Option Combinator
  | [' '] => some descendant
  | ['>'] => some child
  | ['+'] => some nextSibling
  | ['~'] => some subsequentSibling
  | _ => none

-- The name of the relation.
def name : Combinator → String
  | descendant => "Descendant"
  | child => "Child"
  | nextSibling => "NextSibling"
  | subsequentSibling => "SubsequentSibling"

@[simp] theorem ofText?_text (combinator : Combinator) :
    ofText? combinator.text = some combinator := by
  cases combinator <;> rfl

-- No other text writes a combinator.
theorem ofText?_eq_some_iff {text : Text} {combinator : Combinator} :
    ofText? text = some combinator ↔ text = combinator.text := by
  constructor
  · intro h
    unfold ofText? at h
    split at h <;> simp_all [Combinator.text, symbol] <;> subst h <;> rfl
  · rintro rfl
    exact ofText?_text combinator

end Combinator

end CssSelectors
