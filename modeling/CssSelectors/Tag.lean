import CssSelectors.Text.Basic

namespace CssSelectors

-- The kinds of tokens, from the first that a text is searched for to the last. Names of types
-- come last, since almost every text holds one.
inductive Tag where
  | attr
  | id
  | className
  | comma
  | combinator
  | pseudoElement
  | pseudoClass
  | universal
  | typeName
deriving DecidableEq, Repr

namespace Tag

-- All tags in the order of priority.
def all : List Tag :=
  [attr, id, className, comma, combinator, pseudoElement, pseudoClass, universal, typeName]

-- The place of a tag in the order of priority.
def priority (tag : Tag) : Nat := all.idxOf tag

-- The word for a tag in messages and in JSON.
def text : Tag → String
  | attr => "attribute"
  | id => "id"
  | className => "class"
  | comma => "comma"
  | combinator => "combinator"
  | pseudoElement => "pseudo-element"
  | pseudoClass => "pseudo-class"
  | universal => "universal"
  | typeName => "type"

def ofText? (word : String) : Option Tag :=
  all.find? (·.text = word)

theorem mem_all (tag : Tag) : tag ∈ all := by
  cases tag <;> decide

theorem all_getElem?_priority (tag : Tag) : all[tag.priority]? = some tag := by
  cases tag <;> decide

@[simp] theorem ofText?_text (tag : Tag) : ofText? tag.text = some tag := by
  cases tag <;> decide

theorem text_injective {a b : Tag} (h : a.text = b.text) : a = b := by
  simpa [h] using (ofText?_text a).symm

end Tag

end CssSelectors
