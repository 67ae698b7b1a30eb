namespace CssSelectors

-- The parts of a selector that are hidden while it is cut into tokens: escaped characters, the
-- bodies of strings and the contents of parens.
inductive Cover where
  | escape
  | string
  | group
deriving DecidableEq, Repr

namespace Cover

-- The private character that stands for each hidden one. None of them is a blank, a paren, a
-- quote or a delimiter, and all of them may be part of a name.
def char : Cover → Char
  | escape => '\ue000'
  | string => '\ue001'
  | group => '\ue002'

end Cover

end CssSelectors
