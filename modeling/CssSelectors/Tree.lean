import CssSelectors.Combinator

namespace CssSelectors

-- Selector trees over tokens of any type: a token by itself, a compound of tokens that stand
-- side by side, two selectors joined by a combinator, or a list of alternatives.
inductive Tree (α : Type) where
  | leaf (token : α)
  | compound (tokens : List α)
  | complex (combinator : Combinator) (left right : Tree α)
  | list (alternatives : List (Tree α))

namespace Tree

variable {α β : Type}

mutual

-- The tokens of a tree from left to right, each with the node that holds it. The node above a
-- leaf holds the leaf's token, so a leaf at the root has a token that nothing holds.
def flattenUnder (parent : Option (Tree α)) : Tree α → List (α × Option (Tree α))
  | leaf token => [(token, parent)]
  | compound tokens => tokens.map fun token => (token, some (compound tokens))
  | complex combinator left right =>
    let node := complex combinator left right
    left.flattenUnder (some node) ++ right.flattenUnder (some node)
  | list alternatives => flattenAll (some (list alternatives)) alternatives

def flattenAll (parent : Option (Tree α)) : List (Tree α) → List (α × Option (Tree α))
  | [] => []
  | tree :: more => tree.flattenUnder parent ++ flattenAll parent more

end

def flatten (tree : Tree α) : List (α × Option (Tree α)) := tree.flattenUnder none

mutual

-- The tokens of a tree from left to right.
def tokens : Tree α → List α
  | leaf token => [token]
  | compound tokens => tokens
  | complex _ left right => left.tokens ++ right.tokens
  | list alternatives => tokensAll alternatives

def tokensAll : List (Tree α) → List α
  | [] => []
  | tree :: more => tree.tokens ++ tokensAll more

end

mutual

-- The tree with every token replaced, from left to right, by what the function makes of it.
def mapM {m : Type → Type} [Monad m] (f : α → m β) : Tree α → m (Tree β)
  | leaf token => return leaf (← f token)
  | compound tokens => return compound (← tokens.mapM f)
  | complex combinator left right =>
    return complex combinator (← left.mapM f) (← right.mapM f)
  | list alternatives => return list (← mapAllM f alternatives)

def mapAllM {m : Type → Type} [Monad m] (f : α → m β) : List (Tree α) → m (List (Tree β))
  | [] => return []
  | tree :: more => return (← tree.mapM f) :: (← mapAllM f more)

end

mutual

-- The text of a tree, given the text of its tokens. Alternatives are separated by a comma, and
-- a combinator stands between its sides as its symbol alone.
def render (text : α → Text) : Tree α → Text
  | leaf token => text token
  | compound tokens => tokens.flatMap text
  | complex combinator left right => left.render text ++ combinator.text ++ right.render text
  | list alternatives => renderAll text alternatives

def renderAll (text : α → Text) : List (Tree α) → Text
  | [] => []
  | [tree] => tree.render text
  | tree :: more => tree.render text ++ ',' :: renderAll text more

end

mutual

-- Flattening visits the tokens in their order.
theorem map_fst_flattenUnder (parent : Option (Tree α)) (tree : Tree α) :
    (tree.flattenUnder parent).map Prod.fst = tree.tokens := by
  cases tree with
  | leaf token => simp [flattenUnder, tokens]
  | compound tokens => simp [flattenUnder, Tree.tokens, Function.comp_def]
  | complex combinator left right =>
    simp only [flattenUnder, tokens, List.map_append]
    rw [map_fst_flattenUnder _ left, map_fst_flattenUnder _ right]
  | list alternatives => simpa [flattenUnder, tokens] using map_fst_flattenAll _ alternatives

theorem map_fst_flattenAll (parent : Option (Tree α)) (trees : List (Tree α)) :
    (flattenAll parent trees).map Prod.fst = tokensAll trees := by
  cases trees with
  | nil => simp [flattenAll, tokensAll]
  | cons tree more =>
    simp only [flattenAll, tokensAll, List.map_append]
    rw [map_fst_flattenUnder _ tree, map_fst_flattenAll _ more]

end

end Tree

end CssSelectors
