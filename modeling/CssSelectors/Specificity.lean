import CssSelectors.Argument

namespace CssSelectors

-- How much a selector weighs: how many ids, how many classes, attributes and pseudo-classes,
-- and how many types and pseudo-elements it counts.
structure Specificity where
  ids : Nat
  classes : Nat
  types : Nat
deriving DecidableEq, Repr

namespace Specificity

instance : Zero Specificity := ⟨⟨0, 0, 0⟩⟩

instance : Add Specificity :=
  ⟨fun s t => ⟨s.ids + t.ids, s.classes + t.classes, s.types + t.types⟩⟩

-- The largest of the three counts.
def largest (s : Specificity) : Nat := max (max s.ids s.classes) s.types

-- One number for the three counts, in which an id is worth two classes of the given base.
def weight (base : Nat) (s : Specificity) : Nat :=
  s.ids * 2 * base + s.classes * base + s.types

-- The order of the counts, ids first.
def compare (s t : Specificity) : Ordering :=
  (Ord.compare s.ids t.ids).then <|
    (Ord.compare s.classes t.classes).then (Ord.compare s.types t.types)

def text (s : Specificity) : String :=
  "(" ++ toString s.ids ++ ", " ++ toString s.classes ++ ", " ++ toString s.types ++ ")"

-- The first of the heaviest.
def heaviest? (base : Nat) : List Specificity → Option Specificity
  | [] => none
  | s :: more =>
    match heaviest? base more with
    | some t => if s.weight base < t.weight base then some t else some s
    | none => some s

-- A base that no count of the given ones reaches, and that is never below eleven.
def baseFor (scores : List Specificity) : Nat :=
  (scores.map largest).foldr max 10 + 1

-- What a list of alternatives counts: as much as the heaviest of them, the first one where
-- several are.
def best (scores : List Specificity) : Specificity :=
  (heaviest? (baseFor scores) scores).getD 0

-- What a pseudo-class counts, given what its subtree does. Its own weight is that of a class,
-- but for those that only stand for their argument.
def ofPseudoClass (name : Text) (subtree : Option Specificity) : Specificity :=
  if name = "where".toList then 0
  else
    match subtree with
    | some score =>
      if takesCount name then score + ⟨0, 1, 0⟩
      else if takesSelector name then score
      else ⟨0, 1, 0⟩
    | none => ⟨0, 1, 0⟩

mutual

-- What a selector counts. A list counts as its best alternative, and everything else as the sum
-- over its tokens.
def ofSelector : Selector → Specificity
  | .leaf token => ofToken token
  | .compound tokens => sumOf tokens
  | .complex _ left right => total left + total right
  | .list alternatives => best (ofEach alternatives)

def ofEach : List Selector → List Specificity
  | [] => []
  | tree :: more => ofSelector tree :: ofEach more

-- The sum over all tokens of a selector, those of every alternative included.
def total : Selector → Specificity
  | .leaf token => ofToken token
  | .compound tokens => sumOf tokens
  | .complex _ left right => total left + total right
  | .list alternatives => totalOfAll alternatives

def totalOfAll : List Selector → Specificity
  | [] => 0
  | tree :: more => total tree + totalOfAll more

def sumOf : List Token → Specificity
  | [] => 0
  | token :: more => ofToken token + sumOf more

def ofToken : Token → Specificity
  | ⟨kind, _, _, _⟩ => ofKind kind

def ofKind : Kind Selector → Specificity
  | .id _ => ⟨1, 0, 0⟩
  | .className _ => ⟨0, 1, 0⟩
  | .attr .. => ⟨0, 1, 0⟩
  | .pseudoElement .. => ⟨0, 0, 1⟩
  | .typeName .. => ⟨0, 0, 1⟩
  | .pseudoClass name _ _ subtree => ofPseudoClass name (ofSubtree subtree)
  | .universal _ => 0
  | .combinator => 0
  | .comma => 0

def ofSubtree : Option Selector → Option Specificity
  | none => none
  | some tree => some (ofSelector tree)

end

theorem add_assoc (s t u : Specificity) : s + t + u = s + (t + u) := by
  simp only [HAdd.hAdd, Add.add, Specificity.mk.injEq]
  exact ⟨Nat.add_assoc .., Nat.add_assoc .., Nat.add_assoc ..⟩

theorem zero_add (s : Specificity) : 0 + s = s := by
  simp only [HAdd.hAdd, Add.add, OfNat.ofNat, Zero.zero]
  simp

theorem add_zero (s : Specificity) : s + 0 = s := by
  simp only [HAdd.hAdd, Add.add, OfNat.ofNat, Zero.zero]
  simp

theorem sumOf_append (ts us : List Token) : sumOf (ts ++ us) = sumOf ts + sumOf us := by
  induction ts with
  | nil => simp [sumOf, zero_add]
  | cons t ts ih => simp [sumOf, ih, add_assoc]

mutual

-- The total is the sum over the tokens from left to right.
theorem total_eq_sumOf_tokens (tree : Selector) : total tree = sumOf tree.tokens := by
  cases tree with
  | leaf token => simp [total, Tree.tokens, sumOf, add_zero]
  | compound tokens => simp [total, Tree.tokens]
  | complex combinator left right =>
    rw [total, Tree.tokens, sumOf_append, total_eq_sumOf_tokens left,
      total_eq_sumOf_tokens right]
  | list alternatives => rw [total, Tree.tokens, totalOfAll_eq_sumOf_tokens alternatives]

theorem totalOfAll_eq_sumOf_tokens (trees : List Selector) :
    totalOfAll trees = sumOf (Tree.tokensAll trees) := by
  cases trees with
  | nil => simp [totalOfAll, Tree.tokensAll, sumOf]
  | cons tree more =>
    rw [totalOfAll, Tree.tokensAll, sumOf_append, total_eq_sumOf_tokens tree,
      totalOfAll_eq_sumOf_tokens more]

end

end Specificity

end CssSelectors
