import CssSelectors.Proofs.Selector.Tallying
import CssSelectors.Proofs.Specificity.Ranking

namespace CssSelectors

namespace Specificity

-- All three counts together.
def size (s : Specificity) : Nat := s.ids + s.classes + s.types

theorem size_add (s t : Specificity) : (s + t).size = s.size + t.size := by
  change s.ids + t.ids + (s.classes + t.classes) + (s.types + t.types) = _
  unfold size
  omega

theorem size_zero : (0 : Specificity).size = 0 := rfl

-- The best of some scores is one of them, and no more than all of them are limited to.
theorem size_best_le {scores : List Specificity} {n : Nat} (h : ∀ s ∈ scores, s.size ≤ n) : (best scores).size ≤ n := by
  by_cases hne : scores = []
  · subst hne
    exact Nat.zero_le n
  · exact h _ (List.argmax_mem (argmax_rank_eq_best hne))

theorem size_ofPseudoClass_le (name : Text) (subtree : Option Specificity) {n : Nat}
    (h : ∀ s, subtree = some s → s.size ≤ n) : (ofPseudoClass name subtree).size ≤ n + 1 := by
  unfold ofPseudoClass
  split
  case isTrue => exact Nat.zero_le _
  case isFalse =>
    cases subtree with
    | none => exact Nat.le_add_left ..
    | some score =>
      have hscore := h score rfl
      dsimp only
      split
      case isTrue =>
        rw [size_add]
        exact Nat.succ_le_succ hscore
      case isFalse =>
        split
        case isTrue => exact Nat.le_succ_of_le hscore
        case isFalse => exact Nat.le_add_left ..

mutual

-- Every token counts for one at the most, and what stands in its argument for what it counts by itself.
theorem size_ofSelector_le (tree : Selector) : (ofSelector tree).size ≤ tree.tally := by
  cases tree with
  | leaf token =>
    rw [ofSelector, Selector.tally]
    exact size_ofToken_le token
  | compound tokens =>
    rw [ofSelector, Selector.tally]
    exact size_sumOf_le tokens
  | complex combinator left right =>
    rw [ofSelector, Selector.tally, size_add]
    exact Nat.add_le_add (size_total_le left) (size_total_le right)
  | list alternatives =>
    rw [ofSelector, Selector.tally]
    exact size_best_le (size_le_of_mem_ofEach alternatives)

theorem size_le_of_mem_ofEach (trees : List Selector) : ∀ s ∈ ofEach trees, s.size ≤ tallySelectors trees := by
  cases trees with
  | nil => simp [ofEach]
  | cons tree more =>
    have htree := size_ofSelector_le tree
    rw [ofEach, tallySelectors]
    refine List.forall_mem_cons.mpr ⟨by omega, fun s hs => ?_⟩
    have hmore := size_le_of_mem_ofEach more s hs
    omega

theorem size_total_le (tree : Selector) : (total tree).size ≤ tree.tally := by
  cases tree with
  | leaf token =>
    rw [total, Selector.tally]
    exact size_ofToken_le token
  | compound tokens =>
    rw [total, Selector.tally]
    exact size_sumOf_le tokens
  | complex combinator left right =>
    rw [total, Selector.tally, size_add]
    exact Nat.add_le_add (size_total_le left) (size_total_le right)
  | list alternatives =>
    rw [total, Selector.tally]
    exact size_totalOfAll_le alternatives

theorem size_totalOfAll_le (trees : List Selector) : (totalOfAll trees).size ≤ tallySelectors trees := by
  cases trees with
  | nil => exact Nat.le_refl _
  | cons tree more =>
    rw [totalOfAll, tallySelectors, size_add]
    exact Nat.add_le_add (size_total_le tree) (size_totalOfAll_le more)

theorem size_sumOf_le (tokens : List Token) : (sumOf tokens).size ≤ tallyTokens tokens := by
  cases tokens with
  | nil => exact Nat.le_refl _
  | cons token more =>
    rw [sumOf, tallyTokens, size_add]
    exact Nat.add_le_add (size_ofToken_le token) (size_sumOf_le more)

theorem size_ofToken_le (token : Token) : (ofToken token).size ≤ token.tally := by
  obtain ⟨kind, content, start, stop⟩ := token
  rw [ofToken, Token.tally]
  exact size_ofKind_le kind

theorem size_ofKind_le (kind : Kind Selector) : (ofKind kind).size ≤ kind.tallyInside + 1 := by
  cases kind with
  | pseudoClass name argument index subtree =>
    rw [ofKind]
    refine size_ofPseudoClass_le name _ ?_
    cases subtree with
    | none => simp [ofSubtree]
    | some tree =>
      intro s hs
      rw [ofSubtree] at hs
      obtain rfl := Option.some.inj hs
      exact size_ofSelector_le tree
  | comma | combinator | universal _ =>
    rw [ofKind, size_zero]
    exact Nat.zero_le _
  | _ => simp [ofKind, size]

end

-- A number, if it has a place in so many bits.
def fit? (bits n : Nat) : Option Nat := if n < 2 ^ bits then some n else none

-- Counts have 32 bits each. Their sum is there if none of the three is too large for that.
def add? (s t : Specificity) : Option Specificity := do
  return ⟨← fit? 32 (s.ids + t.ids), ← fit? 32 (s.classes + t.classes), ← fit? 32 (s.types + t.types)⟩

-- A weight has 64 bits, and so has all that comes up on the way to it.
def weight? (base : Nat) (s : Specificity) : Option Nat := do
  let doubled ← fit? 64 (s.ids * 2)
  let ids ← fit? 64 (doubled * base)
  let classes ← fit? 64 (s.classes * base)
  let both ← fit? 64 (ids + classes)
  fit? 64 (both + s.types)

-- The first of the heaviest with its weight. All of them are weighed.
def weighed? (base : Nat) : List Specificity → Option (Option (Nat × Specificity))
  | [] => some none
  | s :: more => do
    let weight ← weight? base s
    match ← weighed? base more with
    | some (other, t) => return some (if weight < other then (other, t) else (weight, s))
    | none => return some (weight, s)

def best? (scores : List Specificity) : Option Specificity := do
  let base ← fit? 64 (baseFor scores)
  let heaviest ← weighed? base scores
  return (heaviest.map Prod.snd).getD 0

mutual

-- What a selector counts, worked out in numbers of so many bits. There is no result if one of
-- them is too large anywhere on the way.
def ofSelector? : Selector → Option Specificity
  | .leaf token => addToken? 0 token
  | .compound tokens => addTokens? 0 tokens
  | .complex _ left right => do addTotal? (← addTotal? 0 left) right
  | .list alternatives => do best? (← ofEach? alternatives)

def ofEach? : List Selector → Option (List Specificity)
  | [] => some []
  | tree :: more => do return (← ofSelector? tree) :: (← ofEach? more)

-- The tokens of a selector are added one after the other to the sum so far.
def addTotal? (sum : Specificity) : Selector → Option Specificity
  | .leaf token => addToken? sum token
  | .compound tokens => addTokens? sum tokens
  | .complex _ left right => do addTotal? (← addTotal? sum left) right
  | .list alternatives => addTotals? sum alternatives

def addTotals? (sum : Specificity) : List Selector → Option Specificity
  | [] => some sum
  | tree :: more => do addTotals? (← addTotal? sum tree) more

def addTokens? (sum : Specificity) : List Token → Option Specificity
  | [] => some sum
  | token :: more => do addTokens? (← addToken? sum token) more

def addToken? (sum : Specificity) : Token → Option Specificity
  | ⟨kind, _, _, _⟩ => do add? sum (← ofKind? kind)

def ofKind? : Kind Selector → Option Specificity
  | .id _ => some ⟨1, 0, 0⟩
  | .className _ => some ⟨0, 1, 0⟩
  | .attr .. => some ⟨0, 1, 0⟩
  | .pseudoElement .. => some ⟨0, 0, 1⟩
  | .typeName .. => some ⟨0, 0, 1⟩
  | .pseudoClass name _ _ subtree =>
    if name = "where".toList then some 0
    else if takesSelector name then ofSubtree? name subtree
    else some ⟨0, 1, 0⟩
  | .universal _ => some 0
  | .combinator => some 0
  | .comma => some 0

def ofSubtree? (name : Text) : Option Selector → Option Specificity
  | none => some ⟨0, 1, 0⟩
  | some tree => do
    let score ← ofSelector? tree
    if takesCount name then add? score ⟨0, 1, 0⟩ else return score

end

theorem fit?_eq_some {bits n : Nat} (h : n < 2 ^ bits) : fit? bits n = some n := if_pos h

theorem add?_eq_some {s t : Specificity} (h : s.size + t.size < 2 ^ 32) : add? s t = some (s + t) := by
  unfold size at h
  rw [add?, fit?_eq_some (by omega), fit?_eq_some (by omega), fit?_eq_some (by omega)]
  rfl

-- What does not fit is noticed.
example : add? ⟨2 ^ 32 - 1, 0, 0⟩ ⟨1, 0, 0⟩ = none := by cbv

-- An id counts twice, so one bit is lost to it, and 31 bits each are left for the base and the counts.
theorem weight?_eq_some {base : Nat} {s : Specificity} (hbase : base ≤ 2 ^ 31) (hs : s.size < 2 ^ 31) :
    weight? base s = some (s.weight base) := by
  unfold size at hs
  have hids : s.ids * 2 * base ≤ s.ids * 2 * 2 ^ 31 := Nat.mul_le_mul_left _ hbase
  have hclasses : s.classes * base ≤ s.classes * 2 ^ 31 := Nat.mul_le_mul_left _ hbase
  simp only [weight?, Option.bind_eq_bind]
  rw [fit?_eq_some (by omega), Option.bind_some, fit?_eq_some (by omega), Option.bind_some, fit?_eq_some (by omega),
    Option.bind_some, fit?_eq_some (by omega), Option.bind_some, fit?_eq_some (by omega), weight]

theorem weighed?_eq_some {base : Nat} {scores : List Specificity}
    (h : ∀ s ∈ scores, weight? base s = some (s.weight base)) :
    weighed? base scores = some ((heaviest? base scores).map fun s => (s.weight base, s)) := by
  induction scores with
  | nil => rfl
  | cons s more ih =>
    obtain ⟨hs, hmore⟩ := List.forall_mem_cons.mp h
    rw [weighed?, hs, ih hmore, heaviest?]
    cases heaviest? base more with
    | none => rfl
    | some t => by_cases hlt : s.weight base < t.weight base <;> simp [hlt]

theorem baseFor_le {scores : List Specificity} (h : ∀ s ∈ scores, s.size < 2 ^ 31) : baseFor scores ≤ 2 ^ 31 := by
  induction scores with
  | nil => decide
  | cons s more ih =>
    obtain ⟨hs, hmore⟩ := List.forall_mem_cons.mp h
    have hbase := ih hmore
    rw [baseFor, List.map_cons, List.foldr_cons]
    rw [baseFor] at hbase
    unfold size at hs
    unfold largest at hbase ⊢
    omega

theorem best?_eq_some {scores : List Specificity} (h : ∀ s ∈ scores, s.size < 2 ^ 31) :
    best? scores = some (best scores) := by
  have hbase := baseFor_le h
  rw [best?, fit?_eq_some (by omega), Option.bind_eq_bind, Option.bind_some,
    weighed?_eq_some fun s hs => weight?_eq_some hbase (h s hs), best]
  cases heaviest? (baseFor scores) scores <;> rfl

-- A pseudo-class has its own weight on top of that of its argument, if at all.
theorem ofKind?_pseudoClass {name : Text} {argument index : Option Text} {subtree : Option Selector}
    (hsubtree : ∀ tree, subtree = some tree → ofSelector? tree = some (ofSelector tree))
    (hsize : ∀ tree, subtree = some tree → (ofSelector tree).size + 1 < 2 ^ 32) :
    ofKind? (.pseudoClass name argument index subtree) = some (ofKind (.pseudoClass name argument index subtree)) := by
  rw [ofKind?, ofKind]
  unfold ofPseudoClass
  split
  case isTrue => rfl
  case isFalse =>
    cases subtree with
    | none => simp [ofSubtree?, ofSubtree]
    | some tree =>
      rw [ofSubtree?, ofSubtree, hsubtree tree rfl]
      cases hselector : takesSelector name with
      | false =>
        have hcount : takesCount name = false := by
          by_contra hcount
          rw [takesSelector_of_takesCount (Bool.eq_true_of_not_eq_false hcount)] at hselector
          cases hselector
        simp [hcount]
      | true =>
        cases takesCount name with
        | false => rfl
        | true => exact add?_eq_some (hsize tree rfl)

mutual

-- As long as there are fewer tokens than fit into 31 bits, nothing is too large on the way.
theorem ofSelector?_eq_some (tree : Selector) (h : tree.tally < 2 ^ 31) :
    ofSelector? tree = some (ofSelector tree) := by
  cases tree with
  | leaf token =>
    rw [Selector.tally] at h
    rw [ofSelector?, addToken?_eq_some 0 token (by rw [size_zero]; omega), zero_add, ofSelector]
  | compound tokens =>
    rw [Selector.tally] at h
    rw [ofSelector?, addTokens?_eq_some 0 tokens (by rw [size_zero]; omega), zero_add, ofSelector]
  | complex combinator left right =>
    have hleft := size_total_le left
    rw [Selector.tally] at h
    rw [ofSelector?, addTotal?_eq_some 0 left (by rw [size_zero]; omega), zero_add, Option.bind_eq_bind,
      Option.bind_some, addTotal?_eq_some (total left) right (by omega), ofSelector]
  | list alternatives =>
    rw [Selector.tally] at h
    rw [ofSelector?, ofEach?_eq_some alternatives h, Option.bind_eq_bind, Option.bind_some, ofSelector]
    refine best?_eq_some fun s hs => ?_
    have hsize := size_le_of_mem_ofEach alternatives s hs
    omega

theorem ofEach?_eq_some (trees : List Selector) (h : tallySelectors trees < 2 ^ 31) :
    ofEach? trees = some (ofEach trees) := by
  cases trees with
  | nil => rfl
  | cons tree more =>
    rw [tallySelectors] at h
    rw [ofEach?, ofSelector?_eq_some tree (by omega), ofEach?_eq_some more (by omega), ofEach]
    rfl

theorem addTotal?_eq_some (sum : Specificity) (tree : Selector) (h : sum.size + tree.tally < 2 ^ 31) :
    addTotal? sum tree = some (sum + total tree) := by
  cases tree with
  | leaf token =>
    rw [Selector.tally] at h
    rw [addTotal?, addToken?_eq_some sum token h, total]
  | compound tokens =>
    rw [Selector.tally] at h
    rw [addTotal?, addTokens?_eq_some sum tokens h, total]
  | complex combinator left right =>
    have hleft := size_total_le left
    rw [Selector.tally] at h
    rw [addTotal?, addTotal?_eq_some sum left (by omega), Option.bind_eq_bind, Option.bind_some,
      addTotal?_eq_some (sum + total left) right (by rw [size_add]; omega), total, add_assoc]
  | list alternatives =>
    rw [Selector.tally] at h
    rw [addTotal?, addTotals?_eq_some sum alternatives h, total]

theorem addTotals?_eq_some (sum : Specificity) (trees : List Selector) (h : sum.size + tallySelectors trees < 2 ^ 31) :
    addTotals? sum trees = some (sum + totalOfAll trees) := by
  cases trees with
  | nil => rw [addTotals?, totalOfAll, add_zero]
  | cons tree more =>
    have htree := size_total_le tree
    rw [tallySelectors] at h
    rw [addTotals?, addTotal?_eq_some sum tree (by omega), Option.bind_eq_bind, Option.bind_some,
      addTotals?_eq_some (sum + total tree) more (by rw [size_add]; omega), totalOfAll, add_assoc]

theorem addTokens?_eq_some (sum : Specificity) (tokens : List Token) (h : sum.size + tallyTokens tokens < 2 ^ 31) :
    addTokens? sum tokens = some (sum + sumOf tokens) := by
  cases tokens with
  | nil => rw [addTokens?, sumOf, add_zero]
  | cons token more =>
    have htoken := size_ofToken_le token
    rw [tallyTokens] at h
    rw [addTokens?, addToken?_eq_some sum token (by omega), Option.bind_eq_bind, Option.bind_some,
      addTokens?_eq_some (sum + ofToken token) more (by rw [size_add]; omega), sumOf, add_assoc]

theorem addToken?_eq_some (sum : Specificity) (token : Token) (h : sum.size + token.tally < 2 ^ 31) :
    addToken? sum token = some (sum + ofToken token) := by
  obtain ⟨kind, content, start, stop⟩ := token
  have hkind := size_ofKind_le kind
  rw [Token.tally] at h
  rw [addToken?, ofKind?_eq_some kind (by omega), Option.bind_eq_bind, Option.bind_some, add?_eq_some (by omega),
    ofToken]

theorem ofKind?_eq_some (kind : Kind Selector) (h : kind.tallyInside + 1 < 2 ^ 31) :
    ofKind? kind = some (ofKind kind) := by
  cases kind with
  | pseudoClass name argument index subtree =>
    cases subtree with
    | none => exact ofKind?_pseudoClass (by simp) (by simp)
    | some tree =>
      have htree := size_ofSelector_le tree
      rw [Kind.tallyInside] at h
      refine ofKind?_pseudoClass (fun subtree hsubtree => ?_) (fun subtree hsubtree => ?_)
      · obtain rfl := Option.some.inj hsubtree
        exact ofSelector?_eq_some tree (by omega)
      · obtain rfl := Option.some.inj hsubtree
        omega
  | _ => rw [ofKind?, ofKind]

end

-- The three counts of a selector together are no more than its text has characters, and for a text of fewer than
-- 2 ^ 31 characters nothing overflows that is added up or weighed on the way to them, in whatever argument it stands.
theorem ofSelector_fits {options : Options} {text : Text} {tree : Selector}
    (h : Selector.ofText options text = .ok tree) :
    (ofSelector tree).ids + (ofSelector tree).classes + (ofSelector tree).types ≤ text.trim.length ∧
      (text.length < 2 ^ 31 → ofSelector? tree = some (ofSelector tree)) := by
  have htally : tree.tally ≤ text.trim.length := Selector.tally_le_of_ofText h
  refine ⟨(size_ofSelector_le tree).trans htally, fun hlength => ofSelector?_eq_some tree ?_⟩
  have htrim := text.length_trim_le
  omega

-- A list is ranked in an argument, and a class is added to what wins there.
theorem ofSelector_fits_counting : ∃ tree, Selector.ofText {} " .a:nth-child(2n of b c,#d) ".toList = .ok tree ∧
    ofSelector tree = ⟨1, 2, 0⟩ ∧ 1 + 2 + 0 ≤ (Text.trim " .a:nth-child(2n of b c,#d) ".toList).length ∧
    " .a:nth-child(2n of b c,#d) ".toList.length < 2 ^ 31 ∧ ofSelector? tree = some ⟨1, 2, 0⟩ := by
  let chain : Selector := .complex .descendant (.leaf ⟨.typeName none ['b'], ['b'], 0, 1⟩)
    (.leaf ⟨.typeName none ['c'], ['c'], 2, 3⟩)
  let argument : Selector := .list [chain, .leaf ⟨.id ['d'], ['#', 'd'], 4, 6⟩]
  let tree : Selector := .compound [⟨.className ['a'], ['.', 'a'], 0, 2⟩,
    ⟨.pseudoClass "nth-child".toList (some "2n of b c,#d".toList) (some "2n".toList) (some argument),
      ":nth-child(2n of b c,#d)".toList, 2, 26⟩]
  have htree : Selector.ofText {} " .a:nth-child(2n of b c,#d) ".toList = .ok tree := rfl
  have hscore : ofSelector tree = ⟨1, 2, 0⟩ := rfl
  have hlength : " .a:nth-child(2n of b c,#d) ".toList.length = 28 := rfl
  obtain ⟨hsize, hfits⟩ := ofSelector_fits htree
  rw [hscore] at hsize hfits
  exact ⟨tree, htree, hscore, hsize, by omega, hfits (by omega)⟩

end Specificity

end CssSelectors
