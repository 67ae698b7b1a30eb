import CssSelectors.Proofs.Selector.Building

namespace CssSelectors.Selector

mutual

-- How many subtrees stand inside each other where they are stacked the highest.
def nesting : Selector → Nat
  | .leaf token => nestingOfToken token
  | .compound tokens => nestingOfTokens tokens
  | .complex _ left right => max (nesting left) (nesting right)
  | .list alternatives => nestingOfAll alternatives

def nestingOfAll : List Selector → Nat
  | [] => 0
  | tree :: more => max (nesting tree) (nestingOfAll more)

def nestingOfTokens : List Token → Nat
  | [] => 0
  | token :: more => max (nestingOfToken token) (nestingOfTokens more)

def nestingOfToken : Token → Nat
  | ⟨kind, _, _, _⟩ => nestingOfKind kind

def nestingOfKind : Kind Selector → Nat
  | .pseudoClass _ _ _ subtree => nestingOfSubtree subtree
  | .attr .. => 0
  | .id _ => 0
  | .className _ => 0
  | .comma => 0
  | .combinator => 0
  | .pseudoElement .. => 0
  | .universal _ => 0
  | .typeName .. => 0

def nestingOfSubtree : Option Selector → Nat
  | none => 0
  | some tree => nesting tree + 1

end

-- A token allows for as many levels as its subtree needs and one more.
def Allows (n : Nat) (token : Token) : Prop :=
  ∀ subtree, token.kind.subtree? = some subtree → nesting subtree < n

theorem nestingOfToken_le_iff {token : Token} {n : Nat} : nestingOfToken token ≤ n ↔ Allows n token := by
  obtain ⟨kind, content, start, stop⟩ := token
  cases kind with
  | pseudoClass name argument index subtree =>
    cases subtree with
    | none => simp [nestingOfToken, nestingOfKind, nestingOfSubtree, Allows, Kind.subtree?]
    | some tree =>
      simp only [nestingOfToken, nestingOfKind, nestingOfSubtree, Allows, Kind.subtree?, Option.some.injEq, forall_eq']
      exact Nat.succ_le_iff
  | _ => simp [nestingOfToken, nestingOfKind, Allows, Kind.subtree?]

theorem nestingOfTokens_le_iff {tokens : List Token} {n : Nat} :
    nestingOfTokens tokens ≤ n ↔ ∀ token ∈ tokens, Allows n token := by
  induction tokens with
  | nil => simp [nestingOfTokens]
  | cons token tokens ih => rw [nestingOfTokens, Nat.max_le, ih, nestingOfToken_le_iff, List.forall_mem_cons]

mutual

-- A selector needs as many levels as all its tokens allow for, wherever they stand.
theorem nesting_le_iff {tree : Selector} {n : Nat} : nesting tree ≤ n ↔ ∀ token ∈ tree.tokens, Allows n token := by
  cases tree with
  | leaf token => rw [nesting, Tree.tokens, nestingOfToken_le_iff, List.forall_mem_singleton]
  | compound tokens => rw [nesting, Tree.tokens, nestingOfTokens_le_iff]
  | complex combinator left right =>
    rw [nesting, Tree.tokens, Nat.max_le, nesting_le_iff, nesting_le_iff, List.forall_mem_append]
  | list alternatives => rw [nesting, Tree.tokens, nestingOfAll_le_iff]

theorem nestingOfAll_le_iff {trees : List Selector} {n : Nat} :
    nestingOfAll trees ≤ n ↔ ∀ token ∈ Tree.tokensAll trees, Allows n token := by
  cases trees with
  | nil => simp [nestingOfAll, Tree.tokensAll]
  | cons tree more =>
    rw [nestingOfAll, Tree.tokensAll, Nat.max_le, nesting_le_iff, nestingOfAll_le_iff, List.forall_mem_append]

end

-- As many levels as a parsed argument needs are enough to parse it.
theorem ofArgument_of_nesting {levels enough above : Nat} {text : Text} {tree : Selector}
    (h : ofArgument levels above text = .ok tree) (hnesting : nesting tree < enough) :
    ofArgument enough above text = .ok tree := by
  induction enough generalizing levels above text tree with
  | zero => omega
  | succ enough ih =>
    cases levels with
    | zero => cases h
    | succ levels =>
      obtain ⟨tokens, htokens, hbuild⟩ := bind_eq_ok.mp h
      obtain ⟨hchain, bare, hbare, htree⟩ := build_eq_ok_iff.mp hbuild
      rw [if_pos rfl] at htree
      refine bind_eq_ok.mpr ⟨tokens, htokens, build_eq_ok_iff.mpr ⟨hchain, bare, hbare, ?_⟩⟩
      rw [if_pos rfl]
      refine Tree.mapM_eq_ok_iff.mpr ((Tree.mapM_eq_ok_iff.mp htree).imp fun token _ token' hmem htoken => ?_)
      -- Each subtree stands in a token of the result, so it needs one level less.
      have hallows : Allows enough token' := nesting_le_iff.mp (Nat.le_of_lt_succ hnesting) token' hmem
      exact attach_congr (fun text subtree hsubtree hparse => ih hparse (hallows subtree hsubtree)) htoken

end CssSelectors.Selector
