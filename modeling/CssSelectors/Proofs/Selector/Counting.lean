import CssSelectors.Proofs.Selector.Depth
import Mathlib.Order.Bounds.Basic

namespace CssSelectors.Selector

open Token

variable {tree : Selector} {tokens : List Token} {list : Bool}

-- One step of a count of combinators that reads the tokens from left to right and keeps two numbers:
-- how many there are in the alternative at hand so far, and the most there are in any. A comma begins an
-- alternative if commas are of account.
def countNext (list : Bool) : Nat × Nat → Token → Nat × Nat
  | (chain, longest), token =>
    if token.isCombinator then (chain + 1, max longest (chain + 1))
    else if list && token.isComma then (0, longest)
    else (chain, longest)

-- Where commas are of no account, all tokens are one alternative.
theorem longestChain_eq_foldr (list : Bool) (tokens : List Token) : longestChain list tokens =
    (runs (fun token => list && token.isComma) tokens).2.foldr
      (fun r longest => max (r.2.countP isCombinator) longest)
      ((runs (fun token => list && token.isComma) tokens).1.countP isCombinator) := by
  cases list with
  | true => rfl
  | false =>
    have hnone : runs (fun token => false && token.isComma) tokens = (tokens, []) := runs_eq_self fun _ _ => rfl
    rw [hnone]
    rfl

-- The invariant is that the alternative at hand is one of those whose combinators have been counted.
theorem foldl_countNext {chain longest : Nat} (h : chain ≤ longest) :
    (tokens.foldl (countNext list) (chain, longest)).2 = max longest
      ((runs (fun token => list && token.isComma) tokens).2.foldr
        (fun r longest => max (r.2.countP isCombinator) longest)
        (chain + (runs (fun token => list && token.isComma) tokens).1.countP isCombinator)) := by
  induction tokens generalizing chain longest with
  | nil =>
    rw [List.foldl_nil, runs, List.foldr_nil, List.countP_nil, Nat.add_zero, Nat.max_eq_left h]
  | cons token tokens ih =>
    rw [List.foldl_cons, countNext, runs]
    generalize runs (fun token => list && token.isComma) tokens = parts at ih ⊢
    obtain ⟨first, more⟩ := parts
    dsimp only at ih ⊢
    by_cases hcombinator : token.isCombinator = true
    · have hcuts : ¬(list && token.isComma) = true := by
        rw [isComma_eq_false_of_isCombinator hcombinator, Bool.and_false]
        exact Bool.false_ne_true
      rw [if_pos hcombinator, if_neg hcuts, ih (Nat.le_max_right ..), List.countP_cons_of_pos hcombinator,
        foldr_max_init, foldr_max_init more (chain + _)]
      omega
    rw [if_neg hcombinator]
    by_cases hcuts : (list && token.isComma) = true
    · rw [if_pos hcuts, if_pos hcuts, ih (Nat.zero_le longest), List.foldr_cons, List.countP_nil, foldr_max_init,
        foldr_max_init more (chain + _)]
      dsimp only
      omega
    · rw [if_neg hcuts, if_neg hcuts, ih h, List.countP_cons_of_neg hcombinator]

theorem longestChain_eq_foldl (list : Bool) (tokens : List Token) :
    longestChain list tokens = (tokens.foldl (countNext list) (0, 0)).2 := by
  rw [foldl_countNext (Nat.le_refl 0), Nat.zero_add, Nat.zero_max, longestChain_eq_foldr]

theorem height_of_block (h : Block tree) : tree.height = 0 := by
  cases h <;> rw [Tree.height]

-- The ways down that pass the most complex nodes. In a chain it is the one that always goes to the left.
theorem descent_of_chained (h : Chained tree) : Descent tree 0 tree.height := by
  induction h with
  | block htree =>
    rw [height_of_block htree]
    cases htree with
    | leaf htoken => exact .leaf _
    | compound hlength htokens => exact .compound _
  | @complex left right combinator hleft hright ih =>
    rw [Tree.height, height_of_block hright, Nat.max_zero]
    exact .left combinator right ih

theorem descent_of_wellShaped (h : WellShaped tree) : Descent tree 0 tree.height := by
  cases h with
  | single htree => exact descent_of_chained htree
  | @list alternatives hlength halternatives =>
    have hne : alternatives ≠ [] := by
      rintro rfl
      simp at hlength
    obtain ⟨highest, hmem, hheight⟩ := Tree.exists_height_eq hne
    rw [Tree.height, ← hheight]
    exact .list hmem (descent_of_chained (halternatives highest hmem))

theorem descent_of_ofRun (h : ofRun tokens = .ok tree) : Descent tree 0 tree.height := by
  rw [height_of_ofRun h]
  unfold ofRun at h
  split at h
  · cases h
  · obtain rfl := pure_eq_ok.mp h
    exact .leaf _
  · obtain rfl := pure_eq_ok.mp h
    exact .compound _

theorem descent_of_assemble (h : assemble list tokens = .ok tree) : Descent tree 0 tree.height := by
  cases list with
  | true => exact descent_of_wellShaped (wellShaped_of_ofList h).1
  | false =>
    rcases exists_last_cut isCombinator tokens with hnone | ⟨left, token, right, rfl, htoken, hright⟩
    · rw [assemble_of_uncombined hnone] at h
      exact descent_of_ofRun h
    · obtain ⟨combinator, leftTree, rightTree, -, hleft, hrightTree, rfl⟩ :=
        (assemble_combined_eq_ok_iff htoken hright).mp h
      have hdescent := descent_of_wellShaped (wellShaped_of_ofList hleft).1
      have hdescent' := descent_of_wellShaped (wellShaped_of_ofList hrightTree).1
      rw [Tree.height]
      by_cases hle : rightTree.height ≤ leftTree.height
      · rw [Nat.max_eq_left hle]
        exact .left combinator rightTree hdescent
      · rw [Nat.max_eq_right (by omega)]
        exact .right combinator leftTree hdescent'

-- No way down passes more, so the height of a tree that tokens make up is the most that any passes.
theorem isGreatest_height_of_assemble (h : assemble list tokens = .ok tree) :
    IsGreatest {passed | Descent tree 0 passed} tree.height := by
  refine ⟨descent_of_assemble h, fun passed hdescent => ?_⟩
  rcases hdescent.cases_top with ⟨-, hle⟩ | ⟨token, hmem, subtree, inner, below, hsubtree, hinner, hentered, hle⟩
  · exact hle
  · omega

variable {argument : Nat → Text → Except Error Selector} {options : Options} {above : Nat}

-- Tokens are refused for the length of their chain alone, and before they are put together.
theorem build_of_maxChain_lt (h : maxChain < above + longestChain options.list tokens) :
    build argument options above tokens = .error (.tooDeep maxChain) :=
  build_eq_error_iff.mpr (.inl ⟨h, rfl⟩)

theorem build_of_assemble (h : assemble options.list tokens = .ok tree)
    (hchain : above + longestChain options.list tokens ≤ maxChain) : build argument options above tokens =
      if options.recursive = true then tree.mapM (attach (argument (above + longestChain options.list tokens)))
      else .ok tree := by
  unfold build
  dsimp only
  rw [if_neg (Nat.not_lt.mpr hchain), h]
  rfl

-- The chain that is counted from left to right is the most complex nodes on any way from the root of
-- the tree to one of its leaves, if commas are of account, and no less if they are not. So whatever
-- would be too high is refused, and where commas are of account nothing else is.
theorem longestChain_of_assemble (h : assemble options.list tokens = .ok tree)
    (argument : Nat → Text → Except Error Selector) (above : Nat) :
    longestChain options.list tokens = (tokens.foldl (countNext options.list) (0, 0)).2 ∧
    ∃ most, IsGreatest {passed | Descent tree 0 passed} most ∧ most ≤ longestChain options.list tokens ∧
      (maxChain < above + most → build argument options above tokens = .error (.tooDeep maxChain)) ∧
      (options.list = true → most = longestChain options.list tokens ∧
        (above + most ≤ maxChain → build argument options above tokens =
          if options.recursive = true then tree.mapM (attach (argument (above + most))) else .ok tree)) := by
  have hle : tree.height ≤ longestChain options.list tokens := height_of_assemble h
  refine ⟨longestChain_eq_foldl options.list tokens, tree.height, isGreatest_height_of_assemble h, hle, ?_, ?_⟩
  · intro hhigh
    apply build_of_maxChain_lt
    omega
  · intro hlist
    have heq : tree.height = longestChain options.list tokens := by
      rw [hlist] at h ⊢
      exact height_of_ofList h
    refine ⟨heq, fun hlow => ?_⟩
    rw [heq] at hlow ⊢
    exact build_of_assemble h hlow

-- Two alternatives, of which the second is the higher one. Below 126 combinators there is room for it, and below one
-- more there is not.
theorem longestChain_of_assemble_listed : ∃ tokens tree, Token.ofText "a b,c>d e".toList = .ok tokens ∧
    assemble true tokens = .ok tree ∧ IsGreatest {passed | Descent tree 0 passed} 2 ∧
    (tokens.foldl (countNext true) (0, 0)).2 = 2 ∧
    build (ofArgument maxNesting) {} 126 tokens = tree.mapM (attach (ofArgument maxNesting 128)) ∧
    build (ofArgument maxNesting) {} 127 tokens = .error (.tooDeep maxChain) := by
  let letter (c : Char) (start : Nat) : Token := ⟨.typeName none [c], [c], start, start + 1⟩
  let combine (c : Char) (start : Nat) : Token := ⟨.combinator, [c], start, start + 1⟩
  let tokens : List Token := [letter 'a' 0, combine ' ' 1, letter 'b' 2, ⟨.comma, [','], 3, 4⟩, letter 'c' 4,
    combine '>' 5, letter 'd' 6, combine ' ' 7, letter 'e' 8]
  let tree : Selector := .list [.complex .descendant (.leaf (letter 'a' 0)) (.leaf (letter 'b' 2)),
    .complex .descendant (.complex .child (.leaf (letter 'c' 4)) (.leaf (letter 'd' 6))) (.leaf (letter 'e' 8))]
  have htree : assemble (Options.list {}) tokens = .ok tree := rfl
  have hchain : longestChain (Options.list {}) tokens = 2 := rfl
  obtain ⟨hcount, most, hgreatest, -, -, hexact⟩ := longestChain_of_assemble htree (ofArgument maxNesting) 126
  obtain ⟨hmost, hlow⟩ := hexact rfl
  obtain rfl : most = 2 := hmost.trans hchain
  obtain ⟨-, most', hgreatest', -, hhigh, -⟩ := longestChain_of_assemble htree (ofArgument maxNesting) 127
  obtain rfl : most' = 2 := hgreatest'.unique hgreatest
  exact ⟨tokens, tree, rfl, htree, hgreatest, hcount.symm.trans hchain, hlow (by decide), hhigh (by decide)⟩

-- Where commas are of no account the count may be more than the height.
example : (Token.ofText "a b,c d,e f".toList).map (longestChain false) = .ok 3 ∧
    (Token.ofText "a b,c d,e f".toList >>= assemble false).map Tree.height = .ok 2 := ⟨rfl, rfl⟩

end CssSelectors.Selector
