import CssSelectors.Proofs.Selector.Alternatives

namespace CssSelectors

open Token

variable {tokens left right group : List Token} {token : Token} {tree bare : Selector}

namespace Selector

-- A group is no list of alternatives,
theorem ofGroup_ne_list (h : ofGroup group = .ok tree) (alternatives : List Selector) : tree ≠ .list alternatives := by
  rintro rfl
  rcases exists_last_cut isCombinator group with hnone | ⟨left, token, right, rfl, htoken, hright⟩
  · rw [ofGroup_of_uncombined hnone] at h
    match group with
    | [] => cases h
    | [token] => cases h
    | token :: next :: more => cases h
  · rw [ofGroup_of_combined htoken hright] at h
    simp only [bind_eq_ok, pure_eq_ok] at h
    obtain ⟨_, -, _, -, _, -, hlist⟩ := h
    cases hlist

-- and it does not become one when its arguments are parsed.
theorem mapM_ne_list {parse : Token → Except Error Token} (hbare : ∀ alternatives, bare ≠ .list alternatives)
    (h : bare.mapM parse = .ok tree) (alternatives : List Selector) : tree ≠ .list alternatives := by
  rintro rfl
  cases Tree.mapM_eq_ok_iff.mp h with
  | list _ => exact hbare _ rfl

-- Each combinator has on its left and on its right what the tokens there make up by themselves. The tree need not
-- have these for subtrees, since it is joined at its last combinator, but it has their tokens.
theorem tokens_of_ofGroup (htoken : token.isCombinator = true) (h : ofGroup (left ++ token :: right) = .ok tree) :
    ∃ leftTree rightTree, ofGroup left = .ok leftTree ∧ ofGroup right = .ok rightTree ∧
      tree.tokens = leftTree.tokens ++ rightTree.tokens := by
  induction hlength : right.length using Nat.strongRecOn generalizing right tree with
  | ind n ih =>
    rcases exists_last_cut isCombinator right with hnone | ⟨middle, last, right, rfl, hlast, hright⟩
    · rw [ofGroup_of_combined htoken hnone] at h
      simp only [bind_eq_ok, pure_eq_ok] at h
      obtain ⟨combinator, -, leftTree, hleft, rightTree, hrightTree, rfl⟩ := h
      exact ⟨leftTree, rightTree, hleft, by rwa [ofGroup_of_uncombined hnone], rfl⟩
    · rw [← List.cons_append, ← List.append_assoc, ofGroup_of_combined hlast hright] at h
      simp only [bind_eq_ok, pure_eq_ok] at h
      obtain ⟨combinator, hread, before, hbefore, lastTree, hlastTree, rfl⟩ := h
      have hshorter : middle.length < n := by
        rw [← hlength, List.length_append, List.length_cons]
        omega
      obtain ⟨leftTree, middleTree, hleft, hmiddle, htokens⟩ := ih middle.length hshorter hbefore rfl
      refine ⟨leftTree, .complex combinator middleTree lastTree, hleft, ?_, ?_⟩
      · rw [ofGroup_of_combined hlast hright, hread, hmiddle, hlastTree]
        rfl
      · rw [Tree.tokens, Tree.tokens, htokens, List.append_assoc]

end Selector

namespace Specificity

open Selector

-- What is no list counts as much as its tokens do.
theorem ofSelector_eq_sumOf_tokens (h : ∀ alternatives, tree ≠ .list alternatives) :
    ofSelector tree = sumOf tree.tokens := by
  rw [← total_eq_sumOf_tokens]
  cases tree with
  | leaf token => rw [ofSelector, total]
  | compound tokens => rw [ofSelector, total]
  | complex combinator left right => rw [ofSelector, total]
  | list alternatives => exact absurd rfl (h alternatives)

variable {argument : Nat → Text → Except Error Selector} {above longest : Nat}

-- A part of a group is built by itself below fewer combinators, and its arguments come to the same.
theorem exists_build_of_ofGroup (hmono : ∀ chain chain' text tree, chain' ≤ chain → argument chain text = .ok tree →
      argument chain' text = .ok tree)
    (hgroup : ∀ token ∈ group, token.isComma = false) (hlongest : group.countP isCombinator ≤ longest)
    (hchain : above + longest ≤ Selector.maxChain) (hbare : ofGroup group = .ok bare)
    (htokens : bare.tokens.mapM (attach (argument (above + longest))) = .ok tokens) :
    ∃ tree, build argument {} above group = .ok tree ∧ ofSelector tree = sumOf tokens := by
  have hcount : longestChain true group = group.countP isCombinator := longestChain_of_group hgroup
  have hfewer : bare.tokens.mapM (attach (argument (above + longestChain true group))) = .ok tokens := by
    refine mapM_eq_ok.mpr ((mapM_eq_ok.mp htokens).imp fun token token' hattach => ?_)
    exact attach_congr (fun text tree _ => hmono _ _ text tree (by omega)) hattach
  obtain ⟨tree, hmapM, rfl⟩ := Tree.exists_of_mapM_tokens hfewer
  refine ⟨tree, build_eq_ok_iff.mpr ⟨?_, bare, ?_, ?_⟩, ?_⟩
  · change above + longestChain true group ≤ Selector.maxChain
    omega
  · rw [assemble_eq_ofGroup _ hgroup, hbare]
  · rwa [if_pos rfl]
  · exact ofSelector_eq_sumOf_tokens (mapM_ne_list (ofGroup_ne_list hbare) hmapM)

-- So what two groups with a combinator between them count is the sum of what each of them counts.
theorem ofSelector_of_build (hmono : ∀ chain chain' text tree, chain' ≤ chain → argument chain text = .ok tree →
      argument chain' text = .ok tree)
    (hleft : ∀ other ∈ left, other.isComma = false) (hright : ∀ other ∈ right, other.isComma = false)
    (htoken : token.isCombinator = true) (h : build argument {} above (left ++ token :: right) = .ok tree) :
    ∃ leftTree rightTree, build argument {} above left = .ok leftTree ∧ build argument {} above right = .ok rightTree ∧
      ofSelector tree = ofSelector leftTree + ofSelector rightTree := by
  have hall : ∀ other ∈ left ++ token :: right, other.isComma = false := List.forall_mem_append.mpr
    ⟨hleft, List.forall_mem_cons.mpr ⟨isComma_eq_false_of_isCombinator htoken, hright⟩⟩
  obtain ⟨hchain, bare, hbare, hmapM⟩ : above + longestChain true (left ++ token :: right) ≤ Selector.maxChain ∧
      ∃ bare, assemble true (left ++ token :: right) = .ok bare ∧
        bare.mapM (attach (argument (above + longestChain true (left ++ token :: right)))) = .ok tree :=
    build_eq_ok_iff.mp h
  rw [assemble_eq_ofGroup _ hall] at hbare
  have hcount : longestChain true (left ++ token :: right) =
      left.countP isCombinator + (right.countP isCombinator + 1) := by
    rw [longestChain_of_group hall, List.countP_append, List.countP_cons_of_pos htoken]
  obtain ⟨leftBare, rightBare, hleftBare, hrightBare, htokens⟩ := tokens_of_ofGroup htoken hbare
  obtain ⟨leftTokens, rightTokens, hleftTokens, hrightTokens, hsplit⟩ := Tree.exists_of_tokens_append htokens hmapM
  obtain ⟨leftTree, hleftTree, hleftSum⟩ :=
    exists_build_of_ofGroup hmono hleft (by omega) hchain hleftBare hleftTokens
  obtain ⟨rightTree, hrightTree, hrightSum⟩ :=
    exists_build_of_ofGroup hmono hright (by omega) hchain hrightBare hrightTokens
  refine ⟨leftTree, rightTree, hleftTree, hrightTree, ?_⟩
  rw [ofSelector_eq_sumOf_tokens (mapM_ne_list (ofGroup_ne_list hbare) hmapM), hsplit, sumOf_append, hleftSum, hrightSum]

-- A combinator may stand anywhere among others: what its sides make up by themselves adds up.
theorem ofSelector_combined (hleft : ∀ other ∈ left, other.isComma = false)
    (hright : ∀ other ∈ right, other.isComma = false) (htoken : token.isCombinator = true)
    (h : ofTokens {} (left ++ token :: right) = .ok tree) :
    ∃ leftTree rightTree, ofTokens {} left = .ok leftTree ∧ ofTokens {} right = .ok rightTree ∧
      ofSelector tree = ofSelector leftTree + ofSelector rightTree :=
  ofSelector_of_build (fun _ _ _ _ hchain => ofArgument_mono (Nat.le_refl _) hchain) hleft hright htoken h

-- Combinators on both sides, and alternatives in an argument in another one.
theorem ofSelector_combined_nested : ∃ left token right tree leftTree rightTree,
    textOf (left ++ token :: right) = "#a>b c+:not(d:is(.e .f,g))".toList ∧ token.content = [' '] ∧
      ofTokens {} (left ++ token :: right) = .ok tree ∧ ofTokens {} left = .ok leftTree ∧
      ofTokens {} right = .ok rightTree ∧ ofSelector tree = ofSelector leftTree + ofSelector rightTree ∧
      ofSelector tree = ⟨1, 2, 3⟩ := by
  let a : Token := ⟨.id "a".toList, "#a".toList, 0, 2⟩
  let b : Token := ⟨.typeName none ['b'], ['b'], 3, 4⟩
  let c : Token := ⟨.typeName none ['c'], ['c'], 5, 6⟩
  let not (subtree : Option Selector) : Token :=
    ⟨.pseudoClass "not".toList (some "d:is(.e .f,g)".toList) none subtree, ":not(d:is(.e .f,g))".toList, 7, 26⟩
  let alternatives : Selector := .list [.complex .descendant (.leaf ⟨.className ['e'], ".e".toList, 0, 2⟩)
    (.leaf ⟨.className ['f'], ".f".toList, 3, 5⟩), .leaf ⟨.typeName none ['g'], ['g'], 6, 7⟩]
  let argument : Selector := .compound [⟨.typeName none ['d'], ['d'], 0, 1⟩,
    ⟨.pseudoClass "is".toList (some ".e .f,g".toList) none (some alternatives), ":is(.e .f,g)".toList, 1, 13⟩]
  let tree : Selector := .complex .nextSibling (.complex .descendant (.complex .child (.leaf a) (.leaf b)) (.leaf c))
    (.leaf (not (some argument)))
  have htree : ofTokens {} ([a, ⟨.combinator, ['>'], 2, 3⟩, b] ++ ⟨.combinator, [' '], 4, 5⟩ ::
      [c, ⟨.combinator, ['+'], 6, 7⟩, not none]) = .ok tree := rfl
  obtain ⟨leftTree, rightTree, hleft, hright, hsum⟩ := ofSelector_combined (by decide) (by decide) rfl htree
  exact ⟨_, _, _, tree, leftTree, rightTree, rfl, rfl, htree, hleft, hright, hsum, rfl⟩

end Specificity

end CssSelectors
