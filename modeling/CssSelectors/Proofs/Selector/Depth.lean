import CssSelectors.Proofs.Selector.Enrichment
import CssSelectors.Proofs.Tree.Height

namespace CssSelectors

theorem length_snd_runs {α : Type} (cuts : α → Bool) (xs : List α) : (runs cuts xs).2.length = xs.countP cuts := by
  induction xs with
  | nil => rfl
  | cons x xs ih =>
    cases hx : cuts x with
    | true => simp [runs, hx, ih]
    | false => simp [runs, hx, ih]

-- A token without its argument parsed has no subtree.
theorem Token.Unparsed.subtree?_eq_none {token : Token} (h : token.Unparsed) : token.kind.subtree? = none := by
  rcases token with ⟨kind, content, start, stop⟩
  cases kind with
  | pseudoClass name argument index subtree => exact (h name argument index subtree rfl).2
  | _ => rfl

namespace Selector

open Token

variable {tree : Selector} {tokens : List Token}

theorem height_of_ofRun (h : ofRun tokens = .ok tree) : tree.height = 0 := by
  unfold ofRun at h
  split at h
  · cases h
  · obtain rfl := pure_eq_ok.mp h
    rw [Tree.height]
  · obtain rfl := pure_eq_ok.mp h
    rw [Tree.height]

-- All combinators of a chain stand one above the other on its left.
theorem height_of_ofChain {first : List Token} {more : List (Token × List Token)} (h : ofChain first more = .ok tree) :
    tree.height = more.length := by
  induction more generalizing tree with
  | nil => exact height_of_ofRun h
  | cons r before ih =>
    obtain ⟨token, run⟩ := r
    obtain ⟨combinator, -, h⟩ := bind_eq_ok.mp h
    obtain ⟨left, hleft, h⟩ := bind_eq_ok.mp h
    obtain ⟨right, hright, h⟩ := bind_eq_ok.mp h
    obtain rfl := pure_eq_ok.mp h
    rw [Tree.height, ih hleft, height_of_ofRun hright, Nat.max_zero, List.length_cons]

theorem height_of_ofGroup (h : ofGroup tokens = .ok tree) : tree.height = tokens.countP isCombinator := by
  rw [height_of_ofChain h, List.length_reverse, length_snd_runs]

theorem foldr_max_init (more : List (Token × List Token)) (n : Nat) :
    more.foldr (fun r longest => max (r.2.countP isCombinator) longest) n =
      max n (more.foldr (fun r longest => max (r.2.countP isCombinator) longest) 0) := by
  induction more with
  | nil => simp
  | cons r more ih =>
    rw [List.foldr_cons, List.foldr_cons, ih]
    omega

-- A list is as high as its highest alternative.
theorem height_of_ofAlternatives {before : Nat} {group : List Token} {more : List (Token × List Token)}
    {trees : List Selector} (h : ofAlternatives before group more = .ok trees) : Tree.heightOfAll trees =
      more.foldr (fun r longest => max (r.2.countP isCombinator) longest) (group.countP isCombinator) := by
  induction more generalizing before group trees with
  | nil =>
    rw [ofAlternatives] at h
    split at h
    · cases h
    · obtain ⟨tree, htree, h⟩ := bind_eq_ok.mp h
      obtain rfl := pure_eq_ok.mp h
      rw [Tree.heightOfAll, Tree.heightOfAll, height_of_ofGroup htree, Nat.max_zero, List.foldr_nil]
  | cons r more ih =>
    obtain ⟨comma, next⟩ := r
    rw [ofAlternatives] at h
    split at h
    · cases h
    · obtain ⟨tree, htree, h⟩ := bind_eq_ok.mp h
      obtain ⟨trees, htrees, h⟩ := bind_eq_ok.mp h
      obtain rfl := pure_eq_ok.mp h
      rw [Tree.heightOfAll, height_of_ofGroup htree, ih htrees, List.foldr_cons, foldr_max_init more (next.countP _),
        foldr_max_init more (group.countP _)]
      exact Nat.max_left_comm ..

theorem height_of_ofList (h : ofList tokens = .ok tree) : tree.height = longestChain true tokens := by
  unfold ofList at h
  rw [longestChain, if_pos rfl]
  rcases hruns : runs isComma tokens with ⟨group, commas⟩
  rw [hruns] at h
  cases commas with
  | nil => exact height_of_ofGroup h
  | cons r commas =>
    obtain ⟨trees, htrees, h⟩ := bind_eq_ok.mp h
    obtain rfl := pure_eq_ok.mp h
    rw [Tree.height]
    exact height_of_ofAlternatives htrees

private theorem foldr_le_countP (group : List Token) (commas : List (Token × List Token)) :
    commas.foldr (fun r longest => max (r.2.countP isCombinator) longest) (group.countP isCombinator) ≤
      (joinRuns group commas).countP isCombinator := by
  induction commas generalizing group with
  | nil => simp [joinRuns]
  | cons r commas ih =>
    obtain ⟨comma, next⟩ := r
    have hnext := ih next
    have hcomma : (joinRuns next commas).countP isCombinator ≤ (comma :: joinRuns next commas).countP isCombinator :=
      (List.sublist_cons_self comma _).countP_le
    rw [joinRuns_cons, List.countP_append, List.foldr_cons, foldr_max_init]
    rw [foldr_max_init] at hnext
    dsimp only at hnext ⊢
    omega

-- No alternative has more combinators than all of them together.
theorem longestChain_le_countP (tokens : List Token) : longestChain true tokens ≤ tokens.countP isCombinator := by
  have hle := foldr_le_countP (runs isComma tokens).1 (runs isComma tokens).2
  rw [joinRuns_runs] at hle
  exact hle

-- So a tree is no higher than the chain that is counted before it is built. Where the sequence as a
-- whole is no list, one combinator stands above the lists on its two sides.
theorem height_of_assemble {list : Bool} (h : assemble list tokens = .ok tree) :
    tree.height ≤ longestChain list tokens := by
  cases list with
  | true => exact Nat.le_of_eq (height_of_ofList h)
  | false =>
    rw [longestChain, if_neg Bool.false_ne_true]
    change tree.height ≤ tokens.countP isCombinator
    rcases exists_last_cut isCombinator tokens with hnone | ⟨left, token, right, rfl, htoken, hright⟩
    · rw [assemble_of_uncombined hnone] at h
      rw [height_of_ofRun h]
      exact Nat.zero_le _
    · obtain ⟨combinator, leftTree, rightTree, -, hleft, hrightTree, rfl⟩ :=
        (assemble_combined_eq_ok_iff htoken hright).mp h
      rw [List.countP_append, List.countP_cons_of_pos htoken, Tree.height, height_of_ofList hleft,
        height_of_ofList hrightTree]
      have hleftmost := longestChain_le_countP left
      have hrightmost := longestChain_le_countP right
      omega

-- A way down through a selector: from its root to a token, and perhaps on from there into the subtree
-- of that token. It enters a number of subtrees and passes a number of complex nodes, all of those
-- counted that stand above the selectors it enters.
inductive Descent : Selector → Nat → Nat → Prop
  | leaf (token : Token) : Descent (.leaf token) 0 0
  | compound (tokens : List Token) : Descent (.compound tokens) 0 0
  | left (combinator : Combinator) {left : Selector} (right : Selector) {entered passed : Nat}
    (hleft : Descent left entered passed) : Descent (.complex combinator left right) entered (passed + 1)
  | right (combinator : Combinator) (left : Selector) {right : Selector} {entered passed : Nat}
    (hright : Descent right entered passed) : Descent (.complex combinator left right) entered (passed + 1)
  | list {alternatives : List Selector} {tree : Selector} {entered passed : Nat} (hmem : tree ∈ alternatives)
    (htree : Descent tree entered passed) : Descent (.list alternatives) entered passed
  | leafSubtree {token : Token} {subtree : Selector} {entered passed : Nat}
    (hsubtree : token.kind.subtree? = some subtree) (hinner : Descent subtree entered passed) :
    Descent (.leaf token) (entered + 1) passed
  | compoundSubtree {tokens : List Token} {token : Token} {subtree : Selector} {entered passed : Nat}
    (hmem : token ∈ tokens) (hsubtree : token.kind.subtree? = some subtree) (hinner : Descent subtree entered passed) :
    Descent (.compound tokens) (entered + 1) passed

-- A way down ends in the tree itself or goes on in the subtree of one of its tokens.
theorem Descent.cases_top {entered passed : Nat} (h : Descent tree entered passed) :
    entered = 0 ∧ passed ≤ tree.height ∨ ∃ token ∈ tree.tokens, ∃ subtree inner below,
      token.kind.subtree? = some subtree ∧ Descent subtree inner below ∧ entered = inner + 1 ∧
        passed ≤ tree.height + below := by
  induction h with
  | leaf token => exact .inl ⟨rfl, Nat.zero_le _⟩
  | compound tokens => exact .inl ⟨rfl, Nat.zero_le _⟩
  | left combinator right hleft ih =>
    rw [Tree.height, Tree.tokens]
    rcases ih with ⟨rfl, hle⟩ | ⟨token, hmem, subtree, inner, below, hsubtree, hinner, rfl, hle⟩
    · exact .inl ⟨rfl, by omega⟩
    · exact .inr ⟨token, List.mem_append_left _ hmem, subtree, inner, below, hsubtree, hinner, rfl, by omega⟩
  | right combinator left hright ih =>
    rw [Tree.height, Tree.tokens]
    rcases ih with ⟨rfl, hle⟩ | ⟨token, hmem, subtree, inner, below, hsubtree, hinner, rfl, hle⟩
    · exact .inl ⟨rfl, by omega⟩
    · exact .inr ⟨token, List.mem_append_right _ hmem, subtree, inner, below, hsubtree, hinner, rfl, by omega⟩
  | list hmem htree ih =>
    rw [Tree.height, Tree.tokens]
    have hheight := Tree.height_le_of_mem hmem
    rcases ih with ⟨rfl, hle⟩ | ⟨token, htoken, subtree, inner, below, hsubtree, hinner, rfl, hle⟩
    · exact .inl ⟨rfl, by omega⟩
    · exact .inr ⟨token, Tree.mem_tokensAll hmem htoken, subtree, inner, below, hsubtree, hinner, rfl, by omega⟩
  | @leafSubtree token subtree entered passed hsubtree hinner ih =>
    exact .inr ⟨token, List.mem_singleton_self token, subtree, entered, passed, hsubtree, hinner, rfl,
      Nat.le_add_left ..⟩
  | @compoundSubtree tokens token subtree entered passed hmem hsubtree hinner ih =>
    exact .inr ⟨token, hmem, subtree, entered, passed, hsubtree, hinner, rfl, Nat.le_add_left ..⟩

-- No way down from a selector with so many combinators above it enters more than a number of subtrees
-- or has more combinators on it than there may be.
def Bounded (levels above : Nat) (tree : Selector) : Prop :=
  ∀ entered passed, Descent tree entered passed → entered ≤ levels ∧ above + passed ≤ maxChain

variable {argument : Nat → Text → Except Error Selector} {options : Options} {levels above : Nat}

-- The subtrees of what is built are arguments that were parsed below the combinators counted so far.
theorem exists_of_build_of_subtree (htokens : ∀ token ∈ tokens, token.Unparsed)
    (h : build argument options above tokens = .ok tree) {token : Token} (hmem : token ∈ tree.tokens)
    {subtree : Selector} (hsubtree : token.kind.subtree? = some subtree) :
    ∃ text, argument (above + longestChain options.list tokens) text = .ok subtree := by
  obtain ⟨-, bare, hbare, htree⟩ := build_eq_ok_iff.mp h
  have hunparsed : ∀ token ∈ bare.tokens, token.Unparsed := by
    intro token hmem
    obtain ⟨given, hgiven, hkind⟩ := exists_kind_of_assemble hbare hmem
    exact (htokens given hgiven).of_kind_eq hkind
  by_cases hrecursive : options.recursive = true
  · rw [if_pos hrecursive] at htree
    obtain ⟨before, hbefore, hattach⟩ := Tree.exists_of_forall₂ (Tree.mapM_eq_ok_iff.mp htree).tokens hmem
    rcases attach_cases hattach with ⟨_, _, _, _, _, text, selector, _, _, hparse, rfl⟩ | ⟨_, rfl⟩
    · obtain rfl := Option.some.inj hsubtree
      exact ⟨text, hparse⟩
    · rw [(hunparsed token hbefore).subtree?_eq_none] at hsubtree
      cases hsubtree
  · rw [if_neg hrecursive] at htree
    obtain rfl := Except.ok.inj htree
    rw [(hunparsed token hmem).subtree?_eq_none] at hsubtree
    cases hsubtree

theorem height_of_build (h : build argument options above tokens = .ok tree) :
    tree.height ≤ longestChain options.list tokens := by
  obtain ⟨-, bare, hbare, htree⟩ := build_eq_ok_iff.mp h
  by_cases hrecursive : options.recursive = true
  · rw [if_pos hrecursive] at htree
    rw [(Tree.mapM_eq_ok_iff.mp htree).height_eq]
    exact height_of_assemble hbare
  · rw [if_neg hrecursive] at htree
    obtain rfl := Except.ok.inj htree
    exact height_of_assemble hbare

-- One level more is built on arguments that are bounded below the combinators counted so far.
theorem bounded_of_build (htokens : ∀ token ∈ tokens, token.Unparsed)
    (hargument : ∀ chain text subtree, argument chain text = .ok subtree →
      0 < levels ∧ Bounded (levels - 1) chain subtree)
    (h : build argument options above tokens = .ok tree) : Bounded levels above tree := by
  have hchain := (build_eq_ok_iff.mp h).1
  have hheight := height_of_build h
  intro entered passed hdescent
  rcases hdescent.cases_top with ⟨rfl, hle⟩ | ⟨token, hmem, subtree, inner, below, hsubtree, hinner, rfl, hle⟩
  · exact ⟨Nat.zero_le levels, by omega⟩
  · obtain ⟨text, hparse⟩ := exists_of_build_of_subtree htokens h hmem hsubtree
    obtain ⟨hpos, hbounded⟩ := hargument _ _ _ hparse
    obtain ⟨hinnermost, hbelow⟩ := hbounded inner below hinner
    exact ⟨by omega, by omega⟩

theorem bounded_of_ofArgument {text : Text} (h : ofArgument levels above text = .ok tree) :
    0 < levels ∧ Bounded (levels - 1) above tree := by
  induction levels generalizing above text tree with
  | zero => cases h
  | succ levels ih =>
    obtain ⟨tokens, htokens, hbuild⟩ := bind_eq_ok.mp h
    exact ⟨Nat.succ_pos levels, bounded_of_build (unparsed_of_ofText htokens) (fun _ _ _ => ih) hbuild⟩

-- However a selector is parsed, no way down through its tree enters more than so many subtrees, or
-- passes more than so many complex nodes, those in all the subtrees it enters taken together.
theorem descent_le_of_ofText {text : Text} (h : ofText options text = .ok tree) {entered passed : Nat}
    (hdescent : Descent tree entered passed) : entered ≤ maxNesting ∧ passed ≤ maxChain := by
  obtain ⟨tokens, htokens, hbuild⟩ := bind_eq_ok.mp h
  have hbounded : Bounded maxNesting 0 tree :=
    bounded_of_build (unparsed_of_ofText htokens) (fun _ _ _ => bounded_of_ofArgument) hbuild
  rw [← Nat.zero_add passed]
  exact hbounded entered passed hdescent

-- A way into the list in an argument, with one combinator around the argument and one in it.
theorem descent_le_of_ofText_nested : ∃ tree, ofText {} "a>:is(b c,d)".toList = .ok tree ∧ Descent tree 1 2 ∧
    1 ≤ maxNesting ∧ 2 ≤ maxChain := by
  let letter (c : Char) (start : Nat) : Selector := .leaf ⟨.typeName none [c], [c], start, start + 1⟩
  let chain : Selector := .complex .descendant (letter 'b' 0) (letter 'c' 2)
  let inner : Selector := .list [chain, letter 'd' 4]
  let outer : Token := ⟨.pseudoClass "is".toList (some "b c,d".toList) none (some inner), ":is(b c,d)".toList, 2, 12⟩
  have htree : ofText {} "a>:is(b c,d)".toList = .ok (.complex .child (letter 'a' 0) (.leaf outer)) := rfl
  have hinner : Descent inner 0 1 := .list List.mem_cons_self (.left .descendant _ (.leaf _))
  have hdescent : Descent (.complex .child (letter 'a' 0) (.leaf outer)) 1 2 := .right .child _ (.leafSubtree rfl hinner)
  exact ⟨_, htree, hdescent, descent_le_of_ofText htree hdescent⟩

end Selector

end CssSelectors
