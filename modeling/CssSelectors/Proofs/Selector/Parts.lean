import CssSelectors.Proofs.Selector.Erasure
import CssSelectors.Proofs.Selector.Faults
import CssSelectors.Proofs.Selector.Rendering
import CssSelectors.Proofs.Tree.Parts
import CssSelectors.Proofs.Tree.Places

namespace CssSelectors

open Token

namespace Token

-- The token that a part of a tree is written as.
def ofPart : Part Token → Token
  | .held token => token
  | .joint combinator => ofCombinator combinator
  | .separator => separator

-- What becomes of a token of a text: a tree holds it, though something may be added to it, or it stands between
-- two sides or two alternatives and is not held.
inductive Becomes (token : Token) : Part Token → Prop
  | held {held : Token} (hnot : token.isCombinator = false) (herased : held.erased = token) : Becomes token (.held held)
  | joint {combinator : Combinator} (hcombinator : token.isCombinator = true) (hcontent : token.content = combinator.text) :
    Becomes token (.joint combinator)
  | separator (hcomma : token.isComma = true) : Becomes token .separator

variable {token held : Token} {tokens : List Token} {parts : List (Part Token)}

@[simp] theorem erased_erased (token : Token) : token.erased.erased = token.erased := by
  obtain ⟨kind, content, start, stop⟩ := token
  cases kind <;> rfl

@[simp] theorem delimits_erased (token : Token) : token.erased.delimits = token.delimits := by
  rw [delimits, delimits, isComma, isComma, isCombinator, isCombinator, tag_erased]

theorem becomes_map_erased {part : Part Token} (h : Becomes token (part.map erased)) : Becomes token part := by
  cases part with
  | held held =>
    obtain ⟨hnot, herased⟩ := h
    exact .held hnot (by rw [← herased, erased_erased])
  | joint combinator =>
    obtain ⟨⟩ | ⟨hcombinator, hcontent⟩ := h
    exact .joint hcombinator hcontent
  | separator =>
    obtain ⟨⟩ | ⟨⟩ | hcomma := h
    exact .separator hcomma

-- Where no delimiters are held, those that are not are all.
theorem erased_filterMap_held? (h : List.Forall₂ Becomes tokens parts)
    (hheld : ∀ held, .held held ∈ parts → held.delimits = false) :
    (parts.filterMap Part.held?).map erased = tokens.filter fun token => !token.delimits := by
  induction h with
  | nil => rfl
  | @cons token part tokens parts hbecomes _ ih =>
    have hmore := ih fun held hmem => hheld held (List.mem_cons_of_mem part hmem)
    cases hbecomes with
    | @held held hnot herased =>
      have hdelimits : token.delimits = false := by
        rw [← herased, delimits_erased]
        exact hheld held List.mem_cons_self
      simp [hdelimits, hmore, herased]
    | joint hcombinator _ =>
      have hdelimits : token.delimits = true := by simp [delimits, hcombinator]
      simp [List.filterMap_cons, hdelimits, hmore]
    | separator hcomma =>
      have hdelimits : token.delimits = true := by simp [delimits, hcomma]
      simp [List.filterMap_cons, hdelimits, hmore]

end Token

namespace Selector

mutual

theorem linear_eq_map_ofPart (tree : Selector) : linear tree = tree.parts.map ofPart := by
  cases tree with
  | leaf token => rw [linear, Tree.parts]; rfl
  | compound tokens => simp [linear, Tree.parts, ofPart, Function.comp_def]
  | complex combinator left right =>
    rw [linear, Tree.parts, List.map_append, linear_eq_map_ofPart left, linear_eq_map_ofPart right]
    rfl
  | list alternatives => rw [linear, Tree.parts, linearAll_eq_map_ofPart alternatives]

theorem linearAll_eq_map_ofPart (trees : List Selector) : linearAll trees = (Tree.partsAll trees).map ofPart := by
  cases trees with
  | nil => rw [linearAll]; rfl
  | cons tree more =>
    have htree := linear_eq_map_ofPart tree
    have hmore := linearAll_eq_map_ofPart more
    cases more with
    | nil => rw [linearAll, Tree.partsAll, htree]
    | cons next more =>
      rw [linearAll_cons_cons, Tree.partsAll_cons_cons, List.map_append, htree, hmore]
      rfl

end

variable {tree : Selector} {tokens left right : List Token} {token : Token} {text : Text} {list : Bool}

theorem Block.delimits_of_mem_tokens (h : Block tree) : ∀ token ∈ tree.tokens, token.delimits = false := by
  cases h with
  | leaf htoken => exact List.forall_mem_singleton.mpr htoken
  | compound _ htokens => exact htokens

theorem Chained.delimits_of_mem_tokens (h : Chained tree) : ∀ token ∈ tree.tokens, token.delimits = false := by
  induction h with
  | block htree => exact htree.delimits_of_mem_tokens
  | complex combinator _ hright ih => exact List.forall_mem_append.mpr ⟨ih, hright.delimits_of_mem_tokens⟩

theorem delimits_of_mem_tokensAll {trees : List Selector} (h : ∀ tree ∈ trees, Chained tree) :
    ∀ token ∈ Tree.tokensAll trees, token.delimits = false := by
  induction trees with
  | nil => exact fun _ hmem => absurd hmem List.not_mem_nil
  | cons tree trees ih =>
    obtain ⟨htree, hmore⟩ := List.forall_mem_cons.mp h
    exact List.forall_mem_append.mpr ⟨htree.delimits_of_mem_tokens, ih hmore⟩

-- The tokens that a tree holds delimit nothing, unless it is a single run.
theorem WellShaped.delimits_of_mem_tokens (h : WellShaped tree) : ∀ token ∈ tree.tokens, token.delimits = false := by
  cases h with
  | single hchained => exact hchained.delimits_of_mem_tokens
  | list _ hall => exact delimits_of_mem_tokensAll hall

theorem parts_of_ofRun (h : ofRun tokens = .ok tree) : tree.parts = tokens.map .held := by
  match tokens with
  | [] => simp [ofRun] at h
  | [token] =>
    obtain rfl := pure_eq_ok.mp h
    rfl
  | token :: next :: more =>
    obtain rfl := pure_eq_ok.mp h
    rw [Tree.parts]

theorem becomes_of_ofList (hunparsed : ∀ token ∈ tokens, token.Unparsed) (h : ofList tokens = .ok tree) :
    List.Forall₂ Becomes tokens tree.parts := by
  obtain ⟨hshape, hkept⟩ := wellShaped_of_ofList h
  have hparts : List.Forall₂ (fun token part => token.kept = ofPart part) tokens tree.parts := by
    have hsame : List.Forall₂ Eq (tokens.map kept) (tree.parts.map ofPart) := by
      rw [List.forall₂_eq_eq_eq, hkept, linear_eq_map_ofPart]
    rwa [List.forall₂_map_left_iff, List.forall₂_map_right_iff] at hsame
  refine Tree.forall₂_imp (fun token htoken part hpart hsame => ?_) hparts
  cases part with
  | held held =>
    have hdelimits : token.delimits = false := by
      rw [← delimits_kept, hsame]
      exact hshape.delimits_of_mem_tokens held (Tree.mem_tokens_iff.mpr hpart)
    obtain rfl : token = held := (kept_eq_self hdelimits).symm.trans hsame
    exact .held (isCombinator_eq_false hdelimits) (hunparsed token htoken).erased_eq
  | joint combinator =>
    obtain ⟨hcombinator, hcontent⟩ := kept_eq_ofCombinator_iff.mp hsame
    exact .joint hcombinator hcontent
  | separator => exact .separator (kept_eq_separator_iff.mp hsame)

-- One after the other the tokens become the parts of the tree.
theorem becomes_of_assemble (hunparsed : ∀ token ∈ tokens, token.Unparsed) (h : assemble list tokens = .ok tree) :
    List.Forall₂ Becomes tokens tree.parts := by
  cases list with
  | true => exact becomes_of_ofList hunparsed h
  | false =>
    rcases exists_last_cut isCombinator tokens with hnone | ⟨left, token, right, rfl, htoken, hright⟩
    · rw [assemble_of_uncombined hnone] at h
      rw [parts_of_ofRun h, List.forall₂_map_right_iff, List.forall₂_same]
      exact fun token hmem => .held (hnone token hmem) (hunparsed token hmem).erased_eq
    · obtain ⟨combinator, leftTree, rightTree, hcontent, hleft, hrightTree, rfl⟩ :=
        (assemble_combined_eq_ok_iff htoken hright).mp h
      obtain ⟨hbefore, hafter⟩ := List.forall_mem_append.mp hunparsed
      obtain ⟨-, hafter⟩ := List.forall_mem_cons.mp hafter
      exact List.rel_append (becomes_of_ofList hbefore hleft)
        (.cons (.joint htoken hcontent) (becomes_of_ofList hafter hrightTree))

variable {options : Options}

-- Under all options a selector is what is put together of the tokens of its text, up to what is added to these.
theorem exists_assemble_of_ofText (h : ofText options text = .ok tree) :
    ∃ tokens, Token.ofText text = .ok tokens ∧ assemble options.list tokens = .ok (tree.map erased) := by
  obtain ⟨recursive, list⟩ := options
  cases recursive with
  | true =>
    obtain ⟨tokens, htokens, -, hbare⟩ := ofText_flat_eq_ok_iff.mp (ofText_erased h)
    exact ⟨tokens, htokens, hbare⟩
  | false =>
    obtain ⟨tokens, htokens, -, hbare⟩ := ofText_flat_eq_ok_iff.mp h
    refine ⟨tokens, htokens, ?_⟩
    rwa [Tree.map_eq_self fun token hmem => (unparsed_of_assemble htokens hbare token hmem).erased_eq]

-- Under all options each token of a text is one part of the tree, in the same order, and the text of the tree is
-- theirs. What the tree holds is flattened once and next to the node that holds it.
theorem ofText_accounts (h : ofText options text = .ok tree) : ∃ tokens, Token.ofText text = .ok tokens ∧
    tree.text = textOf tokens ∧ List.Forall₂ Becomes tokens tree.parts ∧
    tree.tokens = tree.parts.filterMap Part.held? ∧ tree.flatten.map Prod.fst = tree.tokens ∧
    ∃ places, Tree.Located none tree places := by
  obtain ⟨tokens, htokens, hassemble⟩ := exists_assemble_of_ofText h
  obtain ⟨tokens', htokens', hbuild⟩ := bind_eq_ok.mp h
  obtain rfl := Except.ok.inj (htokens.symm.trans htokens')
  have hbecomes := becomes_of_assemble (unparsed_of_ofText htokens) hassemble
  rw [Tree.parts_map, List.forall₂_map_right_iff] at hbecomes
  exact ⟨tokens, htokens, text_of_build (content_of_isComma htokens) hbuild,
    hbecomes.imp fun _ _ => becomes_map_erased, Tree.tokens_eq_filterMap tree, Tree.map_fst_flattenUnder none tree,
    Tree.exists_located none tree⟩

-- The first comma separates two alternatives, and the second one is only in an argument.
theorem ofText_accounts_mixed : ∃ tree tokens, ofText { list := false } "a,b:is(c,d) e".toList = .ok tree ∧
    Token.ofText "a,b:is(c,d) e".toList = .ok tokens ∧ tree.text = textOf tokens ∧
    List.Forall₂ Becomes tokens tree.parts ∧ tree.parts[1]? = some .separator ∧
    tree.parts[4]? = some (.joint .descendant) ∧ tree.tokens.length = 4 ∧ ∃ places, Tree.Located none tree places := by
  have hparsed : ∃ tree, ofText { list := false } "a,b:is(c,d) e".toList = .ok tree ∧
      tree.parts[1]? = some .separator ∧ tree.parts[4]? = some (.joint .descendant) ∧ tree.tokens.length = 4 :=
    ⟨_, rfl, rfl, rfl, rfl⟩
  obtain ⟨tree, h, hcomma, hjoint, hlength⟩ := hparsed
  obtain ⟨tokens, htokens, htext, hbecomes, -, -, hplaces⟩ := ofText_accounts h
  exact ⟨tree, tokens, h, htokens, htext, hbecomes, hcomma, hjoint, hlength, hplaces⟩

end Selector

end CssSelectors
