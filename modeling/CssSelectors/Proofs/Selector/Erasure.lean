import CssSelectors.Proofs.Selector.Enrichment

namespace CssSelectors

open Token

namespace Token

-- A token without what parsing adds to it.
def erased (token : Token) : Token :=
  match token.kind with
  | .pseudoClass name argument _ _ => { token with kind := .pseudoClass name argument none none }
  | _ => token

variable {token : Token}

theorem Unparsed.erased_eq (h : token.Unparsed) : token.erased = token := by
  obtain ⟨kind, content, start, stop⟩ := token
  cases kind with
  | pseudoClass name argument index subtree =>
    obtain ⟨rfl, rfl⟩ := h name argument index subtree rfl
    rfl
  | _ => rfl

@[simp] theorem tag_erased (token : Token) : token.erased.tag = token.tag := by
  obtain ⟨kind, content, start, stop⟩ := token
  cases kind <;> rfl

end Token

namespace Selector

variable {parse : Text → Except Error Selector} {token token' : Token} {tree bare : Selector} {text : Text}
variable {tokens : List Token} {list : Bool}

-- To parse an argument is to add to its token.
theorem erased_of_attach (hunparsed : token.Unparsed) (h : attach parse token = .ok token') : token'.erased = token := by
  rcases attach_cases h with ⟨name, argument, index, subtree, count, text, selector, hkind, -, -, rfl⟩ | ⟨-, rfl⟩
  · rw [← hunparsed.erased_eq, erased, erased, hkind]
  · exact hunparsed.erased_eq

theorem unparsed_of_assemble (htokens : Token.ofText text = .ok tokens) (h : assemble list tokens = .ok tree) :
    ∀ token ∈ tree.tokens, token.Unparsed := by
  intro token hmem
  obtain ⟨given, hgiven, hkind⟩ := exists_kind_of_assemble h hmem
  exact (unparsed_of_ofText htokens given hgiven).of_kind_eq hkind

-- A flat selector is what is put together of the tokens of its text,
theorem ofText_flat_eq_ok_iff : ofText { recursive := false, list } text = .ok tree ↔ ∃ tokens,
    Token.ofText text = .ok tokens ∧ longestChain list tokens ≤ maxChain ∧ assemble list tokens = .ok tree := by
  rw [ofText, bind_eq_ok]
  refine exists_congr fun tokens => and_congr_right fun _ => ?_
  rw [ofTokens, build_eq_ok_iff, Nat.zero_add]
  simp

-- and the other one that with the arguments parsed from left to right.
theorem ofText_recursive_eq (htokens : Token.ofText text = .ok tokens)
    (h : ofText { recursive := false, list } text = .ok bare) :
    ofText { recursive := true, list } text = bare.mapM (attach (ofArgument maxNesting (longestChain list tokens))) := by
  obtain ⟨tokens', htokens', hchain, hbare⟩ := ofText_flat_eq_ok_iff.mp h
  obtain rfl := Except.ok.inj (htokens.symm.trans htokens')
  have hnot : ¬longestChain list tokens > maxChain := by omega
  rw [ofText, htokens]
  simp only [ofTokens, build, bind, Except.bind, Nat.zero_add, hnot, if_false, hbare, if_true, pure, Except.pure]

-- So it is the flat one but for what is added to its tokens.
theorem ofText_erased (h : ofText { recursive := true, list } text = .ok tree) :
    ofText { recursive := false, list } text = .ok (tree.map erased) := by
  obtain ⟨tokens, htokens, hbuild⟩ := bind_eq_ok.mp h
  obtain ⟨hchain, bare, hbare, hmapM⟩ := build_eq_ok_iff.mp hbuild
  rw [Nat.zero_add] at hchain
  have herased := (Tree.mapM_eq_ok_iff.mp hmapM).imp fun token hmem token' _ htoken =>
    (erased_of_attach (unparsed_of_assemble htokens hbare token hmem) htoken).symm
  exact ofText_flat_eq_ok_iff.mpr ⟨tokens, htokens, hchain, herased.eq_map ▸ hbare⟩

-- What is wrong with the flat selector is wrong with the other one, too, and only then the first of its tokens that
-- has something wrong in its argument.
theorem ofText_flat (list : Bool) (text : Text) :
    (∀ error, ofText { recursive := false, list } text = .error error →
      ofText { recursive := true, list } text = .error error) ∧
    (∀ tree, ofText { recursive := true, list } text = .ok tree →
      ofText { recursive := false, list } text = .ok (tree.map erased)) ∧
    ∀ flat error, ofText { recursive := false, list } text = .ok flat →
      ofText { recursive := true, list } text = .error error →
        ∃ tokens, Token.ofText text = .ok tokens ∧ ∃ before token after, flat.tokens = before ++ token :: after ∧
          (∀ other ∈ before, ∃ enriched,
            attach (ofArgument maxNesting (longestChain list tokens)) other = .ok enriched) ∧
          attach (ofArgument maxNesting (longestChain list tokens)) token = .error error := by
  refine ⟨fun error h => ?_, fun tree h => ofText_erased h, fun flat error hflat h => ?_⟩
  · rcases bind_eq_error.mp h with htokens | ⟨tokens, htokens, hbuild⟩
    · exact bind_eq_error.mpr (.inl htokens)
    · refine bind_eq_error.mpr (.inr ⟨tokens, htokens, build_eq_error_iff.mpr ?_⟩)
      refine (build_eq_error_iff.mp hbuild).imp_right (And.imp_right fun hlate => hlate.imp_right ?_)
      rintro ⟨bare, -, hrecursive, -⟩
      cases hrecursive
  · obtain ⟨tokens, htokens, -, -⟩ := ofText_flat_eq_ok_iff.mp hflat
    rw [ofText_recursive_eq htokens hflat] at h
    exact ⟨tokens, htokens, Tree.mapM_eq_error_iff.mp h⟩

-- The second argument is the first that is not a selector, and a flat selector does not mind.
theorem ofText_flat_nested :
    (∃ tree, ofText {} "a:is(b)".toList = .ok tree ∧ ofText .flat "a:is(b)".toList = .ok (tree.map erased)) ∧
    ofText .flat ",a".toList = .error (.misplacedComma 0) ∧ ofText {} ",a".toList = .error (.misplacedComma 0) ∧
    ∃ flat, ofText .flat ":is(a):not(,):is(b,)".toList = .ok flat ∧ ∃ tokens before token after,
      flat.tokens = before ++ token :: after ∧
      attach (ofArgument maxNesting (longestChain true tokens)) token = .error (.misplacedComma 0) := by
  have hparsed : ∃ tree, ofText {} "a:is(b)".toList = .ok tree := ⟨_, rfl⟩
  have hflat : ∃ flat, ofText .flat ":is(a):not(,):is(b,)".toList = .ok flat := ⟨_, rfl⟩
  have herror : ofText {} ":is(a):not(,):is(b,)".toList = .error (.misplacedComma 0) := rfl
  obtain ⟨tree, htree⟩ := hparsed
  obtain ⟨flat, hflat⟩ := hflat
  obtain ⟨tokens, -, before, token, after, hsplit, -, htoken⟩ := (ofText_flat true _).2.2 flat _ hflat herror
  exact ⟨⟨tree, htree, (ofText_flat true _).2.1 tree htree⟩, rfl, (ofText_flat true ",a".toList).1 _ rfl, flat, hflat,
    tokens, before, token, after, hsplit, htoken⟩

end Selector

end CssSelectors
