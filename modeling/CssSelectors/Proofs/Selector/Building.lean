import CssSelectors.Proofs.Tree.Traversal
import CssSelectors.Selector.Reading

namespace CssSelectors.Selector

variable {argument argument' : Nat → Text → Except Error Selector} {parse parse' : Text → Except Error Selector}
variable {options : Options} {above above' : Nat} {tokens : List Token} {tree : Selector} {token token' : Token}

theorem build_eq_ok_iff : build argument options above tokens = .ok tree ↔
    above + longestChain options.list tokens ≤ maxChain ∧ ∃ bare, assemble options.list tokens = .ok bare ∧
      (if options.recursive = true then bare.mapM (attach (argument (above + longestChain options.list tokens)))
        else .ok bare) = .ok tree := by
  unfold build
  dsimp only
  by_cases hchain : above + longestChain options.list tokens > maxChain
  · have hlt : ¬above + longestChain options.list tokens ≤ maxChain := by omega
    simp only [hchain, hlt, if_true, false_and, bind_eq_ok, throw_ne_ok, exists_false]
  · have hle : above + longestChain options.list tokens ≤ maxChain := by omega
    simp only [hchain, hle, if_false, true_and, bind_eq_ok]
    rfl

-- The length of the chain is looked at first, then the order of the tokens, and then the arguments.
theorem build_eq_error_iff {error : Error} : build argument options above tokens = .error error ↔
    maxChain < above + longestChain options.list tokens ∧ error = .tooDeep maxChain ∨
      above + longestChain options.list tokens ≤ maxChain ∧ (assemble options.list tokens = .error error ∨
        ∃ bare, assemble options.list tokens = .ok bare ∧ options.recursive = true ∧
          bare.mapM (attach (argument (above + longestChain options.list tokens))) = .error error) := by
  unfold build
  dsimp only
  by_cases hchain : above + longestChain options.list tokens > maxChain
  · have hlt : ¬above + longestChain options.list tokens ≤ maxChain := by omega
    simp only [hchain, hlt, if_true, false_and, or_false, true_and, bind_eq_error, throw_eq_error, throw_ne_ok,
      exists_false]
    exact eq_comm
  · have hle : above + longestChain options.list tokens ≤ maxChain := by omega
    simp only [hchain, hle, if_false, false_and, false_or, true_and, bind_eq_error]
    refine or_congr_right (exists_congr fun bare => and_congr_right fun _ => ?_)
    cases options.recursive <;> simp

-- A token either gets the selector in its argument or stays as it is.
theorem attach_cases (h : attach parse token = .ok token') :
    (∃ name argument index subtree count text selector,
      token.kind = .pseudoClass name (some argument) index subtree ∧ selectorIn? name argument = some (count, text) ∧
        parse text = .ok selector ∧
        token' = { token with kind := .pseudoClass name (some argument) (count.or index) (some selector) }) ∨
      (∀ name argument index subtree, token.kind = .pseudoClass name (some argument) index subtree →
        selectorIn? name argument = none) ∧ token' = token := by
  unfold attach at h
  split at h
  case h_1 name argument index subtree hkind =>
    split at h
    case h_1 count text hfound =>
      obtain ⟨selector, hselector, htoken⟩ := bind_eq_ok.mp h
      exact .inl ⟨name, argument, index, subtree, count, text, selector, hkind, hfound, hselector,
        (pure_eq_ok.mp htoken).symm⟩
    case h_2 hfound =>
      refine .inr ⟨fun name' argument' index' subtree' heq => ?_, (pure_eq_ok.mp h).symm⟩
      obtain ⟨rfl, hargument, _, _⟩ := Kind.pseudoClass.inj (hkind.symm.trans heq)
      rw [← Option.some.inj hargument, hfound]
  case h_2 hkind =>
    exact .inr ⟨fun name argument index subtree heq => absurd heq (hkind name argument index subtree),
      (pure_eq_ok.mp h).symm⟩

theorem attach_eq_self (hnone : ∀ name argument index subtree,
    token.kind = .pseudoClass name (some argument) index subtree → selectorIn? name argument = none) :
    attach parse token = .ok token := by
  unfold attach
  split
  case h_1 name argument index subtree hkind => rw [hnone name argument index subtree hkind]; rfl
  case h_2 => rfl

theorem exists_of_attach_eq_error {error : Error} (h : attach parse token = .error error) :
    ∃ name argument index subtree count text, token.kind = .pseudoClass name (some argument) index subtree ∧
      selectorIn? name argument = some (count, text) ∧ parse text = .error error := by
  unfold attach at h
  split at h
  case h_1 name argument index subtree hkind =>
    split at h
    case h_1 count text hfound =>
      rcases bind_eq_error.mp h with hparse | ⟨tree, -, h⟩
      · exact ⟨name, argument, index, subtree, count, text, hkind, hfound, hparse⟩
      · simp at h
    case h_2 => simp at h
  case h_2 => simp at h

theorem content_of_attach (h : attach parse token = .ok token') : token'.content = token.content := by
  rcases attach_cases h with ⟨_, _, _, _, _, _, _, _, _, _, rfl⟩ | ⟨_, rfl⟩
  · rfl
  · rfl

-- It does so whatever parses its argument, as long as that comes to the same subtree.
theorem attach_congr (hparse : ∀ text subtree, token'.kind.subtree? = some subtree → parse text = .ok subtree →
    parse' text = .ok subtree) (h : attach parse token = .ok token') : attach parse' token = .ok token' := by
  rcases attach_cases h with ⟨name, argument, index, subtree, count, text, selector, hkind, hfound, hselector, rfl⟩ |
    ⟨hnone, rfl⟩
  · rw [attach, hkind]
    dsimp only
    rw [hfound]
    exact bind_eq_ok.mpr ⟨selector, hparse text selector rfl hselector, rfl⟩
  · exact attach_eq_self hnone

-- The number of combinators above a selector is only there to be too large.
theorem build_mono (habove : above' ≤ above)
    (hargument : ∀ chain chain' text tree, chain' ≤ chain → argument chain text = .ok tree →
      argument' chain' text = .ok tree)
    (h : build argument options above tokens = .ok tree) : build argument' options above' tokens = .ok tree := by
  obtain ⟨hchain, bare, hbare, htree⟩ := build_eq_ok_iff.mp h
  refine build_eq_ok_iff.mpr ⟨by omega, bare, hbare, ?_⟩
  by_cases hrecursive : options.recursive = true
  · rw [if_pos hrecursive] at htree ⊢
    have hattached := (Tree.mapM_eq_ok_iff.mp htree).imp fun token _ token' _ htoken =>
      attach_congr (fun text tree _ => hargument _ (above' + longestChain options.list tokens) text tree (by omega)) htoken
    exact Tree.mapM_eq_ok_iff.mpr hattached
  · rw [if_neg hrecursive] at htree ⊢
    exact htree

-- Neither is the number of pseudo-classes around it.
theorem ofArgument_mono {levels levels' : Nat} (hlevels : levels ≤ levels') (habove : above' ≤ above) {text : Text}
    (h : ofArgument levels above text = .ok tree) : ofArgument levels' above' text = .ok tree := by
  induction levels generalizing levels' above above' text tree with
  | zero => cases h
  | succ levels ih =>
    cases levels' with
    | zero => omega
    | succ levels' =>
      obtain ⟨tokens, htokens, hbuild⟩ := bind_eq_ok.mp h
      refine bind_eq_ok.mpr ⟨tokens, htokens, build_mono habove (fun chain chain' text tree hchain => ?_) hbuild⟩
      exact ih (by omega) hchain

end CssSelectors.Selector
