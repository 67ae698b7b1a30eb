import CssSelectors.Proofs.Grammar.Counts
import CssSelectors.Proofs.Selector.Enrichment
import CssSelectors.Proofs.Selector.Nesting
import CssSelectors.Proofs.Token.Inside

namespace CssSelectors

open Unicode Grammar Text

-- The names that stand for a selector class are plain words.
theorem isNameChar_of_mem_selectorClasses {name : Text} (h : name ∈ selectorClasses) :
    name ≠ [] ∧ ∀ c ∈ name, isNameChar c = true ∧ isBlank c = false := by
  have hall : ∀ name ∈ selectorClasses, name ≠ [] ∧ name.all fun c => isNameChar c && !isBlank c := by decide
  simpa using hall name h

-- A count hides nothing, and neither does the word after it.
theorem Grammar.IsCount.idle {index : Text} (h : IsCount index) : Text.Idle (index ++ " of ".toList) :=
  (idle_of_matches_count h.matches).append (by simp [Idle, Plain, isQuote])

-- Blanks around a text do not change its tokens.
theorem Token.ofText_congr_trim {text text' : Text} (h : text.trim = Text.trim text') : ofText text = ofText text' := by
  rw [ofText, ofText, h]

namespace Selector

variable {name argument text : Text} {index count : Option Text} {tree : Selector}

theorem ofArgument_congr_trim {levels above : Nat} {text text' : Text} (h : text.trim = Text.trim text') :
    ofArgument levels above text = ofArgument levels above text' := by
  cases levels with
  | zero => rfl
  | succ levels => rw [ofArgument, ofArgument, Token.ofText_congr_trim h]

-- A pseudo-class with an argument, as it is written,
def written (name argument : Text) : Text := ':' :: name ++ '(' :: argument ++ [')']

-- and by itself as a selector, with its argument parsed.
def wrapped (name argument : Text) (index : Option Text) (tree : Selector) : Selector :=
  .leaf ⟨.pseudoClass name (some argument) index (some tree), written name argument, 0, (written name argument).length⟩

theorem ofSelector_wrapped : Specificity.ofSelector (wrapped name argument index tree) =
    Specificity.ofPseudoClass name (some (Specificity.ofSelector tree)) := by
  rw [wrapped, Specificity.ofSelector, Specificity.ofToken, Specificity.ofKind, Specificity.ofSubtree]

-- A selector has a token.
theorem trim_ne_nil (h : ofText {} text = .ok tree) : text.trim ≠ [] := by
  intro hnil
  have hempty : ofArgument (maxNesting + 1) 0 text = ofArgument (maxNesting + 1) 0 [] := ofArgument_congr_trim hnil
  have herror : ofArgument (maxNesting + 1) 0 [] = .error .emptyGroup := rfl
  cases (h.symm.trans hempty).trans herror

-- A pseudo-class that is a selector by itself is parsed with its argument.
theorem ofText_of_selectorIn? {selector : Text} (htokens : Token.ofText (written name argument) =
      .ok [⟨.pseudoClass name (some argument) none none, written name argument, 0, (written name argument).length⟩])
    (hfound : selectorIn? name argument = some (count, selector)) (hparse : ofArgument maxNesting 0 selector = .ok tree) :
    ofText {} (written name argument) = .ok (wrapped name argument count tree) := by
  refine bind_eq_ok.mpr ⟨_, htokens, build_eq_ok_iff.mpr ⟨Nat.zero_le maxChain, _, rfl, ?_⟩⟩
  rw [if_pos rfl, Tree.mapM]
  refine bind_eq_ok.mpr ⟨_, ?_, rfl⟩
  rw [attach]
  dsimp only
  rw [hfound]
  refine bind_eq_ok.mpr ⟨tree, hparse, ?_⟩
  rw [Option.or_none]
  rfl

-- To put a selector into a pseudo-class is to put its tree into the subtree of that.
theorem ofText_written (h : ofText {} text = .ok tree) (hnesting : nesting tree < maxNesting) :
    (∀ name ∈ selectorClasses, name ∉ countingClasses →
      ofText {} (written name text) = .ok (wrapped name text none tree) ∧
      Specificity.ofSelector (wrapped name text none tree) =
        if name = "where".toList then 0 else Specificity.ofSelector tree) ∧
    ∀ name ∈ countingClasses, ∀ index, IsCount index →
      ofText {} (written name (index ++ " of ".toList ++ text)) =
        .ok (wrapped name (index ++ " of ".toList ++ text) (some index) tree) ∧
      Specificity.ofSelector (wrapped name (index ++ " of ".toList ++ text) (some index) tree) =
        Specificity.ofSelector tree + ⟨0, 1, 0⟩ := by
  obtain ⟨tokens, htokens, _⟩ := bind_eq_ok.mp h
  have htrim := trim_ne_nil h
  have hargument : ofArgument maxNesting 0 text = .ok tree :=
    ofArgument_of_nesting (show ofArgument (maxNesting + 1) 0 text = .ok tree from h) hnesting
  constructor
  · intro name hname hcounting
    obtain ⟨hne, hchars⟩ := isNameChar_of_mem_selectorClasses hname
    constructor
    · have hidle : Text.Idle [] := by simp [Idle, Plain]
      have hwritten := Token.ofText_pseudoClass hne hchars hidle htokens (by rintro rfl; exact htrim rfl)
      refine ofText_of_selectorIn? hwritten ?_ hargument
      rw [selectorIn?_of_not_counting hcounting, if_pos hname]
    · rw [ofSelector_wrapped]
      simp [Specificity.ofPseudoClass, takesCount, takesSelector, hcounting, hname]
  · intro name hname index hindex
    obtain ⟨hne, hchars⟩ := isNameChar_of_mem_selectorClasses (mem_selectorClasses hname)
    constructor
    · have hwritten := Token.ofText_pseudoClass hne hchars hindex.idle htokens (by simp)
      obtain ⟨selector, hsplit, hselector⟩ := splitCount?_of_count hindex htrim
      refine ofText_of_selectorIn? hwritten ?_ ((ofArgument_congr_trim hselector).trans hargument)
      rw [selectorIn?_of_counting hname, hsplit]
      rfl
    · have hwhere : name ≠ "where".toList := by
        rintro rfl
        revert hname
        decide
      rw [ofSelector_wrapped, Specificity.ofPseudoClass, if_neg hwhere]
      simp [takesCount, hname]

-- A list with blanks around it, after a count.
theorem ofText_written_count : ∃ tree, ofText {} " a, .b ".toList = .ok tree ∧ nesting tree < maxNesting ∧
    "nth-child".toList ∈ countingClasses ∧ IsCount "-2n + 1".toList ∧
    ofText {} ":nth-child(-2n + 1 of  a, .b )".toList =
      .ok (wrapped "nth-child".toList "-2n + 1 of  a, .b ".toList (some "-2n + 1".toList) tree) := by
  have htree : ofText {} " a, .b ".toList = .ok
      (.list [.leaf ⟨.typeName none ['a'], ['a'], 0, 1⟩, .leaf ⟨.className ['b'], ".b".toList, 3, 5⟩]) := rfl
  have hnesting : nesting (.list [.leaf ⟨.typeName none ['a'], ['a'], 0, 1⟩,
      .leaf ⟨.className ['b'], ".b".toList, 3, 5⟩]) < maxNesting := by decide
  have hname : "nth-child".toList ∈ countingClasses := by decide
  have hindex : IsCount "-2n + 1".toList := by
    have hdigits : isDigit '2' = true ∧ isDigit '1' = true ∧ isBlank ' ' = true ∧ isBlank '-' = false := by decide
    simp [IsCount, hdigits]
  exact ⟨_, htree, hnesting, hname, hindex, ((ofText_written htree hnesting).2 _ hname _ hindex).1⟩

end Selector

end CssSelectors
