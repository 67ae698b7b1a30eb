import CssSelectors.Proofs.Selector.Assembling
import CssSelectors.Proofs.Selector.Building
import CssSelectors.Proofs.Selector.Placing

namespace CssSelectors

open Token

namespace Token

theorem textOf_map_kept {tokens : List Token} (h : ∀ token ∈ tokens, token.isComma = true → token.content = [',']) :
    textOf (tokens.map kept) = textOf tokens := by
  induction tokens with
  | nil => rfl
  | cons token tokens ih =>
    obtain ⟨hcomma, htokens⟩ := List.forall_mem_cons.mp h
    have hcontent : token.kept.content = token.content := by
      obtain ⟨kind, content, start, stop⟩ := token
      cases kind with
      | comma => exact (hcomma rfl).symm
      | _ => rfl
    have htext := ih htokens
    unfold textOf at htext ⊢
    rw [List.map_cons, List.flatMap_cons, List.flatMap_cons, htext, hcontent]

-- The tokens of a text write their commas without blanks.
theorem content_of_isComma {text : Text} {tokens : List Token} (h : ofText text = .ok tokens) :
    ∀ token ∈ tokens, token.isComma = true → token.content = [','] := by
  obtain ⟨ps, hreading, htokens⟩ := ofText_eq_ok_iff.mp h
  have htiles := tiles_of_tokensFrom? [] hreading.linked hreading.found htokens
  exact fun token hmem => (htiles.2 token hmem).comma

end Token

namespace Selector

variable {tree : Selector} {tokens : List Token}

-- A tree is written as the tokens that make it up.
theorem text_of_assemble {list : Bool} (hcomma : ∀ token ∈ tokens, token.isComma = true → token.content = [','])
    (h : assemble list tokens = .ok tree) : tree.text = textOf tokens := by
  rw [← textOf_linear]
  rcases linear_of_assemble h with hlinear | hlinear
  · rw [hlinear, textOf_map_kept hcomma]
  · rw [hlinear]

theorem text_of_build {argument : Nat → Text → Except Error Selector} {options : Options} {above : Nat}
    (hcomma : ∀ token ∈ tokens, token.isComma = true → token.content = [','])
    (h : build argument options above tokens = .ok tree) : tree.text = textOf tokens := by
  obtain ⟨_, bare, hbare, htree⟩ := build_eq_ok_iff.mp h
  rw [← text_of_assemble hcomma hbare]
  split at htree
  · have hcontents := (Tree.mapM_eq_ok_iff.mp htree).imp fun token _ token' _ htoken => (content_of_attach htoken).symm
    exact hcontents.render_eq.symm
  · rw [Except.ok.inj htree]

-- A selector that is written out and parsed again is the same but for the places of its tokens.
-- With a line feed it may not be: two quotes on different lines hide nothing, but they do once
-- the line feed between them is written as a blank.
theorem ofText_text {options : Options} {text : Text}
    (hline : '\n' ∉ text ∨ '[' ∉ text ∧ '\x22' ∉ text ∧ '\x27' ∉ text) (h : ofText options text = .ok tree) :
    ∃ tree', ofText options tree.text = .ok tree' ∧ tree'.unplaced = tree.unplaced ∧
      Specificity.ofSelector tree' = Specificity.ofSelector tree ∧ tree'.text = tree.text := by
  have hsteady : Text.Steady text := by
    refine hline.imp id fun ⟨hbracket, hdouble, hsingle⟩ => ⟨hbracket, fun c hc => ?_⟩
    by_contra hquote
    rcases isQuote_iff.mp (eq_true_of_ne_false hquote) with rfl | rfl
    · exact hdouble hc
    · exact hsingle hc
  unfold ofText at h ⊢
  obtain ⟨tokens, htokens, hbuild⟩ := bind_eq_ok.mp h
  obtain ⟨tokens', htokens', hsame⟩ := exists_ofText_textOf hsteady htokens
  unfold ofTokens at hbuild ⊢
  have hplace := build_map_unplaced (ofArgument maxNesting) options 0 tokens
  have hplace' := build_map_unplaced (ofArgument maxNesting) options 0 tokens'
  rw [hsame, hplace, toOption_eq_some.mpr hbuild] at hplace'
  obtain ⟨tree', htree', hunplaced⟩ := Option.map_eq_some_iff.mp hplace'.symm
  refine ⟨tree', ?_, hunplaced, ?_, ?_⟩
  · rw [text_of_build (content_of_isComma htokens) hbuild, htokens']
    exact toOption_eq_some.mp htree'
  · rw [← ofSelector_unplaced, hunplaced, ofSelector_unplaced]
  · rw [← text_unplaced, hunplaced, text_unplaced]

-- Blanks around a combinator and a comma are lost, so later tokens move to the front.
theorem ofText_text_child :
    ∃ tree tree', ofText {} " #a  > .b , c".toList = .ok tree ∧ tree.text = "#a>.b,c".toList ∧
      ofText {} tree.text = .ok tree' ∧ tree'.unplaced = tree.unplaced ∧
      Specificity.ofSelector tree' = Specificity.ofSelector tree ∧ tree'.text = tree.text := by
  have htree : ofText {} " #a  > .b , c".toList = .ok (.list [
      .complex .child (.leaf ⟨.id "a".toList, "#a".toList, 0, 2⟩) (.leaf ⟨.className "b".toList, ".b".toList, 6, 8⟩),
      .leaf ⟨.typeName none "c".toList, "c".toList, 11, 12⟩]) := rfl
  obtain ⟨tree', hagain⟩ := ofText_text (.inl (by decide)) htree
  exact ⟨_, tree', htree, rfl, hagain⟩

end Selector

end CssSelectors
