import CssSelectors.Proofs.Grammar.Ends
import CssSelectors.Proofs.Masking.Restoring
import CssSelectors.Token.Reading

namespace CssSelectors

open Unicode Grammar Text

-- The kinds of tokens whose content is not just a piece of the source.
def Tag.delimits : Tag → Bool
  | comma => true
  | combinator => true
  | _ => false

theorem Tag.delimits_iff {tag : Tag} : tag.delimits = true ↔ tag = .comma ∨ tag = .combinator := by
  cases tag <;> decide

namespace Token

theorem normalize_of_not_delimits {kind : Kind Selector} (h : kind.tag.delimits = false) (content : Text) :
    normalize kind content = content := by
  cases kind <;> first | rfl | simp [Kind.tag, Tag.delimits] at h

theorem bare_eq_of_blank {content : Text} (h : content.IsBlank) : normalize.bare content = [' '] := by
  simp [normalize.bare, trim_eq_nil h]

theorem bare_eq_of_symbol {before after : Text} {c : Char} (hbefore : before.IsBlank) (hc : isBlank c = false)
    (hafter : after.IsBlank) : normalize.bare (before ++ c :: after) = [c] := by
  simp [normalize.bare, trim_blanks_append hbefore hc hafter]

theorem isBlank_of_isSymbol {c : Char} (h : isSymbol c = true) : isBlank c = false := by
  rcases isSymbol_iff.mp h with rfl | rfl | rfl <;> decide

-- A comma is left alone, and so is the symbol of a combinator. A combinator without one is a blank.
theorem bare_of_comma {text : Text} (h : Tag.comma.Shape text) : normalize.bare text = [','] := by
  obtain ⟨before, after, hbefore, hafter, rfl⟩ := h
  exact bare_eq_of_symbol hbefore (by decide) hafter

theorem bare_of_combinator {text : Text} (h : Tag.combinator.Shape text) :
    text.IsBlank ∧ normalize.bare text = [' '] ∨
      ∃ before c after, IsBlank before ∧ isSymbol c = true ∧ IsBlank after ∧ text = before ++ c :: after ∧
        normalize.bare text = [c] := by
  obtain ⟨before, c, after, hbefore, hc, hafter, rfl⟩ := h
  by_cases hblank : isBlank c = true
  · have hall : IsBlank (before ++ c :: after) := by
      simp only [IsBlank, List.forall_mem_append, List.forall_mem_cons]
      exact ⟨hbefore, hblank, hafter⟩
    exact .inl ⟨hall, bare_eq_of_blank hall⟩
  · have hsymbol : isSymbol c = true := by simpa [hblank] using hc
    exact .inr ⟨before, c, after, hbefore, hsymbol, hafter, rfl,
      bare_eq_of_symbol hbefore (isBlank_of_isSymbol hsymbol) hafter⟩

theorem exists_symbol_of_combinator {text : Text} (h : Tag.combinator.Shape text) :
    ∃ combinator : Combinator, normalize.bare text = combinator.text := by
  rcases bare_of_combinator h with ⟨_, hbare⟩ | ⟨_, c, _, _, hc, _, _, hbare⟩
  · exact ⟨.descendant, hbare⟩
  · rcases isSymbol_iff.mp hc with rfl | rfl | rfl
    · exact ⟨.child, hbare⟩
    · exact ⟨.nextSibling, hbare⟩
    · exact ⟨.subsequentSibling, hbare⟩

-- A delimiter reads the same from its bare content.
theorem read?_bare {kind : Kind Selector} {text : Text} (hdelimits : kind.tag.delimits = true)
    (h : kind.tag.Shape text) : kind.tag.read? (normalize kind text) = some kind := by
  cases kind with
  | comma =>
    have hbare : normalize .comma text = [','] := bare_of_comma h
    rw [hbare]
    rfl
  | combinator =>
    obtain ⟨combinator, hbare⟩ := exists_symbol_of_combinator h
    have hbare : normalize .combinator text = combinator.text := hbare
    rw [hbare]
    cases combinator <;> rfl
  | _ => simp [Kind.tag, Tag.delimits] at hdelimits

end Token

-- Nothing is hidden in the text of a delimiter.
theorem Tag.Shape.inert {tag : Tag} {text : Text} (h : tag.Shape text) (hdelimits : tag.delimits = true) :
    Layers.Inert text := by
  intro c hc
  have hattr : tag ≠ .attr := by
    rintro rfl
    simp [Tag.delimits] at hdelimits
  have hholds := h.holds hattr c hc
  refine ⟨?_, ?_, ?_⟩
  · by_contra hcover
    rcases isCover_iff.mp (eq_true_of_ne_false hcover) with rfl | rfl | rfl <;> revert hdelimits hholds <;>
      cases tag <;> decide
  · by_contra hquote
    rcases isQuote_iff.mp (eq_true_of_ne_false hquote) with rfl | rfl <;> revert hdelimits hholds <;>
      cases tag <;> decide
  · rintro rfl
    revert hdelimits hholds
    cases tag <;> decide

end CssSelectors
