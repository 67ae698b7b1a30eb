import CssSelectors.Grammar.Basic
import CssSelectors.Pattern.Lemmas

namespace CssSelectors

open Pattern

-- A text without the sign of a kind has no token of that kind at its front.
theorem Grammar.front?_eq_none_of_sign {tag : Tag} {argument : Pattern Field} {text : Text}
    {sign : Char} (hsign : tag.sign? = some sign) (hnot : sign ∉ text) :
    (pattern argument tag).front? text = none := by
  rw [front?_eq_head?, List.head?_eq_none_iff, List.eq_nil_iff_forall_not_mem]
  intro reached h
  cases tag <;> simp only [Tag.sign?, Option.some.injEq, reduceCtorEq] at hsign
  case comma =>
    subst hsign
    obtain ⟨u, hu, _⟩ := List.mem_flatMap.mp h
    exact hnot (mem_rest_of_append_lit hu)
  case universal =>
    subst hsign
    exact hnot (mem_rest_of_append_lit h)

-- To look for the sign first makes no difference to what is found.
theorem Tag.front?_eq (tag : Tag) (text : Text) :
    tag.front? text = (do
      let reached ← (Grammar.pattern Grammar.coveredArgument tag).front? text
      let kind ← tag.kindAt? text reached
      return (kind, reached.offset)) := by
  unfold front?
  split
  case isTrue => rfl
  case isFalse h =>
    obtain ⟨sign, hsign, hnot⟩ : ∃ sign, tag.sign? = some sign ∧ sign ∉ text := by
      cases hsign : tag.sign? with
      | none => simp [hsign] at h
      | some sign => exact ⟨sign, rfl, by simpa [hsign] using h⟩
    rw [Grammar.front?_eq_none_of_sign hsign hnot]
    rfl

end CssSelectors
