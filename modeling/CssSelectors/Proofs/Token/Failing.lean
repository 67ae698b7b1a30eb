import CssSelectors.Proofs.Token.Tokenizing

namespace CssSelectors

-- The error of a text whose parens are not balanced.
def Error.IsImbalance (error : Error) : Prop := ∃ side offset, error = .imbalance side offset

namespace Masked

theorem isImbalance_of_imbalanceFrom {offset : Nat} {parts : Hidden} {error : Error}
    (h : imbalanceFrom offset parts = some error) : error.IsImbalance := by
  induction parts generalizing offset with
  | nil => cases h
  | cons part parts ih =>
    cases part with
    | taken item text => exact ih h
    | loose c =>
      rw [imbalanceFrom] at h
      split at h
      · exact ⟨.unclosed, offset, (Option.some.inj h).symm⟩
      · split at h
        · exact ⟨.unopened, offset, (Option.some.inj h).symm⟩
        · exact ih h

-- There is no other reason why a text cannot be masked.
theorem isImbalance_of_ofText {text : Text} {error : Error} (h : ofText text = .error error) : error.IsImbalance := by
  unfold ofText at h
  dsimp only at h
  split at h
  case h_1 found hfound =>
    obtain rfl := Except.error.inj h
    exact isImbalance_of_imbalanceFrom hfound
  case h_2 => cases h

end Masked

namespace Token

variable {text : Text} {error : Error}

theorem place_cut_cons_eq_error {source : Text} {offset : Nat} {kind : Kind Selector} {content : Text}
    {more : List Fragment} : place source offset (.cut kind content :: more) = .error error ↔
    place source (offset + content.length) more = .error error := by
  rw [place, bind_eq_error]
  simp only [pure_ne_error, and_false, exists_false, or_false]

-- Fragments cannot be placed if one of them is uncut. The first such is shown as it is in the source,
-- at the offset where those before it end.
theorem place_eq_error_iff {source : Text} {offset : Nat} {fragments : List Fragment} :
    place source offset fragments = .error error ↔ ∃ words hidden more,
      fragments = words.map Word.fragment ++ .uncut hidden :: more ∧
        error = .leftover (source.slice (offset + (Word.textOf words).length)
          (offset + (Word.textOf words).length + hidden.length)) (offset + (Word.textOf words).length) := by
  induction fragments generalizing offset with
  | nil => simp [place]
  | cons fragment fragments ih =>
    cases fragment with
    | uncut u =>
      rw [place, throw_eq_error]
      constructor
      · rintro rfl
        exact ⟨[], u, fragments, rfl, rfl⟩
      · rintro ⟨words, hidden, more, hsplit, rfl⟩
        cases words with
        | nil =>
          obtain ⟨huncut, -⟩ := List.cons.inj hsplit
          obtain rfl := Fragment.uncut.inj huncut
          rfl
        | cons word words => cases (List.cons.inj hsplit).1
    | cut kind content =>
      rw [place_cut_cons_eq_error, ih]
      constructor
      · rintro ⟨words, hidden, more, rfl, rfl⟩
        refine ⟨⟨kind, content⟩ :: words, hidden, more, rfl, ?_⟩
        simp only [Word.textOf_cons, List.length_append, Nat.add_assoc]
      · rintro ⟨words, hidden, more, hsplit, rfl⟩
        cases words with
        | nil => cases (List.cons.inj hsplit).1
        | cons word words =>
          obtain ⟨hcut, rfl⟩ := List.cons.inj hsplit
          obtain ⟨rfl, rfl⟩ := Fragment.cut.inj hcut
          refine ⟨words, hidden, more, rfl, ?_⟩
          simp only [Word.textOf_cons, List.length_append, Nat.add_assoc]

theorem exists_leftover_of_place {source : Text} {offset : Nat} {fragments : List Fragment}
    (h : place source offset fragments = .error error) : ∃ left start, error = .leftover left start := by
  obtain ⟨words, hidden, more, -, rfl⟩ := place_eq_error_iff.mp h
  exact ⟨_, _, rfl⟩

theorem exists_malformed_of_uncover {masked : Masked} {token : Token} (h : uncover masked token = .error error) :
    ∃ tag content, error = .malformed tag content := by
  unfold uncover at h
  split at h
  · unfold reread at h
    split at h
    · cases h
    · exact ⟨_, _, (Except.error.inj h).symm⟩
  · cases h

-- A text has no tokens if it cannot be masked, if some of it is no token, or if a token makes no sense unmasked.
theorem error_cases_of_ofText (h : ofText text = .error error) : Masked.ofText text.trim = .error error ∨
    (∃ left start, error = .leftover left start) ∨ ∃ tag content, error = .malformed tag content := by
  rcases bind_eq_error.mp h with hmasked | ⟨masked, -, h⟩
  · exact .inl hmasked
  rcases bind_eq_error.mp h with hplace | ⟨placed, -, huncover⟩
  · exact .inr (.inl (exists_leftover_of_place hplace))
  · obtain ⟨token, -, htoken⟩ := exists_of_mapM_eq_error huncover
    exact .inr (.inr (exists_malformed_of_uncover htoken))

-- So where parens are out of balance, it is told of the text itself.
theorem ofText_eq_error_iff (himbalance : error.IsImbalance) :
    ofText text = .error error ↔ Masked.ofText text.trim = .error error := by
  refine ⟨fun h => ?_, fun h => bind_eq_error.mpr (.inl h)⟩
  obtain ⟨side, offset, rfl⟩ := himbalance
  rcases error_cases_of_ofText h with hmasked | ⟨left, start, hleftover⟩ | ⟨tag, content, hmalformed⟩
  · exact hmasked
  · cases hleftover
  · cases hmalformed

-- What is left over is what the fragments of the masked text leave over.
theorem exists_masked_of_leftover {left : Text} {offset : Nat} (h : ofText text = .error (.leftover left offset)) :
    ∃ masked, Masked.ofText text.trim = .ok masked ∧
      place text.trim 0 (Fragment.ofText masked.text) = .error (.leftover left offset) := by
  rcases bind_eq_error.mp h with hmasked | ⟨masked, hmasked, h⟩
  · obtain ⟨side, start, himbalance⟩ := Masked.isImbalance_of_ofText hmasked
    cases himbalance
  rcases bind_eq_error.mp h with hplace | ⟨placed, -, huncover⟩
  · exact ⟨masked, hmasked, hplace⟩
  · obtain ⟨token, -, htoken⟩ := exists_of_mapM_eq_error huncover
    obtain ⟨tag, content, hmalformed⟩ := exists_malformed_of_uncover htoken
    cases hmalformed

end Token

end CssSelectors
