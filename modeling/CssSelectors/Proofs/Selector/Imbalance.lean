import CssSelectors.Proofs.Selector.Faults
import CssSelectors.Proofs.Token.Failing
import CssSelectors.Proofs.Token.Inside
import Mathlib.Logic.Relation

namespace CssSelectors

open Token

namespace Selector

variable {tokens : List Token} {error : Error}

-- Neither does anything that is wrong with the order of tokens.
theorem Fault.not_isImbalance (h : Fault tokens error) : ¬error.IsImbalance := by
  rintro ⟨side, offset, rfl⟩
  cases h

-- The text that is parsed for a pseudo-class of a selector.
def Holds (outer inner : Text) : Prop := ∃ tokens, Token.ofText outer = .ok tokens ∧
  ∃ token ∈ tokens, ∃ name argument index subtree count,
    token.kind = .pseudoClass name (some argument) index subtree ∧ selectorIn? name argument = some (count, inner)

variable {argument : Nat → Text → Except Error Selector} {options : Options} {above : Nat} {outer : Text}

-- What goes wrong in an argument goes wrong in what the selector holds.
theorem error_cases_of_build (htokens : Token.ofText outer = .ok tokens)
    (h : build argument options above tokens = .error error) :
    error = .tooDeep maxChain ∨ assemble options.list tokens = .error error ∨ options.recursive = true ∧ ∃ inner,
      Holds outer inner ∧ argument (above + longestChain options.list tokens) inner = .error error := by
  refine (exists_of_build_eq_error h).imp_right fun hlate => hlate.imp_right fun ⟨hrecursive, hargument⟩ => ?_
  obtain ⟨token, hmem, name, written, index, subtree, count, inner, hkind, hfound, hinner⟩ := hargument
  exact ⟨hrecursive, inner, ⟨tokens, htokens, token, hmem, name, written, index, subtree, count, hkind, hfound⟩, hinner⟩

-- What is built of the tokens of a text is out of balance only if some argument is.
theorem exists_holds_of_build (htokens : Token.ofText outer = .ok tokens) (himbalance : error.IsImbalance)
    (h : build argument options above tokens = .error error) :
    ∃ chain inner, Holds outer inner ∧ argument chain inner = .error error := by
  rcases error_cases_of_build htokens h with rfl | hassemble | ⟨-, inner, hinner, hargument⟩
  · obtain ⟨side, offset, hside⟩ := himbalance
    cases hside
  · exact absurd himbalance (fault_of_assemble hassemble).not_isImbalance
  · exact ⟨_, inner, hinner, hargument⟩

theorem Holds.maskable {inner : Text} (h : Holds outer inner) : Text.Maskable inner.trim := by
  obtain ⟨tokens, htokens, token, hmem, name, written, index, subtree, count, hkind, hfound⟩ := h
  exact maskable_of_ofText htokens hmem hkind hfound

-- If nothing is out of balance in an argument itself, then nothing is in the arguments in it.
theorem ofArgument_ne_error {levels : Nat} {text : Text} (htext : Text.Maskable text.trim)
    (himbalance : error.IsImbalance) : ofArgument levels above text ≠ .error error := by
  induction levels generalizing above text with
  | zero =>
    intro h
    obtain rfl := throw_eq_error.mp h
    simp [Error.IsImbalance] at himbalance
  | succ levels ih =>
    intro h
    rw [ofArgument, bind_eq_error] at h
    rcases h with htokens | ⟨tokens, htokens, hbuild⟩
    · obtain ⟨masked, hmasked⟩ := Text.maskable_iff.mp htext
      rw [ofText_eq_error_iff himbalance, hmasked] at htokens
      cases htokens
    · obtain ⟨chain, inner, hinner, hargument⟩ := exists_holds_of_build htokens himbalance hbuild
      exact ih hinner.maskable hargument

-- Parens are found out of balance in the text itself, before it is cut into tokens, or not at all:
-- what is parsed for its pseudo-classes, at whatever depth, can always be masked by itself.
theorem ofText_eq_imbalance_iff :
    (∀ (options : Options) (text : Text) (error : Error), Masked.ofText text.trim = .error error ↔
      ofText options text = .error error ∧ ∃ side offset, error = .imbalance side offset) ∧
    ∀ text inner, Relation.TransGen Holds text inner → (∃ masked, Masked.ofText inner.trim = .ok masked) ∧
      ∀ levels above side offset, ofArgument levels above inner ≠ .error (.imbalance side offset) := by
  constructor
  · intro options text error
    constructor
    · intro h
      have himbalance := Masked.isImbalance_of_ofText h
      exact ⟨bind_eq_error.mpr (.inl ((ofText_eq_error_iff himbalance).mpr h)), himbalance⟩
    · rintro ⟨h, himbalance⟩
      rcases bind_eq_error.mp h with htokens | ⟨tokens, htokens, hbuild⟩
      · exact (ofText_eq_error_iff himbalance).mp htokens
      · obtain ⟨chain, inner, hinner, hargument⟩ := exists_holds_of_build htokens himbalance hbuild
        exact absurd hargument (ofArgument_ne_error hinner.maskable himbalance)
  · intro text inner h
    obtain ⟨outer, -, houter⟩ := Relation.TransGen.tail'_iff.mp h
    exact ⟨Text.maskable_iff.mp houter.maskable, fun levels above side offset =>
      ofArgument_ne_error houter.maskable ⟨side, offset, rfl⟩⟩

-- The blank at the end of the inner argument is escaped until it is trimmed away.
theorem ofText_eq_imbalance_iff_trimmed : ∃ inner, Relation.TransGen Holds ":is(a,:not(b\\ ))".toList inner ∧
    Text.trim inner = "b\\".toList ∧ (∃ masked, Masked.ofText (Text.trim inner) = .ok masked) ∧
    (∀ levels above side offset, ofArgument levels above inner ≠ .error (.imbalance side offset)) ∧
    ofText {} ":is(a\\)".toList = .error (.imbalance .unclosed 3) := by
  have houter : Holds ":is(a,:not(b\\ ))".toList "a,:not(b\\ )".toList :=
    ⟨_, rfl, _, List.mem_cons_self, "is".toList, _, none, none, none, rfl, rfl⟩
  have hinner : Holds "a,:not(b\\ )".toList "b\\ ".toList :=
    ⟨_, rfl, _, List.mem_cons_of_mem _ (List.mem_cons_of_mem _ List.mem_cons_self), "not".toList, _, none, none, none, rfl,
      rfl⟩
  have hnested : Relation.TransGen Holds ":is(a,:not(b\\ ))".toList "b\\ ".toList := .head houter (.single hinner)
  have hmasked : Masked.ofText (Text.trim ":is(a\\)".toList) = .error (.imbalance .unclosed 3) := rfl
  obtain ⟨hinnermost, hnever⟩ := ofText_eq_imbalance_iff.2 _ _ hnested
  exact ⟨_, hnested, rfl, hinnermost, hnever, ((ofText_eq_imbalance_iff.1 {} _ _).mp hmasked).1⟩

end Selector

end CssSelectors
