import CssSelectors.Proofs.Grammar.Names
import CssSelectors.Proofs.Text.Trimming

namespace CssSelectors

open Unicode Pattern Grammar

def Text.IsRun (text : Text) : Prop := ∀ c ∈ text, isNameChar c = true

open Text

namespace Grammar

-- What may stand before a name: nothing, or a namespace with its bar.
def IsNs (text : Text) : Prop := text = [] ∨ ∃ ns, (ns = ['*'] ∨ IsRun ns) ∧ text = ns ++ ['|']

-- What may stand after the name of a pseudo-class: nothing, or parens around a hidden argument.
def IsGroup (text : Text) : Prop :=
  text = [] ∨ ∃ body, body ≠ [] ∧ (∀ c ∈ body, c = Cover.group.char) ∧ text = '(' :: body ++ [')']

def isSymbol (c : Char) : Bool := c ∈ ['>', '+', '~']

theorem isSymbol_iff {c : Char} : isSymbol c = true ↔ c = '>' ∨ c = '+' ∨ c = '~' := by
  simp [isSymbol]

end Grammar

namespace Tag

-- How the text of a token looks while its hidden parts are covered. Of an attribute only the
-- brackets matter here.
def Shape : Tag → Text → Prop
  | attr, text => ∃ inner, text = '[' :: inner ++ [']']
  | id, text => ∃ run, run ≠ [] ∧ IsRun run ∧ text = '#' :: run
  | className, text => ∃ run, run ≠ [] ∧ IsRun run ∧ text = '.' :: run
  | comma, text => ∃ before after, IsBlank before ∧ IsBlank after ∧ text = before ++ ',' :: after
  | combinator, text => ∃ before c after,
    IsBlank before ∧ (isBlank c || isSymbol c) = true ∧ IsBlank after ∧ text = before ++ c :: after
  | pseudoElement, text => ∃ run group, run ≠ [] ∧ IsRun run ∧ IsGroup group ∧ text = ':' :: ':' :: run ++ group
  | pseudoClass, text => ∃ run group, run ≠ [] ∧ IsRun run ∧ IsGroup group ∧ text = ':' :: run ++ group
  | universal, text => ∃ ns, IsNs ns ∧ text = ns ++ ['*']
  | typeName, text => ∃ ns run, IsNs ns ∧ run ≠ [] ∧ IsRun run ∧ text = ns ++ run

end Tag

namespace Grammar

theorem matches_blanks {text : Text} : blanks.Matches text ↔ IsBlank text := matches_many_char

theorem matches_nsBar {text : Text} (h : text.Unescaped) : nsBar.Matches text ↔ IsNs text := by
  rw [nsBar, matches_perhaps, matches_append, or_comm]
  apply or_congr_right
  constructor
  · rintro ⟨ns, bar, rfl, hns, hbar⟩
    obtain rfl := matches_lit.mp hbar
    refine ⟨ns, ?_, rfl⟩
    rcases hns with hstar | hrun
    · exact .inl (matches_lit.mp hstar)
    · exact .inr ((matches_many_nameUnit h.of_append_left).mp hrun)
  · rintro ⟨ns, hns, rfl⟩
    refine ⟨ns, ['|'], rfl, ?_, matches_lit.mpr rfl⟩
    rcases hns with rfl | hrun
    · exact .inl (matches_lit.mpr rfl)
    · exact .inr ((matches_many_nameUnit h.of_append_left).mpr hrun)

theorem matches_parens {text : Text} : (parens coveredArgument).Matches text ↔ IsGroup text := by
  rw [parens, matches_perhaps, or_comm]
  apply or_congr_right
  constructor
  · rintro ⟨_, _, rfl, ⟨_, body, rfl, hopening, hbody⟩, hclosing⟩
    obtain rfl := matches_lit.mp hopening
    obtain rfl := matches_lit.mp hclosing
    obtain ⟨hne, hall⟩ := matches_oneOrMore_char.mp hbody
    exact ⟨body, hne, by simpa using hall, rfl⟩
  · rintro ⟨body, hne, hall, rfl⟩
    refine ⟨'(' :: body, [')'], rfl, ⟨['('], body, rfl, matches_lit.mpr rfl, ?_⟩, matches_lit.mpr rfl⟩
    exact matches_oneOrMore_char.mpr ⟨hne, by simpa using hall⟩

-- The text of a token has the shape of its kind.
theorem shape_of_matches {tag : Tag} {text : Text} (h : text.Unescaped)
    (hmatches : (pattern coveredArgument tag).Matches text) : tag.Shape text := by
  cases tag with
  | attr =>
    obtain ⟨front, closing, rfl, hfront, hclosing⟩ := hmatches
    obtain rfl := matches_lit.mp hclosing
    obtain ⟨_, compared, rfl, ⟨_, gap, rfl, ⟨_, named, rfl, ⟨_, ns, rfl, ⟨_, lead, rfl, hopening, _⟩, _⟩, _⟩, _⟩, _⟩ :=
      hfront
    obtain rfl := matches_lit.mp hopening
    exact ⟨lead ++ ns ++ named ++ gap ++ compared, by simp⟩
  | id =>
    obtain ⟨_, run, rfl, hsign, hrun⟩ := hmatches
    obtain rfl := matches_lit.mp hsign
    obtain ⟨hne, hall⟩ := (matches_name h.of_append_right).mp hrun
    exact ⟨run, hne, hall, rfl⟩
  | className =>
    obtain ⟨_, run, rfl, hsign, hrun⟩ := hmatches
    obtain rfl := matches_lit.mp hsign
    obtain ⟨hne, hall⟩ := (matches_name h.of_append_right).mp hrun
    exact ⟨run, hne, hall, rfl⟩
  | comma =>
    obtain ⟨_, after, rfl, ⟨before, _, rfl, hbefore, hsign⟩, hafter⟩ := hmatches
    obtain rfl := matches_lit.mp hsign
    exact ⟨before, after, matches_blanks.mp hbefore, matches_blanks.mp hafter, by simp⟩
  | combinator =>
    obtain ⟨_, after, rfl, ⟨before, _, rfl, hbefore, c, hc, rfl⟩, hafter⟩ := hmatches
    exact ⟨before, c, after, matches_blanks.mp hbefore, hc, matches_blanks.mp hafter, by simp⟩
  | pseudoElement =>
    obtain ⟨_, group, rfl, ⟨_, run, rfl, ⟨_, _, rfl, hfirst, hsecond⟩, hrun⟩, hgroup⟩ := hmatches
    obtain rfl := matches_lit.mp hfirst
    obtain rfl := matches_lit.mp hsecond
    obtain ⟨hne, hall⟩ := (matches_name h.of_append_left.of_append_right).mp hrun
    exact ⟨run, group, hne, hall, matches_parens.mp hgroup, rfl⟩
  | pseudoClass =>
    obtain ⟨_, group, rfl, ⟨_, run, rfl, hsign, hrun⟩, hgroup⟩ := hmatches
    obtain rfl := matches_lit.mp hsign
    obtain ⟨hne, hall⟩ := (matches_name h.of_append_left.of_append_right).mp hrun
    exact ⟨run, group, hne, hall, matches_parens.mp hgroup, rfl⟩
  | universal =>
    obtain ⟨ns, _, rfl, hns, hstar⟩ := hmatches
    obtain rfl := matches_lit.mp hstar
    exact ⟨ns, (matches_nsBar h.of_append_left).mp hns, rfl⟩
  | typeName =>
    obtain ⟨ns, run, rfl, hns, hrun⟩ := hmatches
    obtain ⟨hne, hall⟩ := (matches_name h.of_append_right).mp hrun
    exact ⟨ns, run, (matches_nsBar h.of_append_left).mp hns, hne, hall, rfl⟩

-- Of the kinds other than attributes the shape is all there is.
theorem matches_of_shape {tag : Tag} {text : Text} (h : text.Unescaped) (hattr : tag ≠ .attr)
    (hshape : tag.Shape text) : (pattern coveredArgument tag).Matches text := by
  cases tag with
  | attr => exact absurd rfl hattr
  | id =>
    obtain ⟨run, hne, hall, rfl⟩ := hshape
    exact ⟨['#'], run, rfl, matches_lit.mpr rfl, (matches_name h.of_cons).mpr ⟨hne, hall⟩⟩
  | className =>
    obtain ⟨run, hne, hall, rfl⟩ := hshape
    exact ⟨['.'], run, rfl, matches_lit.mpr rfl, (matches_name h.of_cons).mpr ⟨hne, hall⟩⟩
  | comma =>
    obtain ⟨before, after, hbefore, hafter, rfl⟩ := hshape
    exact ⟨before ++ [','], after, by simp, ⟨before, [','], rfl, matches_blanks.mpr hbefore, matches_lit.mpr rfl⟩,
      matches_blanks.mpr hafter⟩
  | combinator =>
    obtain ⟨before, c, after, hbefore, hc, hafter, rfl⟩ := hshape
    exact ⟨before ++ [c], after, by simp, ⟨before, [c], rfl, matches_blanks.mpr hbefore, c, hc, rfl⟩,
      matches_blanks.mpr hafter⟩
  | pseudoElement =>
    obtain ⟨run, group, hne, hall, hgroup, rfl⟩ := hshape
    exact ⟨':' :: ':' :: run, group, rfl, ⟨[':', ':'], run, rfl, ⟨[':'], [':'], rfl, matches_lit.mpr rfl,
      matches_lit.mpr rfl⟩, (matches_name h.of_append_left.of_cons.of_cons).mpr ⟨hne, hall⟩⟩,
      matches_parens.mpr hgroup⟩
  | pseudoClass =>
    obtain ⟨run, group, hne, hall, hgroup, rfl⟩ := hshape
    exact ⟨':' :: run, group, rfl, ⟨[':'], run, rfl, matches_lit.mpr rfl,
      (matches_name h.of_append_left.of_cons).mpr ⟨hne, hall⟩⟩, matches_parens.mpr hgroup⟩
  | universal =>
    obtain ⟨ns, hns, rfl⟩ := hshape
    exact ⟨ns, ['*'], rfl, (matches_nsBar h.of_append_left).mpr hns, matches_lit.mpr rfl⟩
  | typeName =>
    obtain ⟨ns, run, hns, hne, hall, rfl⟩ := hshape
    exact ⟨ns, run, rfl, (matches_nsBar h.of_append_left).mpr hns,
      (matches_name h.of_append_right).mpr ⟨hne, hall⟩⟩

end Grammar

end CssSelectors
