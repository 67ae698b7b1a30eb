import CssSelectors.Proofs.Grammar.Brackets
import CssSelectors.Proofs.Token.Recapturing

namespace CssSelectors

open Pattern Grammar Masked

-- Where the rule of a token has found it, the masked text is that of its piece.
theorem Piece.exists_of_mem_tokens {text : Text} {masked : Masked} {tokens : List Token}
    (hmasked : Masked.ofText text.trim = .ok masked) (h : Token.ofText text = .ok tokens) {token : Token}
    (hmem : token ∈ tokens) : ∃ p : Piece, p.word.Found ∧ token.tag = p.tag ∧
      masked.text.slice token.start token.stop = p.layers.text ∧ token.stop - token.start = p.layers.text.length := by
  obtain ⟨ps, hreading, htokens⟩ := Token.ofText_eq_ok_iff.mp h
  obtain ⟨_, rfl⟩ := Masked.ofText_eq_ok_iff.mp hmasked
  obtain ⟨before, p, after, hsplit, hp, htoken⟩ := exists_split_of_mem [] htokens hmem
  rw [List.nil_append] at hsplit
  obtain ⟨htag, _, hstart, hstop⟩ := exists_of_token? htoken
  have hlength : p.layers.text.length = p.source.length := (hreading.linked p hp).length_text
  have hbefore : (joined before).source.length = (joined before).text.length :=
    (linked_joined fun q hq => hreading.linked q (by simp [hsplit, hq])).length_text.symm
  refine ⟨p, hreading.found p hp, htag, ?_, by omega⟩
  rw [hreading.layers_eq, hsplit, joined_append, joined, ← Layers.append_assoc, Layers.text_append, Layers.text_append, hstart,
    hstop, hbefore, ← hlength]
  exact Text.slice_middle _ _ _

namespace Token

-- In the masked text an attribute ends with its bracket, wherever its rule may have found it. Another bracket is in sight
-- only where the operator that was found is a bracket and an equals sign, and where the value that was found begins
-- with one.
theorem count_bracket_of_ofText {text : Text} {masked : Masked} {tokens : List Token}
    (hmasked : Masked.ofText text.trim = .ok masked) (h : ofText text = .ok tokens) : ∀ token ∈ tokens, token.tag = .attr →
      (∃ rest reached, Captures masked token rest reached) ∧ ∀ rest reached, Captures masked token rest reached →
        (masked.text.slice token.start token.stop).getLast? = some ']' ∧
        (masked.text.slice token.start token.stop).count ']' = 1 +
          (if (reached.span? .operator).map (·.of (masked.text.slice token.start token.stop)) = some [']', '='] then 1 else 0) +
          if ((reached.span? .value).map (·.of (masked.text.slice token.start token.stop))).bind List.head? = some ']'
            then 1 else 0 := by
  intro token hmem hattr
  obtain ⟨p, hfound, htag, hslice, hwidth⟩ := Piece.exists_of_mem_tokens hmasked h hmem
  constructor
  · obtain ⟨rest, _, hfront⟩ := hfound
    obtain ⟨reached, hreached, _, hoffset⟩ := Tag.front?_eq_some_iff.mp hfront
    refine ⟨rest, reached, ?_, by rw [hwidth]; exact hoffset⟩
    rw [hslice, htag]
    exact hreached
  · intro rest reached hcaptures
    have hreached := hcaptures.found
    rw [hslice, hattr] at hreached
    rw [hslice]
    exact count_bracket hfound.unescaped hreached (hcaptures.width.trans hwidth)

-- All three are in sight at once.
theorem count_bracket_of_ofText_three : ∃ token, ofText ['[', 'a', ']', '=', ']', ']'] = .ok [token] ∧ token.tag = .attr ∧
    (Text.slice ['[', 'a', ']', '=', ']', ']'] token.start token.stop).getLast? = some ']' ∧
    (Text.slice ['[', 'a', ']', '=', ']', ']'] token.start token.stop).count ']' = 3 := by
  let masked : Masked := ⟨['[', 'a', ']', '=', ']', ']'], []⟩
  let token : Token := ⟨.attr none ['a'] (some [']', '=']) (some [']']) none, ['[', 'a', ']', '=', ']', ']'], 0, 6⟩
  let reached : Cursor Field := ⟨6, [], [(.value, ⟨4, 5⟩), (.operator, ⟨2, 4⟩), (.name, ⟨1, 2⟩)]⟩
  have hmasked : Masked.ofText (Text.trim ['[', 'a', ']', '=', ']', ']']) = .ok masked := rfl
  have htokens : ofText ['[', 'a', ']', '=', ']', ']'] = .ok [token] := rfl
  have hcaptures : Captures masked token [] reached := ⟨rfl, rfl⟩
  obtain ⟨hlast, hcount⟩ := (count_bracket_of_ofText hmasked htokens token List.mem_cons_self rfl).2 [] reached hcaptures
  exact ⟨token, htokens, rfl, hlast, hcount⟩

-- A bracket may be taken for the sign of an operator, and then another one closes.
theorem not_count_bracket_of_ofText : ¬∀ text masked tokens, Masked.ofText text.trim = .ok masked →
    ofText text = .ok tokens → ∀ token ∈ tokens, token.tag = .attr → (masked.text.slice token.start token.stop).count ']' = 1 := by
  intro hall
  have htokens : ofText ['[', 'a', ']', '=', 'b', ']'] =
    .ok [⟨.attr none ['a'] (some [']', '=']) (some ['b']) none, ['[', 'a', ']', '=', 'b', ']'], 0, 6⟩] := rfl
  have hone := hall _ ⟨['[', 'a', ']', '=', 'b', ']'], []⟩ _ rfl htokens _ List.mem_cons_self rfl
  revert hone
  decide

end Token

end CssSelectors
