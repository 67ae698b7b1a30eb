import CssSelectors.Proofs.Fragment.Spacing
import CssSelectors.Proofs.Token.Tiling

namespace CssSelectors

open Unicode Text

namespace Piece

variable {p : Piece} {ps : List Piece} {offset : Nat} {token : Token}

-- A token belongs to one of the pieces, and those around it to the pieces around that.
theorem exists_split_of_tokensFrom? {before after : List Token}
    (h : tokensFrom? offset ps = some (before ++ token :: after)) :
    ∃ us p vs start stop, ps = us ++ p :: vs ∧ tokensFrom? offset us = some before ∧ p.token? start = some token ∧
      tokensFrom? stop vs = some after := by
  induction before generalizing offset ps with
  | nil =>
    cases ps with
    | nil => simp [tokensFrom?] at h
    | cons p ps =>
      obtain ⟨first, more, hfirst, hmore, htokens⟩ := tokensFrom?_cons_eq_some.mp h
      obtain ⟨rfl, rfl⟩ := List.cons.inj htokens
      exact ⟨[], p, ps, offset, _, rfl, rfl, hfirst, hmore⟩
  | cons left before ih =>
    cases ps with
    | nil => simp [tokensFrom?] at h
    | cons q ps =>
      obtain ⟨first, more, hfirst, hmore, htokens⟩ := tokensFrom?_cons_eq_some.mp h
      obtain ⟨rfl, rfl⟩ := List.cons.inj htokens
      obtain ⟨us, p, vs, start, stop, rfl, hus, hp, hvs⟩ := ih hmore
      exact ⟨q :: us, p, vs, start, stop, rfl, tokensFrom?_cons_eq_some.mpr ⟨first, before, hfirst, hus, rfl⟩, hp, hvs⟩

theorem exists_last_of_tokensFrom? {before : List Token} (h : tokensFrom? offset (ps ++ [p]) = some before) :
    ∃ left start, before.getLast? = some left ∧ p.token? start = some left := by
  obtain ⟨before, last, -, hlast, rfl⟩ := tokensFrom?_append_eq_some.mp h
  obtain ⟨left, more, hleft, hmore, rfl⟩ := tokensFrom?_cons_eq_some.mp hlast
  obtain rfl : [] = more := by simpa [tokensFrom?] using hmore
  exact ⟨left, _, by simp, hleft⟩

-- A combinator shows a blank only if it comes from blanks.
theorem isGap_of_token? (hp : p.layers.Linked) (hfound : p.word.Found) (h : p.token? offset = some token)
    (htoken : token.isCombinator = true) (hcontent : token.content = [' ']) : p.word.IsGap ∧ p.source.IsBlank := by
  obtain ⟨htag, hbare, -, -⟩ := exists_of_token? h
  have hcombinator : p.tag = .combinator := by simpa [Token.isCombinator, htag] using htoken
  have hdelimits : p.tag.delimits = true := by rw [hcombinator]; rfl
  have hshape : Tag.combinator.Shape p.source := hcombinator ▸ shape_source hdelimits hp hfound
  rw [hcontent, content, Kind.eq_combinator hcombinator] at hbare
  have hblank : p.source.IsBlank := by
    rcases Token.bare_of_combinator hshape with ⟨hblank, -⟩ | ⟨_, c, _, _, hc, _, _, hsymbol⟩
    · exact hblank
    · obtain rfl : ' ' = c := List.singleton_injective (hbare.trans hsymbol)
      exact absurd hc (by decide)
  have hsame : p.word.text = p.source := (hp.bare (hfound.shape.inert hdelimits)).groups.1
  exact ⟨⟨hcombinator, by rwa [hsame]⟩, hblank⟩

theorem not_delimits_of_token? (h : p.token? offset = some token) (hdelimits : ¬p.word.tag.delimits = true) :
    token.isComma = false ∧ token.isCombinator = false := by
  obtain ⟨htag, -⟩ := exists_of_token? h
  have hnot := mt Tag.delimits_iff.mpr hdelimits
  simp only [Token.isComma, Token.isCombinator, htag, decide_eq_false_iff_not]
  exact ⟨fun hcomma => hnot (.inl hcomma), fun hcombinator => hnot (.inr hcombinator)⟩

-- The words of a selector's pieces do not clash.
theorem Reading.isChain {source : Text} (h : Reading source ps) : (ps.map word).IsChain fun u v => ¬Word.Clash u v :=
  Fragment.isChain_of_passes Tag.pairwise_all (Layers.unescaped_text_ofText source) h.fragments_eq

end Piece

namespace Token

-- A blank that stands for a descendant has tokens on both sides of it, and these are no delimiters.
theorem ofText_spaced {text : Text} {tokens before after : List Token} {token : Token} (h : ofText text = .ok tokens)
    (hsplit : tokens = before ++ token :: after) (htoken : token.isCombinator = true)
    (hcontent : token.content = [' ']) :
    (∃ left, before.getLast? = some left ∧ left.isComma = false ∧ left.isCombinator = false) ∧
      ∃ right, after.head? = some right ∧ right.isComma = false ∧ right.isCombinator = false := by
  obtain ⟨ps, hreading, htokens⟩ := ofText_eq_ok_iff.mp h
  subst hsplit
  obtain ⟨us, p, vs, start, stop, rfl, hus, hp, hvs⟩ := Piece.exists_split_of_tokensFrom? htokens
  have hmem : p ∈ us ++ p :: vs := List.mem_append_right us List.mem_cons_self
  obtain ⟨hgap, hblank⟩ := Piece.isGap_of_token? (hreading.linked p hmem) (hreading.found p hmem) hp htoken hcontent
  have hne : p.source ≠ [] := Piece.source_ne_nil (hreading.linked p hmem) (hreading.found p hmem)
  have htrimmed : Trimmed ((Piece.joined us).source ++ p.source ++ (Piece.joined vs).source) := by
    have hsource := hreading.source_joined
    simp only [Piece.joined_append, Piece.joined, Layers.source_append] at hsource
    rw [List.append_assoc]
    exact hsource ▸ trimmed_trim text
  obtain ⟨husNe, hvsNe⟩ := htrimmed.sides_ne_nil hne hblank
  have hchain := hreading.isChain
  rw [List.map_append, List.map_cons] at hchain
  constructor
  · obtain ⟨us, q, rfl⟩ := (List.eq_nil_or_concat us).resolve_left fun hnil => husNe (by rw [hnil]; rfl)
    rw [List.concat_eq_append] at hus hchain
    obtain ⟨left, start, hlast, hleft⟩ := Piece.exists_last_of_tokensFrom? hus
    rw [List.map_append, List.map_singleton, List.append_assoc, List.singleton_append,
      List.isChain_append_cons_cons] at hchain
    refine ⟨left, hlast, Piece.not_delimits_of_token? hleft fun hdelimits => ?_⟩
    exact hchain.2.1 (.inl ⟨hdelimits, hgap⟩)
  · obtain ⟨q, vs, rfl⟩ := List.exists_cons_of_ne_nil fun hnil : vs = [] => hvsNe (by rw [hnil]; rfl)
    obtain ⟨right, more, hright, -, rfl⟩ := Piece.tokensFrom?_cons_eq_some.mp hvs
    rw [List.map_cons, List.isChain_append_cons_cons] at hchain
    refine ⟨right, rfl, Piece.not_delimits_of_token? hright fun hdelimits => ?_⟩
    exact hchain.2.1 (.inr ⟨hgap, hdelimits⟩)

-- Blanks beyond ASCII around a comma and a symbol, and in a name before the blanks that count.
theorem ofText_spaced_wide : ∃ before token after,
    ofText "\t.a ,\u00a0 .b\u00a0 \n c\u2003>  d ".toList = .ok (before ++ token :: after) ∧
      before.length = 3 ∧ token.isCombinator = true ∧ token.content = [' '] ∧
      (∃ left, before.getLast? = some left ∧ left.isComma = false ∧ left.isCombinator = false) ∧
      ∃ right, after.head? = some right ∧ right.isComma = false ∧ right.isCombinator = false := by
  have htokens : ofText "\t.a ,\u00a0 .b\u00a0 \n c\u2003>  d ".toList = .ok
      ([⟨.className "a".toList, ".a".toList, 0, 2⟩, ⟨.comma, ",".toList, 2, 6⟩,
        ⟨.className "b\u00a0".toList, ".b\u00a0".toList, 6, 9⟩] ++ ⟨.combinator, " ".toList, 9, 12⟩ ::
        [⟨.typeName none "c".toList, "c".toList, 12, 13⟩, ⟨.combinator, ">".toList, 13, 17⟩,
          ⟨.typeName none "d".toList, "d".toList, 17, 18⟩]) := rfl
  exact ⟨_, _, _, htokens, rfl, rfl, rfl, ofText_spaced htokens rfl rfl rfl⟩

end Token

end CssSelectors
