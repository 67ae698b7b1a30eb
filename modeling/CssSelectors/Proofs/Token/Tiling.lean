import CssSelectors.Proofs.Token.Tokenizing

namespace CssSelectors

open Text

theorem Tag.tag_of_read? {tag : Tag} {content : Text} {kind : Kind Selector} (h : tag.read? content = some kind) :
    kind.tag = tag := by
  unfold Tag.read? at h
  obtain ⟨reached, _, hkind⟩ := Option.bind_eq_some_iff.mp h
  exact Tag.tag_of_kind? hkind

namespace Piece

variable {p : Piece}

-- A delimiter stands in the source as it stands in the masked text.
theorem shape_source (hdelimits : p.tag.delimits = true) (hp : p.layers.Linked) (hfound : p.word.Found) :
    p.tag.Shape p.source := by
  have hshape : p.tag.Shape p.layers.text := hfound.shape
  have hbare := hp.bare (hshape.inert hdelimits)
  rwa [source, ← hbare.groups.1]

theorem exists_of_token? {offset : Nat} {token : Token} (h : p.token? offset = some token) :
    token.tag = p.tag ∧ token.content = p.content ∧ token.start = offset ∧ token.stop = offset + p.source.length := by
  obtain ⟨kind, hkind, rfl⟩ := Option.map_eq_some_iff.mp h
  exact ⟨Tag.tag_of_read? hkind, rfl, rfl, rfl⟩

theorem source_ne_nil (hp : p.layers.Linked) (hfound : p.word.Found) : p.source ≠ [] := by
  intro hnil
  have hlength := hp.length_text
  rw [← source, hnil] at hlength
  exact hfound.shape.ne_nil (List.length_eq_zero_iff.mp hlength)

end Piece

namespace Token

-- Tokens side by side from one offset to another, none of them without a place.
def Tiles : Nat → List Token → Nat → Prop
  | start, [], stop => start = stop
  | start, token :: more, stop => token.start = start ∧ start < token.stop ∧ Tiles token.stop more stop

-- How a token shows the stretch that it comes from: as it is in the source, unless it is a
-- delimiter, which shows its symbol alone.
structure Faithful (source : Text) (token : Token) : Prop where
  exact : token.isComma = false → token.isCombinator = false →
    token.content = source.slice token.start token.stop
  trimmed : token.isComma = true ∨ token.isCombinator = true → token.content =
    if (source.slice token.start token.stop).trim = [] then [' '] else (source.slice token.start token.stop).trim
  comma : token.isComma = true → token.content = [',']
  combinator : token.isCombinator = true → token.content ∈ [[' '], ['>'], ['+'], ['~']]

theorem faithful_of_token? {p : Piece} (hp : p.layers.Linked) (hfound : p.word.Found) {before : Text} {token : Token}
    (h : p.token? before.length = some token) (after : Text) : Faithful (before ++ p.source ++ after) token := by
  obtain ⟨htag, hcontent, hstart, hstop⟩ := Piece.exists_of_token? h
  have hslice : Text.slice (before ++ p.source ++ after) token.start token.stop = p.source := by
    rw [hstart, hstop, Text.slice_middle]
  have hcomma : token.isComma = true → p.tag = .comma := by simp [isComma, htag]
  have hcombinator : token.isCombinator = true → p.tag = .combinator := by simp [isCombinator, htag]
  have hdelimiter : p.tag.delimits = true → token.content = normalize.bare p.source := by
    intro hdelimits
    rw [hcontent, Piece.content]
    unfold Piece.tag at hdelimits
    cases hkind : p.kind <;> first | rfl | simp [hkind, Kind.tag, Tag.delimits] at hdelimits
  constructor
  · intro hnot hnot'
    have hdelimits : p.tag.delimits = false := by
      simp only [isComma, isCombinator, htag, decide_eq_false_iff_not] at hnot hnot'
      revert hnot hnot'
      cases p.tag <;> decide
    rw [hslice, hcontent, Piece.content_eq_source hdelimits]
  · intro hor
    have hdelimits : p.tag.delimits = true := by
      rcases hor with h | h
      · rw [hcomma h]; rfl
      · rw [hcombinator h]; rfl
    rw [hslice, hdelimiter hdelimits]
    simp [normalize.bare]
  · intro h
    have hdelimits : p.tag.delimits = true := by rw [hcomma h]; rfl
    rw [hdelimiter hdelimits]
    exact bare_of_comma (hcomma h ▸ p.shape_source hdelimits hp hfound)
  · intro h
    have hdelimits : p.tag.delimits = true := by rw [hcombinator h]; rfl
    obtain ⟨combinator, hbare⟩ := exists_symbol_of_combinator (hcombinator h ▸ p.shape_source hdelimits hp hfound)
    rw [hdelimiter hdelimits, hbare]
    cases combinator <;> decide

theorem tiles_of_tokensFrom? (done : List Piece) {ps : List Piece} (hlinked : ∀ p ∈ ps, p.layers.Linked)
    (hfound : ∀ p ∈ ps, p.word.Found) {tokens : List Token}
    (h : Piece.tokensFrom? (Piece.joined done).source.length ps = some tokens) :
    Tiles (Piece.joined done).source.length tokens (Piece.joined (done ++ ps)).source.length ∧
      ∀ token ∈ tokens, Faithful (Piece.joined (done ++ ps)).source token := by
  induction ps generalizing done tokens with
  | nil =>
    obtain rfl : [] = tokens := by simpa [Piece.tokensFrom?] using h
    simp [Tiles]
  | cons p ps ih =>
    obtain ⟨hp, hps⟩ := List.forall_mem_cons.mp hlinked
    obtain ⟨hpfound, hpsfound⟩ := List.forall_mem_cons.mp hfound
    obtain ⟨token, more, htoken, hmore, rfl⟩ := Piece.tokensFrom?_cons_eq_some.mp h
    have hnext : (Piece.joined done).source.length + p.source.length = (Piece.joined (done ++ [p])).source.length := by
      simp [Piece.joined, Piece.source]
    rw [hnext] at hmore
    obtain ⟨htiles, hfaithful⟩ := ih (done ++ [p]) hps hpsfound hmore
    rw [List.append_assoc, List.singleton_append] at htiles hfaithful
    obtain ⟨_, _, hstart, hstop⟩ := Piece.exists_of_token? htoken
    have hpos := List.length_pos_iff.mpr (Piece.source_ne_nil hp hpfound)
    refine ⟨⟨hstart, by omega, ?_⟩, List.forall_mem_cons.mpr ⟨?_, hfaithful⟩⟩
    · rw [hstop, hnext]
      exact htiles
    · have hsource : (Piece.joined (done ++ p :: ps)).source =
          (Piece.joined done).source ++ p.source ++ (Piece.joined ps).source := by
        simp [Piece.joined, Piece.source]
      rw [hsource]
      exact faithful_of_token? hp hpfound htoken _

-- The tokens of a selector tile it from end to end, and each of them shows the stretch of the
-- source that it covers. Nothing that was hidden is lost or left covered.
theorem tiles_of_ofText {text : Text} {tokens : List Token} (h : ofText text = .ok tokens) :
    Tiles 0 tokens text.trim.length ∧ ∀ token ∈ tokens, Faithful text.trim token := by
  obtain ⟨ps, hreading, htokens⟩ := ofText_eq_ok_iff.mp h
  have hsource : (Piece.joined ps).source = text.trim := by
    rw [← hreading.layers_eq, Layers.source_ofText]
  have htiles := tiles_of_tokensFrom? [] hreading.linked hreading.found htokens
  rwa [List.nil_append, hsource] at htiles

-- An escape, a paren in a string in an argument, and blanks around a combinator.
theorem tiles_of_ofText_child :
    ∃ tokens, ofText " #a\\: > :is(\x22)\x22) ".toList = .ok tokens ∧
      Tiles 0 tokens (Text.trim " #a\\: > :is(\x22)\x22) ".toList).length ∧
      ∀ token ∈ tokens, Faithful (Text.trim " #a\\: > :is(\x22)\x22) ".toList) token := by
  have htokens : ofText " #a\\: > :is(\x22)\x22) ".toList = .ok
      [⟨.id "a\\:".toList, "#a\\:".toList, 0, 4⟩, ⟨.combinator, ">".toList, 4, 7⟩,
        ⟨.pseudoClass "is".toList (some "\x22)\x22".toList) none none, ":is(\x22)\x22)".toList, 7, 15⟩] := rfl
  exact ⟨_, htokens, tiles_of_ofText htokens⟩

end Token

end CssSelectors
