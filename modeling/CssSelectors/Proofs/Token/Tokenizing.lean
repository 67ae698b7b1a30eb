import CssSelectors.Proofs.Outcome
import CssSelectors.Proofs.Token.Pieces

namespace CssSelectors

open Masked Text

theorem Piece.exists_of_mem_tokensFrom? {offset : Nat} {ps : List Piece} {tokens : List Token}
    (h : tokensFrom? offset ps = some tokens) {token : Token} (hmem : token ∈ tokens) :
    ∃ p ∈ ps, ∃ start, p.token? start = some token := by
  induction ps generalizing offset tokens with
  | nil =>
    obtain rfl : [] = tokens := by simpa [tokensFrom?] using h
    simp at hmem
  | cons p ps ih =>
    obtain ⟨first, tokens, hfirst, hmore, rfl⟩ := tokensFrom?_cons_eq_some.mp h
    rcases List.mem_cons.mp hmem with rfl | hmem
    · exact ⟨p, List.mem_cons_self, offset, hfirst⟩
    · obtain ⟨q, hq, start, htoken⟩ := ih hmore hmem
      exact ⟨q, List.mem_cons_of_mem p hq, start, htoken⟩

namespace Token

-- The tokens of pieces before anything is put back.
def placedFrom : Nat → List Piece → List Token
  | _, [] => []
  | offset, p :: ps => p.placed offset :: placedFrom (offset + p.layers.text.length) ps

theorem place_eq_ok (source : Text) (offset : Nat) (ps : List Piece) :
    place source offset ((ps.map Piece.word).map Word.fragment) = .ok (placedFrom offset ps) := by
  induction ps generalizing offset with
  | nil => rfl
  | cons p ps ih =>
    rw [List.map_cons, List.map_cons, Word.fragment, place]
    simp only [Piece.word, ih]
    rfl

-- Only a text that is cut throughout has tokens.
theorem exists_words_of_place {source : Text} {offset : Nat} {fragments : List Fragment} {tokens : List Token}
    (h : place source offset fragments = .ok tokens) : ∃ words : List Word, fragments = words.map Word.fragment := by
  induction fragments generalizing offset tokens with
  | nil => exact ⟨[], rfl⟩
  | cons fragment fragments ih =>
    cases fragment with
    | uncut text => cases h
    | cut kind content =>
      rw [place] at h
      cases hmore : place source (offset + content.length) fragments with
      | error error =>
        rw [hmore] at h
        cases h
      | ok tokens =>
        obtain ⟨words, rfl⟩ := ih hmore
        exact ⟨⟨kind, content⟩ :: words, rfl⟩

theorem reread_eq_ok {token token' : Token} : reread token = .ok token' ↔
    ∃ kind, token.tag.read? token.content = some kind ∧ { token with kind } = token' := by
  unfold reread
  cases token.tag.read? token.content with
  | none => simp
  | some kind => simp

-- A token with its hidden parts put back is the token of its piece.
theorem uncover_placed {a c : Layers} {p : Piece} (h : (a ++ p.layers ++ c).Linked) (ha : a.Linked)
    (hp : p.layers.Linked) (hfound : p.word.Found) {masked : Masked}
    (hmasked : masked.replacements = (a ++ p.layers ++ c).replacementsFrom 0) {token : Token} :
    uncover masked (p.placed a.source.length) = .ok token ↔ p.token? a.source.length = some token := by
  have hunmask := Piece.unmask_placed h ha hp hfound hmasked
  have hunchanged : (masked.unmask (p.placed a.source.length)).2 = false →
      (masked.unmask (p.placed a.source.length)).1.content = (p.placed a.source.length).content :=
    content_eq_of_unchanged
  unfold uncover Piece.token?
  rcases hresult : masked.unmask (p.placed a.source.length) with ⟨result, changed⟩
  rw [hresult] at hunmask hunchanged
  obtain rfl : result = { p.placed a.source.length with content := p.content } := hunmask
  have hlength : p.layers.text.length = p.source.length := hp.length_text
  cases changed with
  | true =>
    simp only [reread_eq_ok, Piece.placed, hlength, Option.map_eq_some_iff]
    rfl
  | false =>
    have hread := Piece.read?_content hfound (hunchanged rfl)
    simp [hread, Piece.placed, hlength]

theorem mapM_uncover (done : List Piece) {ps : List Piece} (hdone : ∀ p ∈ done, p.layers.Linked)
    (hlinked : ∀ p ∈ ps, p.layers.Linked) (hfound : ∀ p ∈ ps, p.word.Found) {masked : Masked}
    (hmasked : masked.replacements = (Piece.joined (done ++ ps)).replacementsFrom 0) {tokens : List Token} :
    (placedFrom (Piece.joined done).source.length ps).mapM (uncover masked) = .ok tokens ↔
      Piece.tokensFrom? (Piece.joined done).source.length ps = some tokens := by
  induction ps generalizing done tokens with
  | nil => simp [placedFrom, Piece.tokensFrom?, pure, Except.pure]
  | cons p ps ih =>
    obtain ⟨hp, hps⟩ := List.forall_mem_cons.mp hlinked
    obtain ⟨hpfound, hpsfound⟩ := List.forall_mem_cons.mp hfound
    have hjoined : Piece.joined (done ++ p :: ps) = Piece.joined done ++ p.layers ++ Piece.joined ps := by
      rw [Piece.joined_append, Piece.joined, Layers.append_assoc]
    have hall : (Piece.joined done ++ p.layers ++ Piece.joined ps).Linked :=
      ((Piece.linked_joined hdone).append hp).append (Piece.linked_joined hps)
    have huncover (token : Token) : uncover masked (p.placed (Piece.joined done).source.length) = .ok token ↔
        p.token? (Piece.joined done).source.length = some token :=
      uncover_placed hall (Piece.linked_joined hdone) hp hpfound (hmasked.trans (by rw [hjoined]))
    have hnext : (Piece.joined done).source.length + p.source.length = (Piece.joined (done ++ [p])).source.length := by
      simp [Piece.joined, Piece.source]
    have hrest (tokens : List Token) :
        (placedFrom (Piece.joined (done ++ [p])).source.length ps).mapM (uncover masked) = .ok tokens ↔
          Piece.tokensFrom? (Piece.joined (done ++ [p])).source.length ps = some tokens :=
      ih (done ++ [p]) (List.forall_mem_append.mpr ⟨hdone, by simpa using hp⟩) hps hpsfound (by simpa using hmasked)
    have htext : p.layers.text.length = p.source.length := hp.length_text
    rw [placedFrom, List.mapM_cons, Piece.tokensFrom?, htext, hnext, bind_eq_ok]
    simp only [bind_eq_ok, Option.bind_eq_bind, Option.bind_eq_some_iff, pure_eq_ok, Option.pure_def, Option.some.injEq,
      huncover, hrest]

-- A text that is cut throughout falls into pieces, and its tokens are placed where these stand.
theorem exists_reading {source : Text} {masked : Masked} {placed : List Token} (hmasked : Masked.ofText source = .ok masked)
    (hplaced : place source 0 (Fragment.ofText masked.text) = .ok placed) :
    ∃ ps, Piece.Reading source ps ∧ masked = ⟨(Layers.ofText source).text, (Layers.ofText source).replacementsFrom 0⟩ ∧
      placed = placedFrom 0 ps := by
  obtain ⟨hbalanced, rfl⟩ := Masked.ofText_eq_ok_iff.mp hmasked
  obtain ⟨words, hwords⟩ := exists_words_of_place hplaced
  obtain ⟨ps, hreading, rfl⟩ := Piece.exists_reading_of_words hbalanced hwords
  rw [hwords, place_eq_ok] at hplaced
  exact ⟨ps, hreading, rfl, (Except.ok.inj hplaced).symm⟩

-- The tokens of a selector are those of the pieces that it falls into.
theorem ofText_eq_ok_iff {text : Text} {tokens : List Token} :
    ofText text = .ok tokens ↔ ∃ ps, Piece.Reading text.trim ps ∧ Piece.tokensFrom? 0 ps = some tokens := by
  have hreading {ps : List Piece} (h : Piece.Reading text.trim ps) :
      (placedFrom 0 ps).mapM (uncover ⟨(Layers.ofText text.trim).text, (Layers.ofText text.trim).replacementsFrom 0⟩) =
        .ok tokens ↔ Piece.tokensFrom? 0 ps = some tokens :=
    mapM_uncover [] (by simp) h.linked h.found (by rw [h.layers_eq]; rfl)
  simp only [ofText, bind_eq_ok]
  constructor
  · rintro ⟨masked, hmasked, placed, hplaced, htokens⟩
    obtain ⟨ps, h, rfl, rfl⟩ := exists_reading hmasked hplaced
    exact ⟨ps, h, (hreading h).mp htokens⟩
  · rintro ⟨ps, h, htokens⟩
    refine ⟨_, Masked.ofText_eq_ok_iff.mpr ⟨h.balanced, rfl⟩, placedFrom 0 ps, ?_, (hreading h).mpr htokens⟩
    rw [h.fragments_eq, place_eq_ok]

-- A token that is found over a whole text is its only one, and says what is read in plain sight.
theorem ofText_of_front? {text : Text} (htrimmed : text.Trimmed)
    (hbalanced : imbalanceFrom 0 (Layers.ofText text).groups = none) {before after : List Tag} {tag : Tag}
    (hall : Tag.all = before ++ tag :: after) (hdelimits : tag.delimits = false)
    (hbefore : ∀ other ∈ before, ∀ a b, (Layers.ofText text).text = a ++ b → b ≠ [] → other.front? b = none)
    {found kind : Kind Selector}
    (hfront : tag.front? (Layers.ofText text).text = some (found, (Layers.ofText text).text.length))
    (hread : tag.read? text = some kind) : ofText text = .ok [⟨kind, text, 0, text.length⟩] := by
  let word : Word := ⟨found, (Layers.ofText text).text⟩
  have htag : found.tag = tag := Tag.tag_of_front? hfront
  have hcut : Fragment.ofText (Layers.ofText text).text = [word].map Word.fragment :=
    Fragment.ofText_eq_cut hall hbefore hfront
  obtain ⟨ps, hreading, hps⟩ := Piece.exists_reading_of_words hbalanced hcut
  obtain ⟨p, rfl, hp⟩ := List.map_eq_singleton_iff.mp hps
  have htag : p.tag = tag := (congrArg Word.tag hp).trans htag
  have hsource : p.source = text := by simpa [Piece.joined, Piece.source] using hreading.source_joined
  rw [← htag] at hdelimits hread
  rw [← hsource] at hread
  have htoken := Piece.token?_of_not_delimits hdelimits hread 0
  rw [hsource, Nat.zero_add] at htoken
  refine ofText_eq_ok_iff.mpr ⟨[p], htrimmed.trim_eq.symm ▸ hreading, ?_⟩
  simp [Piece.tokensFrom?, htoken]

end Token

end CssSelectors
