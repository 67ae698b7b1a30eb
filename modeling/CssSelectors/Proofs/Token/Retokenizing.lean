import CssSelectors.Proofs.Fragment.Repassing
import CssSelectors.Proofs.Masking.Following
import CssSelectors.Proofs.Token.Narrowing

namespace CssSelectors

open Masked Text Grammar

namespace Piece

-- One of the three sweeps over the layers of pieces.
structure Stage (f : Layers → Hidden) : Prop where
  zero : f 0 = []
  append : ∀ l m, f (l ++ m) = f l ++ f m
  loose : ∀ text, f (.loose text) = text.map .loose
  length : ∀ l : Layers, l.Linked → ((f l).flatMap Swept.source).length = l.source.length

theorem stage_escapes : Stage Layers.escapes :=
  ⟨rfl, fun _ _ => rfl, fun _ => rfl, fun _ _ => rfl⟩

theorem stage_strings : Stage Layers.strings :=
  ⟨rfl, fun _ _ => rfl, fun _ => rfl, fun l h => by rw [h.strings_eq, h.length_escapes]⟩

theorem stage_groups : Stage Layers.groups :=
  ⟨rfl, fun _ _ => rfl, fun _ => rfl, fun l h => by rw [h.groups_eq, h.length_strings]⟩

namespace Stage

variable {f : Layers → Hidden} {ps : List Piece}

theorem follows (hf : Stage f) (hlinked : ∀ p ∈ ps, p.layers.Linked) (hfound : ∀ p ∈ ps, p.word.Found) :
    Follows ((f (joined ps)).flatMap Swept.source) ((f (joined (narrowAll ps))).flatMap Swept.source) where
  nil := by
    intro hnil
    cases ps with
    | nil => exact hnil
    | cons p ps =>
      have hlength := hf.length _ (linked_joined hlinked)
      rw [hnil, joined, Layers.source_append, List.length_append] at hlength
      have hpos := List.length_pos_iff.mpr (source_ne_nil (hlinked p List.mem_cons_self) (hfound p List.mem_cons_self))
      rw [source] at hpos
      simp only [List.length_nil] at hlength
      omega
  quote := by
    intro c hquote hc
    induction ps with
    | nil => exact hc
    | cons p ps ih =>
      obtain ⟨hp, hps⟩ := List.forall_mem_cons.mp hlinked
      obtain ⟨hpfound, hpsfound⟩ := List.forall_mem_cons.mp hfound
      rw [narrowAll_cons, joined, hf.append, List.flatMap_append] at hc
      rw [joined, hf.append, List.flatMap_append]
      rcases List.mem_append.mp hc with hc | hc
      · cases hdelimits : p.tag.delimits with
        | false =>
          rw [narrow_eq_self hdelimits] at hc
          exact List.mem_append_left _ hc
        | true =>
          obtain ⟨d, hcontent, hd⟩ := exists_of_delimits hdelimits hp hpfound
          rw [narrow_of_delimits hdelimits, hf.loose, Layers.flatMap_source_loose, hcontent] at hc
          obtain rfl := List.mem_singleton.mp hc
          rw [(plain_of_mem hd).2.1] at hquote
          cases hquote
      · exact List.mem_append_right _ (ih hps hpsfound hc)

-- A sweep takes the same from narrowed pieces, if it takes the same from each piece before those
-- that follow it, narrowed or not.
theorem sweep_narrowAll (hf : Stage f) {offer : Char → Text → Option (Option Text × Nat)}
    (hplain : ∀ c ∈ [',', ' ', '>', '+', '~'], ∀ rest, offer c rest = none)
    (hlinked : ∀ p ∈ ps, p.layers.Linked) (hfound : ∀ p ∈ ps, p.word.Found)
    (hcongr : ∀ before p after, ps = before ++ p :: after → p.tag.delimits = false →
      Text.sweep offer ((f p.layers).flatMap Swept.source ++ (f (joined after)).flatMap Swept.source) =
        f p.layers ++ Text.sweep offer ((f (joined after)).flatMap Swept.source) →
      Text.sweep offer ((f p.layers).flatMap Swept.source ++ (f (joined (narrowAll after))).flatMap Swept.source) =
        f p.layers ++ Text.sweep offer ((f (joined (narrowAll after))).flatMap Swept.source))
    (h : Text.sweep offer ((f (joined ps)).flatMap Swept.source) = f (joined ps)) :
    Text.sweep offer ((f (joined (narrowAll ps))).flatMap Swept.source) = f (joined (narrowAll ps)) := by
  induction ps with
  | nil =>
    rw [narrowAll, List.map_nil, joined, hf.zero]
    exact sweep_nil
  | cons p ps ih =>
    obtain ⟨hp, hps⟩ := List.forall_mem_cons.mp hlinked
    obtain ⟨hpfound, hpsfound⟩ := List.forall_mem_cons.mp hfound
    rw [joined, hf.append] at h
    obtain ⟨_, hsweep⟩ := sweep_eq_append h
    have hrest := ih hps hpsfound (fun before q after hsplit => hcongr (p :: before) q after (by rw [hsplit]; rfl)) hsweep
    rw [narrowAll_cons, joined, hf.append, List.flatMap_append]
    cases hdelimits : p.tag.delimits with
    | true =>
      obtain ⟨c, hcontent, hc⟩ := exists_of_delimits hdelimits hp hpfound
      rw [narrow_of_delimits hdelimits, hf.loose, Layers.flatMap_source_loose, hcontent, List.singleton_append,
        sweep_cons_of_none (hplain c hc _), hrest]
      rfl
    | false =>
      rw [List.flatMap_append] at h
      rw [narrow_eq_self hdelimits, hcongr [] p ps rfl hdelimits (by rw [h, hsweep]), hrest]

end Stage

theorem Stage.mem_joined {f : Layers → Hidden} (hf : Stage f) {ps : List Piece} {part : Swept (Option Text)} :
    part ∈ f (joined ps) ↔ ∃ p ∈ ps, part ∈ f p.layers := by
  induction ps with
  | nil => simp [joined, hf.zero]
  | cons p ps ih => simp [joined, hf.append, ih]

theorem text_joined (ps : List Piece) : (joined ps).text = Word.textOf (ps.map word) := by
  induction ps with
  | nil => rfl
  | cons p ps ih => simp [joined, ih, word]

theorem map_word_narrowAll {ps : List Piece} (hlinked : ∀ p ∈ ps, p.layers.Linked) (hfound : ∀ p ∈ ps, p.word.Found) :
    (narrowAll ps).map word = Word.narrowAll (ps.map word) := by
  rw [narrowAll, Word.narrowAll, List.map_map, List.map_map]
  exact List.map_congr_left fun p hp => word_narrow (hlinked p hp) (hfound p hp)

-- To narrow pieces closes no quote that was left open, and brings no end into sight for a value
-- that begins at the bracket of an attribute.
structure Settled (ps : List Piece) : Prop where
  quotes : ∀ before p after, ps = before ++ p :: after → p.tag.delimits = false → ∀ first quote rest,
    p.layers.strings = first ++ .loose quote :: rest → isQuote quote = true →
    stringBody? quote (rest.flatMap Swept.source ++ (joined after).strings.flatMap Swept.source) = none →
    stringBody? quote (rest.flatMap Swept.source ++ (joined (narrowAll after)).strings.flatMap Swept.source) = none
  calm : Word.Calm (ps.map word)

end Piece

namespace Piece.Reading

variable {source : Text} {ps : List Piece}

-- Each of the sweeps takes the same from the narrowed pieces.
theorem sweep_escapes_narrowAll (h : Reading source ps) :
    Text.sweep escapeAt (joined (Piece.narrowAll ps)).source = (joined (Piece.narrowAll ps)).escapes := by
  refine stage_escapes.sweep_narrowAll ?_ h.linked h.found ?_ ?_
  · intro c hc rest
    rw [Option.eq_none_iff_forall_ne_some]
    rintro ⟨item, more⟩ hsome
    exact (plain_of_mem hc).1 (escapeAt_eq_some.mp hsome).1
  · rintro before p after rfl _ hsweep
    refine sweep_escapeAt_congr (stage_escapes.follows (fun q hq => ?_) fun q hq => ?_).nil hsweep
    · exact h.linked q (by simp [hq])
    · exact h.found q (by simp [hq])
  · have hescapes := Layers.sweep_escapes_ofText source
    rwa [h.layers_eq] at hescapes

theorem sweep_strings_narrowAll (h : Reading source ps) (hsettled : Settled ps) :
    Text.sweep stringAt (shown (joined (Piece.narrowAll ps)).escapes) = (joined (Piece.narrowAll ps)).strings := by
  rw [← (linked_joined (linked_narrowAll h.linked)).strings_eq]
  refine stage_strings.sweep_narrowAll ?_ h.linked h.found
    (fun before p after hps hdelimits => sweep_stringAt_congr (hsettled.quotes before p after hps hdelimits)) ?_
  · intro c hc rest
    rw [Option.eq_none_iff_forall_ne_some]
    rintro ⟨item, more⟩ hsome
    have hquote := (stringAt_eq_some.mp hsome).1
    rw [(plain_of_mem hc).2.1] at hquote
    cases hquote
  · have hstrings := Layers.sweep_strings_ofText source
    rwa [h.layers_eq] at hstrings

theorem loose_mem_groups (h : Reading source ps) {p : Piece} (hp : p ∈ ps) {c : Char} (hc : .loose c ∈ p.layers.groups) :
    c ≠ '(' ∧ c ≠ ')' := by
  have hbalanced := h.balanced
  rw [h.layers_eq, imbalanceFrom_eq_none_iff] at hbalanced
  exact hbalanced c (stage_groups.mem_joined.mpr ⟨p, hp, hc⟩)

theorem sweep_groups_narrowAll (h : Reading source ps) :
    Text.sweep groupAt (shown (joined (Piece.narrowAll ps)).strings) = (joined (Piece.narrowAll ps)).groups := by
  rw [← (linked_joined (linked_narrowAll h.linked)).groups_eq]
  refine stage_groups.sweep_narrowAll ?_ h.linked h.found ?_ ?_
  · intro c hc rest
    rw [Option.eq_none_iff_forall_ne_some]
    rintro ⟨item, more⟩ hsome
    exact (plain_of_mem hc).2.2.1 (groupAt_eq_some.mp hsome).1
  · rintro before p after hps _ hsweep
    exact sweep_groupAt_congr (fun c hc => (h.loose_mem_groups (by simp [hps]) hc).1) hsweep
  · have hgroups := Layers.sweep_groups_ofText source
    rwa [h.layers_eq] at hgroups

theorem layers_narrowAll (h : Reading source ps) (hsettled : Settled ps) :
    Layers.ofText (joined (Piece.narrowAll ps)).source = joined (Piece.narrowAll ps) := by
  simp only [Layers.ofText, h.sweep_escapes_narrowAll, h.sweep_strings_narrowAll hsettled, h.sweep_groups_narrowAll]

-- So the narrowed text falls into the narrowed pieces.
theorem narrowAll (h : Reading source ps) (hsettled : Settled ps) :
    Reading (joined (narrowAll ps)).source (Piece.narrowAll ps) where
  layers_eq := h.layers_narrowAll hsettled
  linked := linked_narrowAll h.linked
  balanced := by
    rw [h.layers_narrowAll hsettled, imbalanceFrom_eq_none_iff]
    intro c hc
    obtain ⟨q, hq, hc⟩ := stage_groups.mem_joined.mp hc
    obtain ⟨p, hp, rfl⟩ := List.mem_map.mp hq
    cases hdelimits : p.tag.delimits with
    | false =>
      rw [narrow_eq_self hdelimits] at hc
      exact h.loose_mem_groups hp hc
    | true =>
      obtain ⟨d, hcontent, hd⟩ := exists_of_delimits hdelimits (h.linked p hp) (h.found p hp)
      rw [narrow_of_delimits hdelimits, stage_groups.loose, hcontent, List.map_singleton, List.mem_singleton] at hc
      obtain rfl : c = d := by simpa using hc
      exact (plain_of_mem hd).2.2
  fragments_eq := by
    have hpasses :=
      Fragment.passes_narrow Tag.pairwise_all (Layers.unescaped_text_ofText source) hsettled.calm h.fragments_eq
    rwa [h.layers_narrowAll hsettled, text_joined, map_word_narrowAll h.linked h.found, Fragment.ofText_eq_passes]

end Piece.Reading

namespace Token

-- A token regardless of where it stands.
def unplaced (token : Token) : Token := { token with start := 0, stop := 0 }

theorem tokensFrom?_narrowAll {ps : List Piece} (hlinked : ∀ p ∈ ps, p.layers.Linked) (hfound : ∀ p ∈ ps, p.word.Found)
    {offset : Nat} {tokens : List Token} (h : Piece.tokensFrom? offset ps = some tokens) (offset' : Nat) :
    (Piece.joined (Piece.narrowAll ps)).source = textOf tokens ∧
      ∃ tokens', Piece.tokensFrom? offset' (Piece.narrowAll ps) = some tokens' ∧
        tokens'.map unplaced = tokens.map unplaced := by
  induction ps generalizing offset offset' tokens with
  | nil =>
    obtain rfl : [] = tokens := by simpa [Piece.tokensFrom?] using h
    exact ⟨rfl, [], rfl, rfl⟩
  | cons p ps ih =>
    obtain ⟨hp, hps⟩ := List.forall_mem_cons.mp hlinked
    obtain ⟨hpfound, hpsfound⟩ := List.forall_mem_cons.mp hfound
    obtain ⟨token, tokens, htoken, hmore, rfl⟩ := Piece.tokensFrom?_cons_eq_some.mp h
    obtain ⟨kind, hkind, rfl⟩ := Option.map_eq_some_iff.mp htoken
    obtain ⟨htext, tokens', htokens', hsame⟩ := ih hps hpsfound hmore (offset' + p.narrow.source.length)
    have hread : p.narrow.tag.read? p.narrow.content = some kind := by
      rw [Piece.tag_narrow, Piece.content_narrow hp hpfound, hkind]
    refine ⟨?_, ⟨kind, p.content, offset', offset' + p.narrow.source.length⟩ :: tokens', ?_, ?_⟩
    · rw [Piece.narrowAll_cons, Piece.joined, Layers.source_append, htext]
      exact congrArg (· ++ _) (Piece.source_narrow p)
    · rw [Piece.narrowAll_cons, Piece.tokensFrom?, htokens', Piece.token?, hread, Piece.content_narrow hp hpfound]
      rfl
    · rw [List.map_cons, List.map_cons, hsame]
      rfl

-- The contents of the tokens of a text, one after another, have the same tokens again, if to narrow
-- them joins nothing that was apart.
theorem exists_ofText_textOf_of_settled {text : Text} {ps : List Piece} (hreading : Piece.Reading text.trim ps)
    (hsettled : Piece.Settled ps) {tokens : List Token} (htokens : Piece.tokensFrom? 0 ps = some tokens) :
    ∃ tokens', ofText (textOf tokens) = .ok tokens' ∧ tokens'.map unplaced = tokens.map unplaced := by
  have hsource := hreading.source_joined
  have htrimmed := Piece.trimmed_narrowAll hreading.linked hreading.found (hsource ▸ trimmed_trim text)
  obtain ⟨htextOf, tokens', htokens', hsame⟩ := tokensFrom?_narrowAll hreading.linked hreading.found htokens 0
  rw [htextOf] at htrimmed
  have hnarrow := hreading.narrowAll hsettled
  rw [htextOf, ← htrimmed.trim_eq] at hnarrow
  exact ⟨tokens', ofText_eq_ok_iff.mpr ⟨_, hnarrow, htokens'⟩, hsame⟩

end Token

-- What is enough of a text for its rendering to be masked and cut as the text itself: that its
-- strings and attributes end on one line, or that it has none.
def Text.Steady (text : Text) : Prop := '\n' ∉ text ∨ '[' ∉ text ∧ ∀ c ∈ text, isQuote c = false

theorem Text.Steady.trim {text : Text} (h : text.Steady) : text.trim.Steady :=
  h.imp (fun hline hc => hline (mem_of_mem_trim hc)) fun hnone =>
    ⟨fun hc => hnone.1 (mem_of_mem_trim hc), fun c hc => hnone.2 c (mem_of_mem_trim hc)⟩

namespace Piece.Reading

variable {source : Text} {ps : List Piece}

theorem settled_of_steady (h : Reading source ps) (hsteady : source.Steady) : Settled ps where
  quotes := by
    rintro before p after rfl _ first quote rest hsplit hquote
    have hjoined := linked_joined h.linked
    have hstrings : (joined (before ++ p :: after)).strings.flatMap Swept.source =
        ((joined before).strings.flatMap Swept.source ++ first.flatMap Swept.source) ++
          quote :: (rest.flatMap Swept.source ++ (joined after).strings.flatMap Swept.source) := by
      simp [joined, hsplit, Swept.source]
    have hmem : ∀ c ∈ quote :: (rest.flatMap Swept.source ++ (joined after).strings.flatMap Swept.source),
        isCover c = false → c ∈ source := by
      intro c hc hcover
      rw [← h.source_joined]
      apply hjoined.mem_source_of_mem_escapes hcover
      rw [← hjoined.strings_eq, hstrings]
      exact List.mem_append_right _ hc
    rcases hsteady with hline | ⟨_, hnone⟩
    · have hun : (shown (Layers.ofText source).escapes).Unescaped := unescaped_shown_escapes source
      rw [h.layers_eq, ← hjoined.strings_eq, hstrings] at hun
      have hfollows := stage_strings.follows (fun q hq => h.linked q (by simp [hq]))
        fun q (hq : q ∈ after) => h.found q (by simp [hq])
      refine stringBody?_eq_none_of_follows hfollows hun.of_append_right.of_cons (fun hc => ?_) hquote
      exact hline (hmem _ (List.mem_cons_of_mem quote hc) (by decide))
    · rw [hnone quote (hmem quote List.mem_cons_self (isCover_of_isQuote hquote))] at hquote
      cases hquote
  calm := by
    intro us word vs hwords hattr _ hend
    have htext : (Layers.ofText source).text = Word.textOf us ++ (word.text ++ Word.textOf vs) := by
      rw [h.layers_eq, text_joined, hwords, Word.textOf_append, Word.textOf_cons]
    have hshapes : ∀ v ∈ word :: vs, v.tag.Shape v.text := by
      intro v hv
      obtain ⟨p, hp, rfl⟩ := List.mem_map.mp (hwords ▸ List.mem_append_right us hv)
      exact (h.found p hp).shape
    have hmem : ∀ c ∈ word.text ++ Word.textOf vs, isCover c = false → c ∈ source := fun c hc hcover => by
      have hc : c ∈ (Layers.ofText source).text := htext ▸ List.mem_append_right _ hc
      simpa using (Layers.linked_ofText source).mem_source_of_mem_text hcover hc
    rcases hsteady with hline | ⟨hbracket, _⟩
    · have hbracket := Word.mem_of_mem_textOf_narrowAll (List.forall_mem_cons.mp hshapes).2 (mem_of_reachesEnd hend)
      refine reachesEnd_of_mem (fun hc => ?_) (hbracket.resolve_right (by decide))
      exact hline (hmem _ (List.mem_append_right _ hc) (by decide))
    · obtain ⟨inner, htext⟩ := hattr ▸ hshapes word List.mem_cons_self
      exact absurd (hmem '[' (by simp [htext]) (by decide)) hbracket

end Piece.Reading

theorem Token.exists_ofText_textOf {text : Text} (hsteady : text.Steady) {tokens : List Token}
    (h : ofText text = .ok tokens) :
    ∃ tokens', ofText (textOf tokens) = .ok tokens' ∧ tokens'.map unplaced = tokens.map unplaced := by
  obtain ⟨ps, hreading, htokens⟩ := ofText_eq_ok_iff.mp h
  exact exists_ofText_textOf_of_settled hreading (hreading.settled_of_steady hsteady.trim) htokens

end CssSelectors
