import CssSelectors.Proofs.Grammar.Stable
import CssSelectors.Proofs.Token.Tiling

namespace CssSelectors

open Pattern Grammar Masked

namespace Tag

variable {tag : Tag} {text : Text} {s t : Cursor Field}

-- What a match says depends on its fields alone.
theorem kindAt?_congr (h : s.spans = t.spans) : tag.kindAt? text s = tag.kindAt? text t := by
  have hread : (fun field => (s.span? field).map (·.of text)) = fun field => (t.span? field).map (·.of text) := by
    funext field
    rw [Cursor.span?, h]
    rfl
  unfold kindAt?
  rw [hread]

theorem kindAt?_of_delimits {kind : Kind Selector} (h : kind.tag.delimits = true) :
    kind.tag.kindAt? text t = some kind := by
  cases kind <;> first | rfl | simp [Kind.tag, Tag.delimits] at h

theorem eq_of_kindAt?_attr {kind : Kind Selector} (hs : attr.kindAt? text s = some kind)
    (ht : attr.kindAt? text t = some kind) :
    ∀ field ∈ [.ns, .name, .value, .caseFlag], (s.span? field).map (·.of text) = (t.span? field).map (·.of text) := by
  obtain ⟨name, hname, rfl⟩ := Option.map_eq_some_iff.mp hs
  obtain ⟨name', hname', heq⟩ := Option.map_eq_some_iff.mp ht
  obtain ⟨hns, rfl, _, hvalue, hflag⟩ := Kind.attr.inj heq
  simp [hname, hname', hns, hvalue, hflag]

end Tag

namespace Piece

-- Where a piece stands among the pieces of a selector.
theorem exists_split_of_mem (done : List Piece) {ps : List Piece} {tokens : List Token}
    (h : tokensFrom? (joined done).source.length ps = some tokens) {token : Token} (hmem : token ∈ tokens) :
    ∃ before p after, done ++ ps = before ++ p :: after ∧ p ∈ ps ∧ p.token? (joined before).source.length = some token := by
  induction ps generalizing done tokens with
  | nil =>
    obtain rfl : [] = tokens := by simpa [tokensFrom?] using h
    simp at hmem
  | cons p ps ih =>
    obtain ⟨first, more, hfirst, hmore, rfl⟩ := tokensFrom?_cons_eq_some.mp h
    rcases List.mem_cons.mp hmem with rfl | hmem
    · exact ⟨done, p, ps, rfl, List.mem_cons_self, hfirst⟩
    · have hnext : (joined done).source.length + p.source.length = (joined (done ++ [p])).source.length := by
        simp [joined, source]
      obtain ⟨before, q, after, hsplit, hq, htoken⟩ := ih (done ++ [p]) (hnext ▸ hmore) hmem
      exact ⟨before, q, after, by simpa using hsplit, List.mem_cons_of_mem p hq, htoken⟩

variable {p : Piece} {rest : Text} {reached : Cursor Field} {kind : Kind Selector}

-- What is read off a piece in plain sight is what was found in it, if its fields are stable.
theorem kindAt?_source_iff (hp : p.layers.Linked) (hun : p.layers.text.Unescaped) (hread : p.tag.read? p.source = some kind)
    (hfound : (pattern coveredArgument p.tag).front? (p.layers.text ++ rest) = some reached)
    (hwidth : reached.offset = p.layers.text.length) :
    p.tag.kindAt? p.source reached = some kind ↔
      (p.tag = .attr → Stable fun field => (reached.span? field).map (·.of p.source)) := by
  have hwhole := whole?_of_front? hfound hwidth
  obtain ⟨t, ht, hkind⟩ := Option.bind_eq_some_iff.mp hread
  rw [whole?_eq_finish?] at hwhole ht
  obtain ⟨hmem, hend⟩ := mem_of_finish? hwhole
  obtain ⟨hmem', hend'⟩ := mem_of_finish? ht
  by_cases hattr : p.tag = .attr
  · rw [hattr] at hwhole ht hkind hmem ⊢
    constructor
    · intro hkind' _
      exact (stable_of_finish? ht).congr (Tag.eq_of_kindAt?_attr hkind hkind')
    · intro hstable
      have htwin : Twin p.source (.start p.layers.text) (.start p.source) := ⟨rfl, rfl, rfl, hp.veils, hun, by simp [Cursor.start]⟩
      obtain ⟨t', ht', hspans⟩ := agrees_attr coveredArgument plainArgument htwin hwhole (kept_of_stable hmem (hstable rfl))
      obtain rfl : t = t' := Option.some.inj (ht.symm.trans ht')
      rw [← hkind]
      exact Tag.kindAt?_congr hspans.symm
  · have hspans := spans_eq_of_veils hattr hp.veils hun hmem hend hmem' hend'
    rw [← hkind]
    simp only [hattr, false_implies, iff_true]
    exact Tag.kindAt?_congr hspans

end Piece

namespace Token

-- A match of the rule of a token in the masked text, where the token stands and with some text
-- after it.
structure Captures (masked : Masked) (token : Token) (rest : Text) (reached : Cursor Field) : Prop where
  found : (pattern coveredArgument token.tag).front? (masked.text.slice token.start token.stop ++ rest) = some reached
  width : reached.offset = token.stop - token.start

-- The fields of the token are what the source has in the spans of a match.
def Recaptured (source : Text) (token : Token) (reached : Cursor Field) : Prop :=
  token.tag.kindAt? (source.slice token.start token.stop) reached = some token.kind

-- A token says what its rule has found of it in the masked text, if it is no attribute or its
-- fields are stable, and only then.
theorem recaptured_iff {text : Text} {masked : Masked} {tokens : List Token} (hmasked : Masked.ofText text.trim = .ok masked)
    (h : ofText text = .ok tokens) : ∀ token ∈ tokens, (∃ rest reached, Captures masked token rest reached) ∧
      ∀ rest reached, Captures masked token rest reached → (Recaptured text.trim token reached ↔ (token.tag = .attr →
        Stable fun field => (reached.span? field).map (·.of (text.trim.slice token.start token.stop)))) := by
  obtain ⟨ps, hreading, htokens⟩ := ofText_eq_ok_iff.mp h
  obtain ⟨_, rfl⟩ := Masked.ofText_eq_ok_iff.mp hmasked
  intro token htoken
  obtain ⟨before, p, after, hsplit, hmem, hp⟩ := Piece.exists_split_of_mem [] htokens htoken
  rw [List.nil_append] at hsplit
  have hlinked := hreading.linked p hmem
  have hfound := hreading.found p hmem
  obtain ⟨htag, _, hstart, hstop⟩ := Piece.exists_of_token? hp
  have hlength : p.layers.text.length = p.source.length := hlinked.length_text
  have hjoined : Layers.ofText text.trim = Piece.joined before ++ p.layers ++ Piece.joined after := by
    rw [hreading.layers_eq, hsplit, Piece.joined_append, Piece.joined, Layers.append_assoc]
  have hsource : Text.slice text.trim token.start token.stop = p.source := by
    have hall := congrArg Layers.source hjoined
    rw [Layers.source_ofText, Layers.source_append, Layers.source_append] at hall
    rw [hall, hstart, hstop]
    exact Text.slice_middle _ _ _
  have hlayers : Text.slice (Layers.ofText text.trim).text token.start token.stop = p.layers.text := by
    have hbefore : (Piece.joined before).source.length = (Piece.joined before).text.length :=
      (Piece.linked_joined fun q hq => hreading.linked q (by simp [hsplit, hq])).length_text.symm
    rw [hjoined, Layers.text_append, Layers.text_append, hstart, hstop, hbefore, ← hlength]
    exact Text.slice_middle _ _ _
  have hwidth : token.stop - token.start = p.layers.text.length := by omega
  refine ⟨?_, fun rest reached hcaptures => ?_⟩
  · obtain ⟨rest, _, hfront⟩ := hfound
    obtain ⟨reached, hreached, _, hoffset⟩ := Tag.front?_eq_some_iff.mp hfront
    refine ⟨rest, reached, ?_, by rw [hwidth]; exact hoffset⟩
    rw [hlayers, htag]
    exact hreached
  · have hreached := hcaptures.found
    have hoffset : reached.offset = p.layers.text.length := hcaptures.width.trans hwidth
    rw [hlayers, htag] at hreached
    rw [Recaptured, hsource, htag]
    cases hdelimits : p.tag.delimits with
    | false =>
      obtain ⟨kind, hkind, rfl⟩ := Option.map_eq_some_iff.mp hp
      rw [Piece.content_eq_source hdelimits] at hkind
      exact Piece.kindAt?_source_iff hlinked hfound.unescaped hkind hreached hoffset
    | true =>
      -- A delimiter has no fields.
      have hattr : p.tag ≠ .attr := by
        intro hattr
        simp [hattr, Tag.delimits] at hdelimits
      simp only [hattr, false_implies, iff_true]
      rw [← htag] at hdelimits ⊢
      exact Tag.kindAt?_of_delimits hdelimits

-- An escaped blank within a value stays there.
theorem recaptured_within : ∃ masked token reached, Masked.ofText (Text.trim "[a=x\\ y]".toList) = .ok masked ∧
    ofText "[a=x\\ y]".toList = .ok [token] ∧ Captures masked token [] reached ∧
      Recaptured (Text.trim "[a=x\\ y]".toList) token reached := by
  let masked : Masked := ⟨"[a=x\ue000\ue000y]".toList, [⟨"\\ ".toList, 4⟩]⟩
  let token : Token := ⟨.attr none "a".toList (some "=".toList) (some "x\\ y".toList) none, "[a=x\\ y]".toList, 0, 8⟩
  let reached : Cursor Field := ⟨8, [], [(.value, ⟨3, 7⟩), (.operator, ⟨2, 3⟩), (.name, ⟨1, 2⟩)]⟩
  have hmasked : Masked.ofText (Text.trim "[a=x\\ y]".toList) = .ok masked := rfl
  have htokens : ofText "[a=x\\ y]".toList = .ok [token] := rfl
  have hcaptures : Captures masked token [] reached := ⟨rfl, rfl⟩
  refine ⟨masked, token, reached, hmasked, htokens, hcaptures, ?_⟩
  refine ((recaptured_iff hmasked htokens token List.mem_cons_self).2 [] reached hcaptures).mpr fun _ => ⟨?_, ?_, ?_⟩
  · intro field hfield text htext
    have hfield : field = .ns ∨ field = .name ∨ field = .value := by simpa using hfield
    rcases hfield with rfl | rfl | rfl
    · cases htext
    · obtain rfl := Option.some.inj (show some "a".toList = some text from htext)
      decide
    · obtain rfl := Option.some.inj (show some "x\\ y".toList = some text from htext)
      decide
  · intro before b hvalue
    have hend : ['x', '\\'] ++ [' ', 'y'] = before ++ ['\\', b] := Option.some.inj hvalue
    simpa using (List.append_inj' hend rfl).2
  · intro _ before b c hvalue _
    have hend : ['x'] ++ ['\\', ' ', 'y'] = before ++ ['\\', b, c] := Option.some.inj hvalue
    obtain ⟨_, rfl⟩ : ' ' = b ∧ 'y' = c := by simpa using (List.append_inj' hend rfl).2
    decide

-- An escaped blank at the end of a value, before a letter, is read as the blank before a flag.
theorem not_recaptured : ¬∀ text masked tokens, Masked.ofText text.trim = .ok masked → ofText text = .ok tokens →
    ∀ token ∈ tokens, ∀ rest reached, Captures masked token rest reached → Recaptured text.trim token reached := by
  intro hall
  have htokens : ofText "[a=x\\ i]".toList = .ok [
    ⟨.attr none "a".toList (some "=".toList) (some "x\\".toList) (some "i".toList), "[a=x\\ i]".toList, 0, 8⟩] := rfl
  have hfound : (pattern coveredArgument .attr).front? "[a=x\ue000\ue000i]".toList =
    some ⟨8, [], [(.value, ⟨3, 7⟩), (.operator, ⟨2, 3⟩), (.name, ⟨1, 2⟩)]⟩ := rfl
  have hagree := hall _ ⟨"[a=x\ue000\ue000i]".toList, [⟨"\\ ".toList, 4⟩]⟩ _ rfl htokens _ List.mem_cons_self [] _
    ⟨hfound, rfl⟩
  have hcaptured : some (.attr none "a".toList (some "=".toList) (some "x\\ i".toList) none) =
      some (.attr none "a".toList (some "=".toList) (some "x\\".toList) (some "i".toList) : Kind Selector) := hagree
  simp at hcaptured

end Token

end CssSelectors
