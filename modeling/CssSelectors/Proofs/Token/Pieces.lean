import CssSelectors.Proofs.Fragment.Passes
import CssSelectors.Proofs.Masking.Visible
import CssSelectors.Proofs.Token.Delimiters

namespace CssSelectors

open Masked Text

theorem Word.not_tiedAt {word : Word} {words : List Word} (hword : word.Found) (hwords : ∀ w ∈ words, w.Found)
    (h : ¬CoversAt word.text (Word.textOf words)) : ¬TiedAt word.text (Word.textOf words) := by
  rintro ⟨a, ha, b, hb, htied⟩
  have hclose := Tag.of_closes (hword.shape.closes a ha)
  have hopen : b ≠ ')' ∧ isQuote b = false := by
    cases words with
    | nil => simp at hb
    | cons next words =>
      have hnext := (hwords next List.mem_cons_self).shape
      obtain ⟨c, text, htext⟩ := List.exists_cons_of_ne_nil hnext.ne_nil
      rw [Word.textOf_cons, htext] at hb
      have hopens := Tag.of_opens (hnext.opens b (by rw [htext]; exact hb))
      exact ⟨hopens.1, hopens.2.1⟩
  rcases htied with hcovers | hparen | hquote | hparen | hquote
  · exact h ⟨a, ha, b, hb, hcovers⟩
  · exact hclose.1 hparen
  · simp [hclose.2.1] at hquote
  · exact hopen.1 hparen
  · simp [hopen.2] at hquote

-- A token together with what the sweeps made of its text.
structure Piece where
  kind : Kind Selector
  layers : Layers

namespace Piece

def tag (p : Piece) : Tag := p.kind.tag

def word (p : Piece) : Word := ⟨p.kind, p.layers.text⟩

def source (p : Piece) : Text := p.layers.source

-- The content that the token has in the end.
def content (p : Piece) : Text := Token.normalize p.kind p.source

-- The token, if its content reads, from some offset on.
def token? (offset : Nat) (p : Piece) : Option Token :=
  (p.tag.read? p.content).map fun kind => ⟨kind, p.content, offset, offset + p.source.length⟩

def tokensFrom? : Nat → List Piece → Option (List Token)
  | _, [] => some []
  | offset, p :: ps => do
    let token ← p.token? offset
    let tokens ← tokensFrom? (offset + p.source.length) ps
    return token :: tokens

theorem tokensFrom?_cons_eq_some {offset : Nat} {p : Piece} {ps : List Piece} {tokens : List Token} :
    tokensFrom? offset (p :: ps) = some tokens ↔
      ∃ token more, p.token? offset = some token ∧ tokensFrom? (offset + p.source.length) ps = some more ∧
        token :: more = tokens := by
  simp [tokensFrom?, Option.bind_eq_some_iff]

def joined : List Piece → Layers
  | [] => 0
  | p :: ps => p.layers ++ joined ps

@[simp] theorem joined_append (ps qs : List Piece) : joined (ps ++ qs) = joined ps ++ joined qs := by
  induction ps with
  | nil => simp [joined]
  | cons p ps ih => simp [joined, ih, Layers.append_assoc]

theorem strings_joined (ps : List Piece) : (joined ps).strings = ps.flatMap fun p => p.layers.strings := by
  induction ps with
  | nil => rfl
  | cons p ps ih => rw [joined, Layers.strings_append, ih, List.flatMap_cons]

theorem tokensFrom?_append_eq_some {offset : Nat} {us vs : List Piece} {tokens : List Token} :
    tokensFrom? offset (us ++ vs) = some tokens ↔ ∃ before after, tokensFrom? offset us = some before ∧
      tokensFrom? (offset + (joined us).source.length) vs = some after ∧ before ++ after = tokens := by
  induction us generalizing offset tokens with
  | nil => simp [tokensFrom?, joined]
  | cons p us ih =>
    have hnext : offset + (joined (p :: us)).source.length = offset + p.source.length + (joined us).source.length := by
      rw [joined, Layers.source_append, List.length_append, source, Nat.add_assoc]
    rw [List.cons_append, hnext]
    simp only [tokensFrom?_cons_eq_some, ih]
    constructor
    · rintro ⟨token, _, htoken, ⟨before, after, hbefore, hafter, rfl⟩, rfl⟩
      exact ⟨token :: before, after, ⟨token, before, htoken, hbefore, rfl⟩, hafter, rfl⟩
    · rintro ⟨_, after, ⟨token, before, htoken, hbefore, rfl⟩, hafter, rfl⟩
      exact ⟨token, before ++ after, htoken, ⟨before, after, hbefore, hafter, rfl⟩, rfl⟩

theorem linked_joined {ps : List Piece} (h : ∀ p ∈ ps, p.layers.Linked) : (joined ps).Linked := by
  induction ps with
  | nil => exact .zero
  | cons p ps ih => exact (h p List.mem_cons_self).append (ih fun q hq => h q (List.mem_cons_of_mem p hq))

-- A masked text that falls into words falls into pieces.
theorem exists_of_words {l : Layers} (hl : l.Linked) {words : List Word} (htext : l.text = Word.textOf words)
    (hfound : ∀ word ∈ words, word.Found) (hparted : Word.Parted words) :
    ∃ ps : List Piece, l = joined ps ∧ (∀ p ∈ ps, p.layers.Linked) ∧ ps.map word = words := by
  induction words generalizing l with
  | nil => exact ⟨[], hl.eq_zero htext, by simp, rfl⟩
  | cons word words ih =>
    obtain ⟨hword, hwords⟩ := List.forall_mem_cons.mp hfound
    obtain ⟨l₁, l₂, rfl, hl₁, hl₂, htext₁, htext₂⟩ :=
      hl.exists_append htext (Word.not_tiedAt hword hwords hparted.1)
    obtain ⟨ps, rfl, hlinked, hps⟩ := ih hl₂ htext₂ hwords hparted.2
    refine ⟨⟨word.kind, l₁⟩ :: ps, rfl, List.forall_mem_cons.mpr ⟨hl₁, hlinked⟩, ?_⟩
    rw [List.map_cons, hps, Piece.word, htext₁]

-- How a trimmed selector falls into the pieces of its tokens.
structure Reading (source : Text) (ps : List Piece) : Prop where
  layers_eq : Layers.ofText source = joined ps
  balanced : imbalanceFrom 0 (Layers.ofText source).groups = none
  linked : ∀ p ∈ ps, p.layers.Linked
  fragments_eq : Fragment.ofText (Layers.ofText source).text = (ps.map word).map Word.fragment

theorem Reading.source_joined {source : Text} {ps : List Piece} (h : Reading source ps) : (joined ps).source = source := by
  rw [← h.layers_eq, Layers.source_ofText]

theorem Reading.found {source : Text} {ps : List Piece} (h : Reading source ps) : ∀ p ∈ ps, p.word.Found := by
  intro p hp
  have hcovered := Fragment.covered_of_passes (Layers.unescaped_text_ofText source) h.fragments_eq
  exact hcovered.found p.word (List.mem_map_of_mem hp)

-- Every text that is cut throughout has such pieces, one for each word.
theorem exists_reading_of_words {source : Text} (hbalanced : imbalanceFrom 0 (Layers.ofText source).groups = none)
    {words : List Word} (hwords : Fragment.ofText (Layers.ofText source).text = words.map Word.fragment) :
    ∃ ps : List Piece, Reading source ps ∧ ps.map word = words := by
  have hcovered := Fragment.covered_of_passes (Layers.unescaped_text_ofText source) hwords
  obtain ⟨ps, hlayers, hlinked, rfl⟩ := exists_of_words (Layers.linked_ofText source) hcovered.textOf_eq.symm
    hcovered.found hcovered.parted
  exact ⟨ps, ⟨hlayers, hbalanced, hlinked, hwords⟩, rfl⟩

-- The token of a piece before what it hides is put back.
def placed (offset : Nat) (p : Piece) : Token :=
  ⟨p.kind, Token.normalize p.kind p.layers.text, offset, offset + p.layers.text.length⟩

theorem content_eq_source {p : Piece} (h : p.tag.delimits = false) : p.content = p.source :=
  Token.normalize_of_not_delimits h p.source

theorem token?_of_not_delimits {p : Piece} (h : p.tag.delimits = false) {kind : Kind Selector}
    (hread : p.tag.read? p.source = some kind) (offset : Nat) :
    p.token? offset = some ⟨kind, p.source, offset, offset + p.source.length⟩ := by
  rw [token?, content_eq_source h, hread]
  rfl

-- Unmasking gives each token its content.
theorem unmask_placed {a c : Layers} {p : Piece} (h : (a ++ p.layers ++ c).Linked) (ha : a.Linked)
    (hp : p.layers.Linked) (hfound : p.word.Found) {masked : Masked}
    (hmasked : masked.replacements = (a ++ p.layers ++ c).replacementsFrom 0) :
    (masked.unmask (p.placed a.source.length)).1 = { p.placed a.source.length with content := p.content } := by
  rw [fst_unmask, hmasked]
  have hstop : (p.placed a.source.length).stop = (p.placed a.source.length).start + p.layers.source.length := by
    rw [← hp.length_text]
    rfl
  cases hdelimits : p.tag.delimits with
  | false =>
    rw [content_eq_source hdelimits]
    exact Layers.foldr_putBack_text h ha hp rfl hstop (Token.normalize_of_not_delimits hdelimits _)
  | true =>
    have hbare := hp.bare (hfound.shape.inert hdelimits)
    rw [Layers.foldr_putBack_bare h ha hp hbare rfl hstop, content, source, ← hbare.groups.1]
    rfl

-- Where the content is what the word was, the word has already said what the token says.
theorem read?_content {p : Piece} (hfound : p.word.Found) (h : p.content = Token.normalize p.kind p.layers.text) :
    p.tag.read? p.content = some p.kind := by
  rw [h]
  cases hdelimits : p.tag.delimits with
  | false =>
    rw [Token.normalize_of_not_delimits hdelimits]
    exact hfound.read?
  | true => exact Token.read?_bare hdelimits hfound.shape

end Piece

end CssSelectors
