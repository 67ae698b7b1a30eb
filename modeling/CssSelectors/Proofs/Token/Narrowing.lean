import CssSelectors.Proofs.Fragment.Narrowing
import CssSelectors.Proofs.Token.Tiling

namespace CssSelectors

open Masked Unicode Text Grammar

namespace Piece

-- The piece with its content for source.
def narrow (p : Piece) : Piece := if p.tag.delimits then ⟨p.kind, .loose p.content⟩ else p

def narrowAll (ps : List Piece) : List Piece := ps.map narrow

@[simp] theorem narrowAll_cons (p : Piece) (ps : List Piece) : narrowAll (p :: ps) = p.narrow :: narrowAll ps := rfl

variable {p : Piece}

theorem narrow_of_delimits (h : p.tag.delimits = true) : p.narrow = ⟨p.kind, .loose p.content⟩ := if_pos h

theorem narrow_eq_self (h : p.tag.delimits = false) : p.narrow = p := if_neg (by simp [h])

@[simp] theorem kind_narrow (p : Piece) : p.narrow.kind = p.kind := by
  unfold narrow
  split <;> rfl

@[simp] theorem tag_narrow (p : Piece) : p.narrow.tag = p.tag := by
  rw [tag, kind_narrow]
  rfl

@[simp] theorem source_narrow (p : Piece) : p.narrow.source = p.content := by
  cases hdelimits : p.tag.delimits with
  | true => simp [narrow_of_delimits hdelimits, source]
  | false => rw [narrow_eq_self hdelimits, content_eq_source hdelimits]

theorem linked_narrow (h : p.layers.Linked) : p.narrow.layers.Linked := by
  unfold narrow
  split
  · exact Layers.linked_loose p.content
  · exact h

-- What a narrowed delimiter is made of.
theorem exists_of_delimits (hdelimits : p.tag.delimits = true) (hp : p.layers.Linked) (hfound : p.word.Found) :
    ∃ c, p.content = [c] ∧ c ∈ [',', ' ', '>', '+', '~'] := by
  have hshape := p.shape_source hdelimits hp hfound
  let wide : Word := ⟨p.kind, p.source⟩
  obtain ⟨c, hc, hopens, _, hd⟩ := Word.narrow_of_delimits (show wide.tag.delimits = true from hdelimits) hshape
  refine ⟨c, hc, ?_⟩
  have hopens : p.tag.opens c = true := hopens
  rcases hd with ⟨_, hblank⟩ | ⟨rfl, _⟩
  · cases htag : p.tag <;> simp only [htag, Tag.delimits, Bool.false_eq_true] at hdelimits
    case comma =>
      have hc : c = ',' := by simpa [htag, Tag.opens, hblank] using hopens
      simp [hc]
    case combinator =>
      have hc : c = '>' ∨ c = '+' ∨ c = '~' := by simpa [htag, Tag.opens, hblank, isSymbol] using hopens
      rcases hc with rfl | rfl | rfl <;> decide
  · decide

-- None of these characters begins or ends what a sweep hides.
theorem plain_of_mem {c : Char} (h : c ∈ [',', ' ', '>', '+', '~']) :
    c ≠ '\\' ∧ isQuote c = false ∧ c ≠ '(' ∧ c ≠ ')' := by
  simp only [List.mem_cons, List.not_mem_nil, or_false] at h
  rcases h with rfl | rfl | rfl | rfl | rfl <;> decide

theorem word_narrow (hp : p.layers.Linked) (hfound : p.word.Found) : p.narrow.word = p.word.narrow := by
  cases hdelimits : p.tag.delimits with
  | false => rw [narrow_eq_self hdelimits, Word.narrow_eq_self (show p.word.tag.delimits = false from hdelimits)]
  | true =>
    have hbare := hp.bare (hfound.shape.inert hdelimits)
    rw [narrow_of_delimits hdelimits, Word.narrow, word, word, Layers.text_loose, content, source, ← hbare.groups.1]

-- To narrow once is enough.
theorem content_narrow (hp : p.layers.Linked) (hfound : p.word.Found) : p.narrow.content = p.content := by
  cases hdelimits : p.tag.delimits with
  | false => rw [narrow_eq_self hdelimits]
  | true =>
    obtain ⟨c, hcontent, hc⟩ := exists_of_delimits hdelimits hp hfound
    rw [content, kind_narrow, source_narrow, hcontent]
    unfold tag at hdelimits
    cases hkind : p.kind <;> simp only [hkind, Kind.tag, Tag.delimits, Bool.false_eq_true] at hdelimits
    all_goals
      simp only [List.mem_cons, List.not_mem_nil, or_false] at hc
      rcases hc with rfl | rfl | rfl | rfl | rfl <;> rfl

-- A delimiter shows no blank unless its source is blank.
theorem isBlank_content (hdelimits : p.tag.delimits = true) (hp : p.layers.Linked) (hfound : p.word.Found)
    (h : ∃ c ∈ p.content, isBlank c = true) : p.source.IsBlank := by
  have hshape := p.shape_source hdelimits hp hfound
  obtain ⟨c, hc, hblank⟩ := h
  have hbare : p.content = Token.normalize.bare p.source := by
    unfold tag at hdelimits
    rw [content]
    cases hkind : p.kind <;> first | rfl | simp [hkind, Kind.tag, Tag.delimits] at hdelimits
  rw [hbare] at hc
  cases htag : p.tag <;> simp only [htag, Tag.delimits, Bool.false_eq_true] at hdelimits
  case comma =>
    rw [Token.bare_of_comma (htag ▸ hshape)] at hc
    obtain rfl := List.mem_singleton.mp hc
    exact absurd hblank (by decide)
  case combinator =>
    rcases Token.bare_of_combinator (htag ▸ hshape) with ⟨hsource, _⟩ | ⟨_, d, _, _, hd, _, _, hbare⟩
    · exact hsource
    · rw [hbare] at hc
      obtain rfl := List.mem_singleton.mp hc
      rw [Token.isBlank_of_isSymbol hd] at hblank
      cases hblank

theorem content_ne_nil (hp : p.layers.Linked) (hfound : p.word.Found) : p.content ≠ [] := by
  cases hdelimits : p.tag.delimits with
  | false =>
    rw [content_eq_source hdelimits]
    exact source_ne_nil hp hfound
  | true =>
    obtain ⟨c, hcontent, _⟩ := exists_of_delimits hdelimits hp hfound
    simp [hcontent]

-- The content of a piece begins and ends with a blank only if its source does.
theorem isBlank_ends (hp : p.layers.Linked) (hfound : p.word.Found) :
    ((∀ c ∈ p.source.head?, isBlank c = false) → ∀ c ∈ p.content.head?, isBlank c = false) ∧
      ((∀ c ∈ p.source.getLast?, isBlank c = false) → ∀ c ∈ p.content.getLast?, isBlank c = false) := by
  cases hdelimits : p.tag.delimits with
  | false => rw [content_eq_source hdelimits]; exact ⟨id, id⟩
  | true =>
    have hblank := isBlank_content hdelimits hp hfound
    have hne := source_ne_nil hp hfound
    constructor
    · intro hhead c hc
      by_contra hcblank
      rw [Bool.not_eq_false] at hcblank
      have hsource := hblank ⟨c, List.mem_of_head? hc, hcblank⟩
      have hfirst := hhead _ (List.head?_eq_some_head hne)
      rw [hsource _ (List.head_mem hne)] at hfirst
      cases hfirst
    · intro hlast c hc
      by_contra hcblank
      rw [Bool.not_eq_false] at hcblank
      have hsource := hblank ⟨c, List.mem_of_getLast? hc, hcblank⟩
      have hfinal := hlast _ (List.getLast?_eq_some_getLast hne)
      rw [hsource _ (List.getLast_mem hne)] at hfinal
      cases hfinal

-- So narrowing leaves a trimmed text trimmed.
theorem trimmed_narrowAll {ps : List Piece} (hlinked : ∀ p ∈ ps, p.layers.Linked) (hfound : ∀ p ∈ ps, p.word.Found)
    (h : Trimmed (joined ps).source) : Trimmed (joined (narrowAll ps)).source where
  head := by
    cases ps with
    | nil => exact h.head
    | cons p ps =>
      have hp := hlinked p List.mem_cons_self
      have hpfound := hfound p List.mem_cons_self
      have hhead := h.head
      rw [joined, Layers.source_append, ← source, List.head?_append_of_ne_nil _ (source_ne_nil hp hpfound)] at hhead
      rw [narrowAll_cons, joined, Layers.source_append, ← source, source_narrow,
        List.head?_append_of_ne_nil _ (content_ne_nil hp hpfound)]
      exact (isBlank_ends hp hpfound).1 hhead
  last := by
    rcases ps.eq_nil_or_concat' with rfl | ⟨before, p, rfl⟩
    · exact h.last
    · have hp := hlinked p (by simp)
      have hpfound := hfound p (by simp)
      have hlast := h.last
      have hjoined (q : Piece) (qs : List Piece) : (joined (qs ++ [q])).source = (joined qs).source ++ q.source := by
        simp [joined, source]
      have hnarrow : narrowAll (before ++ [p]) = narrowAll before ++ [p.narrow] := by simp [narrowAll]
      rw [hjoined, List.getLast?_append_of_ne_nil _ (source_ne_nil hp hpfound)] at hlast
      rw [hnarrow, hjoined, source_narrow, List.getLast?_append_of_ne_nil _ (content_ne_nil hp hpfound)]
      exact (isBlank_ends hp hpfound).2 hlast

theorem linked_narrowAll {ps : List Piece} (h : ∀ p ∈ ps, p.layers.Linked) :
    ∀ p ∈ narrowAll ps, p.layers.Linked := by
  intro q hq
  obtain ⟨p, hp, rfl⟩ := List.mem_map.mp hq
  exact linked_narrow (h p hp)

end Piece

end CssSelectors
