import CssSelectors.Proofs.Grammar.Uncovering
import CssSelectors.Proofs.Token.Tiling

namespace CssSelectors

open Pattern Grammar Masked Text

namespace Piece

-- The content of a token reads as a token of its kind, unless a line feed comes to light in it.
theorem exists_read? {p : Piece} (hp : p.layers.Linked) (hfound : p.word.Found) (hline : '\n' ∉ p.source) :
    ∃ kind, p.tag.read? p.content = some kind := by
  cases hdelimits : p.tag.delimits with
  | true => exact ⟨p.kind, Token.read?_bare hdelimits (p.shape_source hdelimits hp hfound)⟩
  | false =>
    obtain ⟨rest, hun, hfront⟩ := hfound
    have hmatches : (pattern plainArgument p.tag).Matches p.source :=
      matches_of_veils hp.veils hun.of_append_left hline (Tag.matches_of_front? hfront)
    obtain ⟨reached, hreached⟩ := Option.isSome_iff_exists.mp (whole?_isSome_iff.mpr hmatches)
    have hmem := (mem_of_finish? (whole?_eq_finish? _ _ ▸ hreached)).1
    have hsome : (p.tag.kindAt? p.source reached).isSome := Tag.kindAt?_isSome hmem
    obtain ⟨kind, hkind⟩ := Option.isSome_iff_exists.mp hsome
    rw [content_eq_source hdelimits]
    exact ⟨kind, Option.bind_eq_some_iff.mpr ⟨reached, hreached, hkind⟩⟩

theorem source_subset_joined {ps : List Piece} {p : Piece} (h : p ∈ ps) : p.source ⊆ (joined ps).source := by
  obtain ⟨before, after, rfl⟩ := List.append_of_mem h
  intro c hc
  have hmem : c ∈ p.layers.source := hc
  simp [joined, hmem]

end Piece

namespace Token

variable {text : Text} {masked : Masked} {placed : List Token} {token : Token}

theorem exists_of_mem_placedFrom {offset : Nat} {ps : List Piece} (hlinked : ∀ p ∈ ps, p.layers.Linked)
    (h : token ∈ placedFrom offset ps) :
    ∃ before p after, ps = before ++ p :: after ∧ token = p.placed (offset + (Piece.joined before).source.length) := by
  induction ps generalizing offset with
  | nil => cases h
  | cons p ps ih =>
    obtain ⟨hp, hps⟩ := List.forall_mem_cons.mp hlinked
    rcases List.mem_cons.mp h with rfl | h
    · exact ⟨[], p, ps, rfl, rfl⟩
    · obtain ⟨before, q, after, rfl, rfl⟩ := ih hps h
      refine ⟨p :: before, q, after, rfl, ?_⟩
      rw [hp.length_text, Piece.joined, Layers.source_append, List.length_append, Nat.add_assoc]

-- A token that was found while parts of the text were hidden is a token of its kind with these parts put back.
theorem exists_read?_unmask (hline : '\n' ∉ text) (hmasked : Masked.ofText text.trim = .ok masked)
    (hplaced : place text.trim 0 (Fragment.ofText masked.text) = .ok placed) (hmem : token ∈ placed) :
    ∃ kind, token.tag.read? (masked.unmask token).1.content = some kind := by
  obtain ⟨ps, hreading, rfl, rfl⟩ := exists_reading hmasked hplaced
  obtain ⟨before, p, after, rfl, rfl⟩ := exists_of_mem_placedFrom hreading.linked hmem
  have hp : p ∈ before ++ p :: after := List.mem_append_right before List.mem_cons_self
  obtain ⟨hbefore, hlinked⟩ := List.forall_mem_append.mp hreading.linked
  obtain ⟨hplinked, hafter⟩ := List.forall_mem_cons.mp hlinked
  have hjoined : Layers.ofText text.trim = Piece.joined before ++ p.layers ++ Piece.joined after := by
    rw [hreading.layers_eq, Piece.joined_append, Piece.joined, Layers.append_assoc]
  have hall : (Piece.joined before ++ p.layers ++ Piece.joined after).Linked := hjoined ▸ Layers.linked_ofText text.trim
  rw [Nat.zero_add, Piece.unmask_placed hall (Piece.linked_joined hbefore) hplinked (hreading.found p hp)
    (by rw [hjoined])]
  refine Piece.exists_read? hplinked (hreading.found p hp) fun hfeed => hline (mem_of_mem_trim ?_)
  rw [← hreading.source_joined]
  exact Piece.source_subset_joined hp hfeed

-- Every combinator that is found is one that can be read, whatever stands in the text.
theorem exists_combinator {tokens : List Token} (h : ofText text = .ok tokens) (hmem : token ∈ tokens)
    (hcombinator : token.isCombinator = true) : ∃ combinator, Combinator.ofText? token.content = some combinator := by
  have hcontent := ((tiles_of_ofText h).2 token hmem).combinator hcombinator
  rcases (by simpa using hcontent : _ ∨ _ ∨ _ ∨ _) with hsymbol | hsymbol | hsymbol | hsymbol <;> rw [hsymbol] <;>
    exact ⟨_, rfl⟩

end Token

end CssSelectors
