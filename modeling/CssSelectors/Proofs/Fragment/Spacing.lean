import CssSelectors.Proofs.Fragment.Repassing
import Mathlib.Data.List.Chain

namespace CssSelectors

open Unicode Grammar Text

namespace Word

variable {u v : Word} {us vs : List Word}

-- A combinator that is blanks alone.
def IsGap (word : Word) : Prop := word.tag = .combinator ∧ word.text.IsBlank

-- Blanks that count by themselves next to a delimiter, although that could have taken them.
def Clash (u v : Word) : Prop := u.tag.delimits = true ∧ v.IsGap ∨ u.IsGap ∧ v.tag.delimits = true

theorem Clash.delimits (h : Clash u v) : u.tag.delimits = true ∧ v.tag.delimits = true := by
  rcases h with ⟨hu, htag, -⟩ | ⟨⟨htag, -⟩, hv⟩
  · exact ⟨hu, by rw [htag]; rfl⟩
  · exact ⟨by rw [htag]; rfl, hv⟩

-- A delimiter takes all blanks after it, and a combinator the symbol after these.
theorem not_clash_of_front? (hfront : u.tag.front? (u.text ++ textOf (v :: vs)) = some (u.kind, u.text.length))
    (hshape : v.tag.Shape v.text) (hpriority : u.tag.priority ≤ v.tag.priority) : ¬Clash u v := by
  intro hclash
  obtain ⟨c, text, htext⟩ := List.exists_cons_of_ne_nil hshape.ne_nil
  have hhead : c ∈ (textOf (v :: vs)).head? := by rw [textOf_cons, htext]; rfl
  have hblank : isBlank c = false :=
    Tag.head?_rest_of_delimiter (Tag.delimits_iff.mp hclash.delimits.1) hfront c hhead
  rcases hclash with ⟨-, -, hgap⟩ | ⟨⟨htag, hgap⟩, hdelimits⟩
  · simp [hgap c (by rw [htext]; exact List.mem_cons_self)] at hblank
  · have hnext : v.tag = .combinator := by
      rw [htag] at hpriority
      revert hpriority hdelimits
      cases v.tag <;> decide
    rw [htag] at hfront
    have hsymbol : isSymbol c = false := Tag.head?_rest_of_blanks hgap hfront c hhead
    have hopens : Tag.combinator.opens c = true := hnext ▸ hshape.opens c (by rw [htext]; rfl)
    simp [Tag.opens, hblank, hsymbol] at hopens

-- A comma would have begun at the blanks that stand before it.
theorem not_clash_of_none (hu : u.tag.Shape u.text) (hv : v.tag.Shape v.text) (hun : v.text.Unescaped)
    (hpriority : v.tag.priority < u.tag.priority)
    (hnone : ∀ a b, textOf (us ++ [u]) = a ++ b → b ≠ [] → v.tag.front? (b ++ textOf (v :: vs)) = none) :
    ¬Clash u v := by
  rintro (⟨hdelimits, htag, -⟩ | ⟨⟨htag, hgap⟩, hdelimits⟩)
  · -- No kind of delimiter comes after the combinators.
    rw [htag] at hpriority
    revert hpriority hdelimits
    cases u.tag <;> decide
  · have hcomma : v.tag = .comma := by
      rw [htag] at hpriority
      revert hpriority hdelimits
      cases v.tag <;> decide
    rw [hcomma] at hv hnone
    obtain ⟨text, c, htext⟩ := (List.eq_nil_or_concat u.text).resolve_left hu.ne_nil
    rw [List.concat_eq_append] at htext
    have hblank : isBlank c = true := hgap c (by rw [htext]; simp)
    have hsome := Tag.front?_comma_isSome hun hv hblank (textOf vs)
    have hsplit : textOf (us ++ [u]) = textOf us ++ text ++ [c] := by simp [htext]
    rw [← textOf_cons, ← List.singleton_append, hnone _ [c] hsplit (List.cons_ne_nil c [])] at hsome
    cases hsome

end Word

namespace Fragment

variable {tag : Tag} {tags : List Tag} {text : Text} {words : List Word}

private theorem isChain_of_cutting (hlater : ∀ later ∈ tags, tag.priority < later.priority)
    (ih : ∀ {text : Text} {words : List Word}, text.Unescaped → passes tags [uncut text] = words.map Word.fragment →
      words.IsChain fun u v => ¬Word.Clash u v)
    {fragments : List Fragment} (hcutting : Cutting tag text fragments) (hun : text.Unescaped)
    (h : passes tags fragments = words.map Word.fragment) : words.IsChain fun u v => ¬Word.Clash u v := by
  induction hcutting generalizing words with
  | nil =>
    obtain rfl : words = [] := by simpa using h.symm
    exact .nil
  | @cut kind w rest fragments hfront hrest ihrest =>
    obtain ⟨word, words, rfl, rfl, rfl, hmore⟩ := exists_of_passes_cut_cons h
    have hkind : word.tag = tag := Tag.tag_of_front? hfront
    have hcovered := covered_of_cutting covered_of_passes hrest hun.of_append_right hmore
    refine List.isChain_cons.mpr ⟨fun next hnext => ?_, ihrest hun.of_append_right hmore⟩
    obtain ⟨more, rfl⟩ := List.head?_eq_some_iff.mp hnext
    rw [← hcovered.textOf_eq, ← hkind] at hfront
    refine Word.not_clash_of_front? hfront (hcovered.found next List.mem_cons_self).shape ?_
    rw [hkind]
    rcases List.mem_cons.mp (hcovered.tag_mem next List.mem_cons_self) with heq | hmem
    · rw [heq]
    · exact (hlater _ hmem).le
  | @uncut u rest fragments hne hnone hnext hrest ihrest =>
    obtain ⟨us, vs, rfl, hus, hvs⟩ := exists_of_passes_uncut_cons h
    have hu := covered_of_passes hun.of_append_left hus
    have hv := covered_of_cutting covered_of_passes hrest hun.of_append_right hvs
    refine List.isChain_append.mpr ⟨ih hun.of_append_left hus, ihrest hun.of_append_right hvs, ?_⟩
    intro last hlast first hfirst
    have htag : first.tag = tag := hrest.tag_of_head? hnext hvs first hfirst
    obtain ⟨us, rfl⟩ := List.getLast?_eq_some_iff.mp hlast
    obtain ⟨vs, rfl⟩ := List.head?_eq_some_iff.mp hfirst
    have hlastFound := hu.found last (by simp)
    have hfirstFound := hv.found first List.mem_cons_self
    rw [← hu.textOf_eq, ← hv.textOf_eq, ← htag] at hnone
    refine Word.not_clash_of_none hlastFound.shape hfirstFound.shape hfirstFound.unescaped ?_ hnone
    rw [htag]
    exact hlater _ (hu.tag_mem last (by simp))

-- In a text that is cut throughout, blanks next to a delimiter belong to it.
theorem isChain_of_passes (htags : tags.Pairwise fun a b => a.priority < b.priority) (hun : text.Unescaped)
    (h : passes tags [uncut text] = words.map Word.fragment) : words.IsChain fun u v => ¬Word.Clash u v := by
  induction tags generalizing text words with
  | nil => exact absurd h (uncut_ne_words text words)
  | cons tag tags ih =>
    obtain ⟨hlater, htags⟩ := List.pairwise_cons.mp htags
    rw [passes_cons_uncut] at h
    exact isChain_of_cutting hlater (ih htags) (cutting_cutOut tag text) hun h

end Fragment

end CssSelectors
