import CssSelectors.Proofs.Fragment.Passes

namespace CssSelectors

open Pattern Grammar

namespace Tag

-- No stretch of a text is a token of some kind, as long as its hidden parts are covered.
def MissingFrom (tag : Tag) (text : Text) : Prop :=
  ∀ taken, taken <:+: text → ¬(pattern coveredArgument tag).Matches taken

variable {tag : Tag} {text part : Text}

theorem MissingFrom.mono (h : tag.MissingFrom text) (hpart : part <:+: text) : tag.MissingFrom part :=
  fun taken htaken => h taken (htaken.trans hpart)

-- A token at the front of a text is there whatever the text goes on with, though it may be longer.
theorem front?_isSome_append (h : (tag.front? text).isSome) (more : Text) : (tag.front? (text ++ more)).isSome := by
  obtain ⟨taken, rest, rfl, hmatches⟩ := front?_isSome_iff.mp h
  exact front?_isSome_iff.mpr ⟨taken, rest ++ more, List.append_assoc .., hmatches⟩

-- It is missing if none stands at the front of any end of the text.
theorem missingFrom_iff : tag.MissingFrom text ↔ ∀ a b, text = a ++ b → b ≠ [] → tag.front? b = none := by
  constructor
  · intro h a b hab _
    by_contra hsome
    obtain ⟨taken, rest, rfl, hmatches⟩ := front?_isSome_iff.mp (Option.isSome_iff_ne_none.mpr hsome)
    exact h taken ⟨a, rest, by rw [hab, List.append_assoc]⟩ hmatches
  · rintro h taken ⟨before, after, rfl⟩ hmatches
    have hne : taken ++ after ≠ [] := List.append_ne_nil_of_left_ne_nil (ne_nil_of_matches hmatches) after
    have hsome : (tag.front? (taken ++ after)).isSome := front?_isSome_iff.mpr ⟨taken, after, rfl, hmatches⟩
    rw [h before (taken ++ after) (List.append_assoc ..) hne] at hsome
    cases hsome

-- To end a text sooner brings no token into it.
theorem missingFrom_of_append {rest : Text} (h : ∀ a b, text = a ++ b → b ≠ [] → tag.front? (b ++ rest) = none) :
    tag.MissingFrom text := by
  refine missingFrom_iff.mpr fun a b hab hb => ?_
  by_contra hsome
  have hlonger := front?_isSome_append (Option.isSome_iff_ne_none.mpr hsome) rest
  rw [h a b hab hb] at hlonger
  cases hlonger

end Tag

namespace Fragment

variable {tag : Tag} {tags : List Tag} {text u w : Text} {fragments : List Fragment} {kind : Kind Selector}

theorem text_infix {fragment : Fragment} (h : fragment ∈ fragments) :
    fragment.text <:+: fragments.flatMap Fragment.text := by
  obtain ⟨before, after, rfl⟩ := List.append_of_mem h
  exact ⟨before.flatMap Fragment.text, after.flatMap Fragment.text, by simp⟩

namespace Cutting

theorem flatMap_text (h : Cutting tag text fragments) : fragments.flatMap Fragment.text = text := by
  induction h with
  | nil => rfl
  | cut _ _ ih => rw [List.flatMap_cons, ih, Fragment.text]
  | uncut _ _ _ _ ih => rw [List.flatMap_cons, ih, Fragment.text]

-- What is cut is a token,
theorem of_mem_cut (h : Cutting tag text fragments) (hmem : .cut kind w ∈ fragments) :
    kind.tag = tag ∧ ∃ rest, tag.front? (w ++ rest) = some (kind, w.length) := by
  induction h with
  | nil => simp at hmem
  | @cut kind' w' rest fragments hfront _ ih =>
    rcases List.mem_cons.mp hmem with heq | hmem
    · obtain ⟨rfl, rfl⟩ := Fragment.cut.inj heq
      exact ⟨Tag.tag_of_front? hfront, rest, hfront⟩
    · exact ih hmem
  | uncut _ _ _ _ ih => exact ih (by simpa using hmem)

-- and what is left uncut is not empty and holds none.
theorem of_mem_uncut (h : Cutting tag text fragments) (hmem : .uncut u ∈ fragments) : u ≠ [] ∧ tag.MissingFrom u := by
  induction h with
  | nil => simp at hmem
  | cut _ _ ih => exact ih (by simpa using hmem)
  | @uncut u' rest fragments hne hnone _ _ ih =>
    rcases List.mem_cons.mp hmem with heq | hmem
    · obtain rfl := Fragment.uncut.inj heq
      exact ⟨hne, Tag.missingFrom_of_append hnone⟩
    · exact ih hmem

end Cutting

theorem flatMap_text_cutOut (tag : Tag) (fragment : Fragment) :
    (cutOut tag fragment).flatMap Fragment.text = fragment.text := by
  cases fragment with
  | uncut text => exact (cutting_cutOut tag text).flatMap_text
  | cut kind content => simp [cutOut]

-- What passes have made of a text: the fragments make it up, those that are cut are tokens of the kinds that
-- were looked for, and those that are not hold no token of any of them.
structure Passed (tags : List Tag) (text : Text) (fragments : List Fragment) : Prop where
  flatMap_text : fragments.flatMap Fragment.text = text
  cut : ∀ kind w, .cut kind w ∈ fragments →
    kind.tag ∈ tags ∧ ∃ rest, kind.tag.front? (w ++ rest) = some (kind, w.length)
  uncut : ∀ u, .uncut u ∈ fragments → ∀ tag ∈ tags, tag.MissingFrom u

-- One more pass cuts what is left uncut, and no part of that holds a token that the whole does not.
theorem Passed.flatMap_cutOut (h : Passed tags text fragments) (tag : Tag) :
    Passed (tags ++ [tag]) text (fragments.flatMap (cutOut tag)) where
  flatMap_text := by
    simp only [List.flatMap_assoc, flatMap_text_cutOut, h.flatMap_text]
  cut := by
    intro kind w hmem
    obtain ⟨fragment, hfragment, hmem⟩ := List.mem_flatMap.mp hmem
    cases fragment with
    | cut kind' w' =>
      obtain ⟨rfl, rfl⟩ : kind = kind' ∧ w = w' := by simpa [cutOut] using hmem
      obtain ⟨htag, hfront⟩ := h.cut kind w hfragment
      exact ⟨List.mem_append_left _ htag, hfront⟩
    | uncut v =>
      obtain ⟨rfl, hfront⟩ := (cutting_cutOut tag v).of_mem_cut hmem
      exact ⟨by simp, hfront⟩
  uncut := by
    intro u hmem
    obtain ⟨fragment, hfragment, hmem⟩ := List.mem_flatMap.mp hmem
    cases fragment with
    | cut kind w => simp [cutOut] at hmem
    | uncut v =>
      have hcutting := cutting_cutOut tag v
      have hinfix : u <:+: v := by
        have hpart := text_infix hmem
        rwa [hcutting.flatMap_text] at hpart
      refine List.forall_mem_append.mpr ⟨fun earlier hearlier => ?_, ?_⟩
      · exact (h.uncut v hfragment earlier hearlier).mono hinfix
      · simpa using (hcutting.of_mem_uncut hmem).2

-- So it is after any number of passes.
theorem Passed.passes {done : List Tag} (h : Passed done text fragments) (tags : List Tag) :
    Passed (done ++ tags) text (Fragment.passes tags fragments) := by
  induction tags generalizing done fragments with
  | nil => rwa [List.append_nil]
  | cons tag tags ih =>
    have hnext := ih (h.flatMap_cutOut tag)
    rwa [List.append_assoc, List.singleton_append] at hnext

theorem passed_passes (tags : List Tag) (text : Text) : Passed tags text (passes tags [uncut text]) := by
  have hstart : Passed [] text [uncut text] := ⟨by simp [Fragment.text], by simp, by simp⟩
  exact hstart.passes tags

theorem ne_nil_of_uncut_mem_passes (hne : tags ≠ []) (h : .uncut u ∈ passes tags fragments) : u ≠ [] := by
  obtain ⟨before, last, rfl⟩ := (List.eq_nil_or_concat tags).resolve_left hne
  rw [List.concat_eq_append, passes_append_tags] at h
  obtain ⟨fragment, -, hmem⟩ := List.mem_flatMap.mp h
  cases fragment with
  | cut kind w => simp [cutOut] at hmem
  | uncut v => exact ((cutting_cutOut last v).of_mem_uncut hmem).1

-- To make the same passes over what they have left changes nothing.
theorem passes_of_uncut_mem (h : .uncut u ∈ passes tags [uncut text]) : passes tags [uncut u] = [uncut u] := by
  cases tags with
  | nil => rfl
  | cons tag tags =>
    refine passes_eq_self (ne_nil_of_uncut_mem_passes (List.cons_ne_nil tag tags) h) fun other hother => ?_
    exact Tag.missingFrom_iff.mp ((passed_passes _ text).uncut u h other hother)

end Fragment

end CssSelectors
