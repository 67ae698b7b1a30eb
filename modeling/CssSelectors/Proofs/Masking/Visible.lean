import CssSelectors.Proofs.Masking.Layers

namespace CssSelectors

open Masked

namespace Masked

theorem shown_sweep_escape (d : Char) (rest : Text) : shown (Text.sweep escapeAt ('\\' :: d :: rest)) =
    Cover.escape.char :: Cover.escape.char :: shown (rest.sweep escapeAt) := by
  have hoffer : escapeAt '\\' (d :: rest) = some (some (List.replicate 2 Cover.escape.char), 1) := rfl
  rw [Text.sweep_cons_of_some hoffer, shown_cons]
  rfl

theorem shown_sweep_cons {c : Char} {rest : Text} (h : ∀ d more, c = '\\' → rest = d :: more → False) :
    shown (Text.sweep escapeAt (c :: rest)) = c :: shown (rest.sweep escapeAt) := by
  have hnone : escapeAt c rest = none := by
    refine escapeAt_eq_none.mpr fun hc => ?_
    cases rest with
    | nil => rfl
    | cons d more => exact (h d more hc rfl).elim
  rw [Text.sweep_cons_of_none hnone, shown_cons]
  rfl

-- The first sweep leaves no escape in sight.
theorem unescaped_shown_escapes (text : Text) : (shown (text.sweep escapeAt)).Unescaped := by
  induction text using Text.sweep_induction escapeAt with
  | nil => exact Text.unescaped_nil
  | loose c rest hoffer ih =>
    rw [Text.sweep_cons_of_none hoffer, shown_cons]
    by_cases hc : c = '\\'
    · rw [escapeAt_eq_none.mp hoffer hc]
      exact Text.unescaped_singleton c
    · exact .cons hc ih
  | taken c rest item more hoffer ih =>
    obtain ⟨-, -, rfl, -⟩ := escapeAt_eq_some.mp hoffer
    rw [Text.sweep_cons_of_some hoffer, shown_cons]
    exact .append (by simp [Swept.shown, Cover.char]) ih

-- A sweep that shows no backslash of its own brings none into sight.
theorem unescaped_shown {parts : Hidden} (hfits : ∀ part ∈ parts, part.Fits)
    (htaken : ∀ item text, .taken item text ∈ parts → '\\' ∉ (Swept.taken item text).shown)
    (h : Text.Unescaped (parts.flatMap Swept.source)) : (shown parts).Unescaped := by
  induction parts with
  | nil => exact Text.unescaped_nil
  | cons part parts ih =>
    have hmore := fun p hp => hfits p (List.mem_cons_of_mem part hp)
    have hrest := ih hmore (fun item text hp => htaken item text (List.mem_cons_of_mem part hp)) h.of_append_right
    rw [shown_cons]
    cases part with
    | taken item text => exact .append (htaken item text List.mem_cons_self) hrest
    | loose c =>
      by_cases hc : c = '\\'
      · subst hc
        have hnil : parts.flatMap Swept.source = [] := h.eq_nil_of_backslash
        have hshown : shown parts = [] := List.length_eq_zero_iff.mp (by rw [length_shown hmore, hnil]; rfl)
        rw [hshown]
        exact Text.unescaped_singleton '\\'
      · exact .cons hc hrest

theorem backslash_notMem_inside {opening closing : Char} {cover : Cover} {body : Text}
    (hopening : opening ≠ '\\') (hclosing : closing ≠ '\\') : '\\' ∉ inside opening closing cover body := by
  have hcover : '\\' ≠ cover.char := by cases cover <;> decide
  simp [inside, hopening.symm, hclosing.symm, hcover]

end Masked

namespace Layers

-- A masked text has no escape in sight.
theorem unescaped_text_ofText (text : Text) : (ofText text).text.Unescaped := by
  have h := linked_ofText text
  have hescapes : (shown (ofText text).escapes).Unescaped := unescaped_shown_escapes text
  have hstrings : (shown (ofText text).strings).Unescaped := by
    refine unescaped_shown h.fits_strings (fun item body hp => ?_) (h.strings_eq ▸ hescapes)
    obtain ⟨c, hc⟩ | ⟨quote, body, hquote, _, _, _, hpart⟩ := h.isString _ hp
    · simp at hc
    · rw [hpart, Swept.IsString.eq_inside]
      have hne : quote ≠ '\\' := by
        rintro rfl
        simp [isQuote] at hquote
      exact backslash_notMem_inside hne hne
  refine unescaped_shown h.fits_groups (fun item body hp => ?_) (h.groups_eq ▸ hstrings)
  obtain ⟨c, hc⟩ | ⟨body, _, hpart⟩ := h.isGroup _ hp
  · simp at hc
  · rw [hpart]
    exact backslash_notMem_inside (by decide) (by decide)

private theorem mem_of_mem_shown {parts : Hidden} {c : Char}
    (h : ∀ part ∈ parts, c ∈ part.shown → c ∈ part.source) (hc : c ∈ shown parts) :
    c ∈ parts.flatMap Swept.source := by
  rw [shown_eq_flatMap] at hc
  obtain ⟨part, hpart, hc⟩ := List.mem_flatMap.mp hc
  exact List.mem_flatMap.mpr ⟨part, hpart, h part hpart hc⟩

private theorem mem_of_mem_inside {opening closing c : Char} {cover : Cover} {body : Text} (hcover : isCover c = false)
    (h : c ∈ inside opening closing cover body) : c ∈ opening :: body ++ [closing] := by
  simp only [inside, List.cons_append, List.mem_cons, List.mem_append, List.mem_replicate, List.not_mem_nil,
    or_false] at h ⊢
  rcases h with rfl | ⟨_, rfl⟩ | rfl
  · exact .inl rfl
  · simp [isCover_char] at hcover
  · exact .inr (.inr rfl)

-- Masking brings nothing into sight but covers.
theorem Linked.mem_source_of_mem_escapes {l : Layers} (h : l.Linked) {c : Char} (hcover : isCover c = false)
    (hc : c ∈ shown l.escapes) : c ∈ l.source := by
  refine mem_of_mem_shown (fun part hpart hmem => ?_) hc
  obtain ⟨d, rfl⟩ | ⟨d, rfl⟩ := h.isEscape part hpart
  · exact hmem
  · obtain ⟨_, rfl⟩ := List.mem_replicate.mp hmem
    simp [isCover_char] at hcover

theorem Linked.mem_source_of_mem_text {l : Layers} (h : l.Linked) {c : Char} (hcover : isCover c = false)
    (hc : c ∈ l.text) : c ∈ l.source := by
  have hgroups : c ∈ l.groups.flatMap Swept.source := by
    refine mem_of_mem_shown (fun part hpart hmem => ?_) hc
    obtain ⟨d, rfl⟩ | ⟨body, _, rfl⟩ := h.isGroup part hpart
    · exact hmem
    · exact mem_of_mem_inside hcover hmem
  rw [h.groups_eq] at hgroups
  have hstrings : c ∈ l.strings.flatMap Swept.source := by
    refine mem_of_mem_shown (fun part hpart hmem => ?_) hgroups
    obtain ⟨d, rfl⟩ | ⟨quote, body, _, _, _, _, rfl⟩ := h.isString part hpart
    · exact hmem
    · rw [Swept.IsString.eq_inside] at hmem
      exact mem_of_mem_inside hcover hmem
  rw [h.strings_eq] at hstrings
  exact h.mem_source_of_mem_escapes hcover hstrings

end Layers

end CssSelectors
