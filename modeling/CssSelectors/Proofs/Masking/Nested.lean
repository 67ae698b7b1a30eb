import CssSelectors.Proofs.Masking.Restoring

namespace CssSelectors

open Masked

namespace Replacement

-- The places that a hidden stretch takes up.
def Spans (r : Replacement) (place : Nat) : Prop := r.offset ≤ place ∧ place < r.stop

instance (r : Replacement) (place : Nat) : Decidable (r.Spans place) :=
  inferInstanceAs (Decidable (r.offset ≤ place ∧ place < r.stop))

-- One hidden stretch lies between the ends of another one.
def Within (r outer : Replacement) : Prop := outer.offset < r.offset ∧ r.stop < outer.stop

-- Of two stretches that share a place, one lies within the other if it has none of its ends.
theorem within_of_spans {r outer : Replacement} {place : Nat} (hr : r.Spans place) (houter : outer.Spans place)
    (hfirst : ¬r.Spans outer.offset) (hlast : ¬r.Spans (outer.stop - 1)) : r.Within outer := by
  unfold Spans at hr houter hfirst hlast
  constructor <;> omega

theorem Spans.exists_add {r : Replacement} {place : Nat} (h : r.Spans place) :
    ∃ k < r.value.length, place = r.offset + k := by
  obtain ⟨hle, hlt⟩ := h
  unfold stop at hlt
  exact ⟨place - r.offset, by omega, by omega⟩

end Replacement

namespace Masked

variable {parts : Hidden} {r : Replacement} {place : Nat}

-- What a hidden stretch was, and what is shown in its place.
theorem exists_cover (hfits : ∀ part ∈ parts, part.Fits) (h : r ∈ hiddenFrom 0 parts) : ∃ cover,
    .taken (some cover) r.value ∈ parts ∧ cover.length = r.value.length ∧
      (∀ k < r.value.length, (parts.flatMap Swept.source)[r.offset + k]? = r.value[k]?) ∧
      ∀ k < r.value.length, (shown parts)[r.offset + k]? = cover[k]? := by
  obtain ⟨P, cover, Q, rfl, hplace⟩ := exists_of_mem_hiddenFrom h
  have hP : (shown P).length = (P.flatMap Swept.source).length :=
    length_shown fun part hpart => hfits part (List.mem_append_left _ hpart)
  have hcover : cover.length = r.value.length := (hfits (.taken (some cover) r.value) (by simp)).length_shown
  rw [Nat.zero_add] at hplace
  refine ⟨cover, by simp, hcover, fun k hk => ?_, fun k hk => ?_⟩
  · rw [List.flatMap_append, hplace, List.getElem?_append_right (Nat.le_add_right ..), Nat.add_sub_cancel_left,
      List.flatMap_cons, Swept.source, List.getElem?_append_left hk]
  · rw [shown_append, hplace, ← hP, List.getElem?_append_right (Nat.le_add_right ..), Nat.add_sub_cancel_left,
      shown_cons, Swept.shown, List.getElem?_append_left (hcover ▸ hk)]

-- Where nothing is hidden, the text stays as it is.
private theorem getElem?_shownFrom {offset : Nat} (hfits : ∀ part ∈ parts, part.Fits)
    (hnone : ∀ r ∈ hiddenFrom offset parts, ¬r.Spans (offset + place)) :
    (shown parts)[place]? = (parts.flatMap Swept.source)[place]? := by
  induction parts generalizing offset place with
  | nil => rfl
  | cons part parts ih =>
    obtain ⟨hpart, hparts⟩ := List.forall_mem_cons.mp hfits
    rw [shown_cons, List.flatMap_cons]
    rcases Nat.lt_or_ge place part.source.length with hlt | hle
    · rw [List.getElem?_append_left hlt, List.getElem?_append_left (hpart.length_shown ▸ hlt)]
      rcases part with c | ⟨_ | cover, value⟩
      · rfl
      · rfl
      · exact absurd ⟨Nat.le_add_right .., Nat.add_lt_add_left hlt offset⟩ (hnone ⟨value, offset⟩ List.mem_cons_self)
    · obtain ⟨further, rfl⟩ := Nat.exists_eq_add_of_le hle
      rw [List.getElem?_append_right hle, List.getElem?_append_right (hpart.length_shown ▸ hle), hpart.length_shown,
        Nat.add_sub_cancel_left]
      have hmore : ∀ r ∈ hiddenFrom (offset + part.source.length) parts, ¬r.Spans (offset + part.source.length + further) := by
        intro r hr
        rw [Nat.add_assoc]
        rcases part with c | ⟨_ | cover, value⟩
        · exact hnone r hr
        · exact hnone r hr
        · exact hnone r (List.mem_cons_of_mem _ hr)
      exact ih hparts hmore

theorem getElem?_shown (hfits : ∀ part ∈ parts, part.Fits) (hnone : ∀ r ∈ hiddenFrom 0 parts, ¬r.Spans place) :
    (shown parts)[place]? = (parts.flatMap Swept.source)[place]? := by
  rw [← Nat.zero_add place] at hnone
  exact getElem?_shownFrom hfits hnone

end Masked

namespace Layers

variable {l : Layers} {r : Replacement} {place : Nat}

-- What the three sweeps hide, and each of them by itself.
theorem mem_replacements_iff : r ∈ l.replacementsFrom 0 ↔
    r ∈ hiddenFrom 0 l.escapes ∨ r ∈ hiddenFrom 0 l.strings ∨ r ∈ hiddenFrom 0 l.groups := by
  simp [replacementsFrom]

-- The first and the last character of a hidden stretch with an opening and a closing one.
theorem ends_of_value {opening closing : Char} {body text : Text} (hvalue : r.value = opening :: body ++ [closing])
    (htext : ∀ k < r.value.length, text[r.offset + k]? = r.value[k]?) :
    text[r.offset]? = some opening ∧ text[r.stop - 1]? = some closing := by
  have hlength : r.value.length = body.length + 1 + 1 := by simp [hvalue]
  have hlast : r.stop - 1 = r.offset + (body.length + 1) := by
    unfold Replacement.stop
    omega
  constructor
  · have hfirst := htext 0 (by omega)
    rwa [hvalue] at hfirst
  · rw [hlast, htext _ (by omega), hvalue, List.cons_append, List.getElem?_cons_succ,
      List.getElem?_append_right (Nat.le_refl _), Nat.sub_self]
    rfl

namespace Linked

-- A sweep leaves the text as it is where it hides nothing.
theorem getElem?_escapes (h : l.Linked) (hnone : ∀ r ∈ hiddenFrom 0 l.escapes, ¬r.Spans place) :
    (shown l.escapes)[place]? = l.source[place]? :=
  getElem?_shown h.fits_escapes hnone

theorem getElem?_strings (h : l.Linked) (hnone : ∀ r ∈ hiddenFrom 0 l.strings, ¬r.Spans place) :
    (shown l.strings)[place]? = (shown l.escapes)[place]? := by
  rw [getElem?_shown h.fits_strings hnone, h.strings_eq]

theorem getElem?_groups (h : l.Linked) (hnone : ∀ r ∈ hiddenFrom 0 l.groups, ¬r.Spans place) :
    (shown l.groups)[place]? = (shown l.strings)[place]? := by
  rw [getElem?_shown h.fits_groups hnone, h.groups_eq]

-- A hidden escape shows covers.
theorem isCover_of_escape (h : l.Linked) (hr : r ∈ hiddenFrom 0 l.escapes) (hplace : r.Spans place) :
    ∃ c, (shown l.escapes)[place]? = some c ∧ isCover c = true := by
  obtain ⟨cover, hmem, hlength, -, hshown⟩ := exists_cover h.fits_escapes hr
  obtain ⟨k, hk, rfl⟩ := hplace.exists_add
  rw [hshown k hk]
  obtain ⟨c, hc⟩ | ⟨c, hpart⟩ := h.isEscape _ hmem
  · cases hc
  · obtain rfl := Option.some.inj (Swept.taken.inj hpart).1
    rw [List.length_replicate] at hlength
    exact ⟨_, List.getElem?_replicate_of_lt (hlength ▸ hk), isCover_char .escape⟩

-- A hidden string shows covers between two quotes, which are there before.
theorem exists_quote_of_string (h : l.Linked) (hr : r ∈ hiddenFrom 0 l.strings) : ∃ quote, isQuote quote = true ∧
    (shown l.escapes)[r.offset]? = some quote ∧ (shown l.escapes)[r.stop - 1]? = some quote ∧
      ∀ place, r.Spans place → ∃ c, (shown l.strings)[place]? = some c ∧ (c = quote ∨ isCover c = true) := by
  obtain ⟨cover, hmem, hlength, hsource, hshown⟩ := exists_cover h.fits_strings hr
  rw [h.strings_eq] at hsource
  obtain ⟨c, hc⟩ | ⟨quote, body, hquote, -, -, -, hpart⟩ := h.isString _ hmem
  · cases hc
  obtain ⟨hcover, hvalue⟩ := Swept.taken.inj hpart
  obtain rfl : cover = inside quote quote .string body := by
    split at hcover
    case isTrue => cases hcover
    case isFalse => exact Option.some.inj hcover
  obtain ⟨hfirst, hlast⟩ := ends_of_value hvalue hsource
  refine ⟨quote, hquote, hfirst, hlast, fun place hplace => ?_⟩
  obtain ⟨k, hk, rfl⟩ := hplace.exists_add
  rw [hshown k hk, List.getElem?_eq_getElem (hlength ▸ hk)]
  have hcover : ∀ c ∈ inside quote quote .string body, c = quote ∨ isCover c = true := by
    intro c hc
    simp only [inside, List.cons_append, List.mem_cons, List.mem_append, List.mem_replicate, List.not_mem_nil,
      or_false] at hc
    rcases hc with rfl | ⟨-, rfl⟩ | rfl
    · exact .inl rfl
    · exact .inr (isCover_char .string)
    · exact .inl rfl
  exact ⟨_, rfl, hcover _ (List.getElem_mem _)⟩

-- A hidden group stands in parens, which are there before.
theorem parens_of_group (h : l.Linked) (hr : r ∈ hiddenFrom 0 l.groups) :
    (shown l.strings)[r.offset]? = some '(' ∧ (shown l.strings)[r.stop - 1]? = some ')' := by
  obtain ⟨cover, hmem, -, hsource, -⟩ := exists_cover h.fits_groups hr
  rw [h.groups_eq] at hsource
  obtain ⟨c, hc⟩ | ⟨body, -, hpart⟩ := h.isGroup _ hmem
  · cases hc
  · exact ends_of_value (Swept.taken.inj hpart).2 hsource

-- Where something is hidden before groups are, no paren is in sight.
theorem not_paren_of_spans (h : l.Linked) (hr : r ∈ hiddenFrom 0 l.escapes ∨ r ∈ hiddenFrom 0 l.strings)
    (hplace : r.Spans place) : ∃ c, (shown l.strings)[place]? = some c ∧ c ≠ '(' ∧ c ≠ ')' := by
  have hcover : ∀ {c}, isCover c = true → c ≠ '(' ∧ c ≠ ')' := by
    intro c hc
    rcases isCover_iff.mp hc with rfl | rfl | rfl <;> decide
  by_cases hsome : ∃ r ∈ hiddenFrom 0 l.strings, r.Spans place
  · obtain ⟨r, hr, hplace⟩ := hsome
    obtain ⟨quote, hquote, -, -, hshown⟩ := h.exists_quote_of_string hr
    obtain ⟨c, hc, rfl | hc'⟩ := hshown place hplace
    · exact ⟨c, hc, (ne_of_isQuote hquote).2.2⟩
    · exact ⟨c, hc, hcover hc'⟩
  · have hescape : r ∈ hiddenFrom 0 l.escapes := hr.resolve_right fun hr => hsome ⟨r, hr, hplace⟩
    obtain ⟨c, hc, hc'⟩ := h.isCover_of_escape hescape hplace
    rw [h.getElem?_strings fun r hr hplace => hsome ⟨r, hr, hplace⟩]
    exact ⟨c, hc, hcover hc'⟩

-- What an earlier sweep hides lies within whatever a later one hides at the same place.
theorem within_string (h : l.Linked) {outer : Replacement} (hr : r ∈ hiddenFrom 0 l.escapes)
    (houter : outer ∈ hiddenFrom 0 l.strings) (hplace : r.Spans place) (hplace' : outer.Spans place) : r.Within outer := by
  obtain ⟨quote, hquote, hfirst, hlast, -⟩ := h.exists_quote_of_string houter
  have hnot : ∀ {place}, (shown l.escapes)[place]? = some quote → ¬r.Spans place := by
    intro place hshown hspans
    obtain ⟨c, hc, hcover⟩ := h.isCover_of_escape hr hspans
    obtain rfl := Option.some.inj (hshown.symm.trans hc)
    simp [isCover_of_isQuote hquote] at hcover
  exact Replacement.within_of_spans hplace hplace' (hnot hfirst) (hnot hlast)

theorem within_group (h : l.Linked) {outer : Replacement}
    (hr : r ∈ hiddenFrom 0 l.escapes ∨ r ∈ hiddenFrom 0 l.strings) (houter : outer ∈ hiddenFrom 0 l.groups)
    (hplace : r.Spans place) (hplace' : outer.Spans place) : r.Within outer := by
  obtain ⟨hfirst, hlast⟩ := h.parens_of_group houter
  have hnot : ∀ {place paren}, (shown l.strings)[place]? = some paren → paren = '(' ∨ paren = ')' → ¬r.Spans place := by
    intro place paren hshown hparen hspans
    obtain ⟨c, hc, hopen, hclose⟩ := h.not_paren_of_spans hr hspans
    obtain rfl := Option.some.inj (hshown.symm.trans hc)
    exact hparen.elim hopen hclose
  exact Replacement.within_of_spans hplace hplace' (hnot hfirst (.inl rfl)) (hnot hlast (.inr rfl))

end Linked

end Layers

end CssSelectors
