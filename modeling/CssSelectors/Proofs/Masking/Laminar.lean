import CssSelectors.Proofs.Masking.Unmasking

namespace CssSelectors

open Masked

namespace Cover

-- The covers that are in place already when one is put on, the last of them first.
def earlier : Cover → List Cover
  | escape => []
  | string => [escape]
  | group => [string, escape]

end Cover

namespace Replacement

-- The places at which a cover stands for a hidden stretch. Strings and groups keep their two ends in sight.
def CoveredBy (cover : Cover) (r : Replacement) (place : Nat) : Prop :=
  r.Spans place ∧ (cover ≠ .escape → place ≠ r.offset ∧ place + 1 ≠ r.stop)

instance (cover : Cover) (r : Replacement) (place : Nat) : Decidable (r.CoveredBy cover place) :=
  inferInstanceAs (Decidable (r.Spans place ∧ (cover ≠ .escape → place ≠ r.offset ∧ place + 1 ≠ r.stop)))

-- Two stretches that share no place.
def Apart (r s : Replacement) : Prop := r.stop ≤ s.offset ∨ s.stop ≤ r.offset

theorem exists_spans_of_not_apart {r s : Replacement} (hr : r.offset < r.stop) (hs : s.offset < s.stop)
    (h : ¬r.Apart s) : ∃ place, r.Spans place ∧ s.Spans place := by
  unfold Apart at h
  refine ⟨max r.offset s.offset, ?_⟩
  unfold Spans
  omega

end Replacement

namespace Layers

-- What each sweep hides, by the cover that it puts on.
def hiddenBy (l : Layers) : Cover → List Replacement
  | .escape => hiddenFrom 0 l.escapes
  | .string => hiddenFrom 0 l.strings
  | .group => hiddenFrom 0 l.groups

end Layers

-- The character in sight at a place of a text after some sweeps, the last of them first: the cover of the last one that
-- hides the place, if any of them does.
def sightAfter (text : Text) (hidden : Cover → List Replacement) (place : Nat) : List Cover → Option Char
  | [] => text[place]?
  | cover :: earlier =>
    if ∃ r ∈ hidden cover, r.CoveredBy cover place then some cover.char else sightAfter text hidden place earlier

-- Hidden stretches that are nested in each other. Those of one sweep stand apart from left to right, and those of an
-- earlier sweep stand apart from one of a later sweep or lie within it. What was in sight in a stretch before it was
-- hidden is its value, and what is in sight in the end is the masked text.
structure Laminar (text masked : Text) (hidden : Cover → List Replacement) : Prop where
  bounds : ∀ cover, ∀ r ∈ hidden cover, r.offset < r.stop ∧ r.stop ≤ text.length
  ascending : ∀ cover, (hidden cover).Pairwise fun r s => r.stop ≤ s.offset
  nested : ∀ cover, ∀ before ∈ cover.earlier, ∀ r ∈ hidden before, ∀ outer ∈ hidden cover,
    r.Apart outer ∨ r.Within outer
  value : ∀ cover, ∀ r ∈ hidden cover, ∀ k < r.value.length,
    r.value[k]? = sightAfter text hidden (r.offset + k) cover.earlier
  text : ∀ place, masked[place]? = sightAfter text hidden place [.group, .string, .escape]

namespace Masked

variable {parts : Hidden}

-- Whatever is hidden by a sweep stands behind all that it has hidden before.
theorem pairwise_hiddenFrom (hfits : ∀ part ∈ parts, part.Fits) (offset : Nat) :
    (hiddenFrom offset parts).Pairwise fun r s => r.stop ≤ s.offset := by
  induction parts generalizing offset with
  | nil => exact .nil
  | cons part parts ih =>
    obtain ⟨-, hmore⟩ := List.forall_mem_cons.mp hfits
    rcases part with c | ⟨_ | cover, value⟩
    · exact ih hmore _
    · exact ih hmore _
    · exact List.pairwise_cons.mpr ⟨fun s hs => (bounds_of_mem_hiddenFrom hmore hs).1, ih hmore _⟩

-- All of a stretch but its two ends is covered.
theorem getElem?_inside {opening closing : Char} {cover : Cover} {body : Text} {k : Nat}
    (hk : k < (opening :: body ++ [closing]).length) : (inside opening closing cover body)[k]? =
      if k ≠ 0 ∧ k + 1 ≠ (opening :: body ++ [closing]).length then some cover.char
      else (opening :: body ++ [closing])[k]? := by
  have hlength : (opening :: body ++ [closing]).length = body.length + 2 := by simp
  rw [hlength] at hk ⊢
  unfold inside
  rcases k with _ | k
  · rfl
  rw [List.cons_append, List.cons_append, List.getElem?_cons_succ, List.getElem?_cons_succ]
  split
  case isTrue hbetween =>
    rw [List.getElem?_append_left (by rw [List.length_replicate]; omega), List.getElem?_replicate_of_lt (by omega)]
  case isFalse hend =>
    obtain rfl : k = body.length := by omega
    rw [List.getElem?_append_right (by simp), List.getElem?_append_right (Nat.le_refl _), List.length_replicate]

-- What is in sight after a sweep, if each stretch that it hides is covered in the same way.
theorem getElem?_shown_eq_ite {cover : Cover} (hfits : ∀ part ∈ parts, part.Fits)
    (hcover : ∀ item value, .taken (some item) value ∈ parts → ∀ k < value.length,
      item[k]? = if cover ≠ .escape → k ≠ 0 ∧ k + 1 ≠ value.length then some cover.char else value[k]?) (place : Nat) :
    (shown parts)[place]? = if ∃ r ∈ hiddenFrom 0 parts, r.CoveredBy cover place then some cover.char
      else (parts.flatMap Swept.source)[place]? := by
  have hitem : ∀ r ∈ hiddenFrom 0 parts, r.Spans place →
      (shown parts)[place]? = if r.CoveredBy cover place then some cover.char
        else (parts.flatMap Swept.source)[place]? := by
    intro r hr hspans
    obtain ⟨item, hmem, hlength, hsource, hshown⟩ := exists_cover hfits hr
    obtain ⟨k, hk, rfl⟩ := hspans.exists_add
    rw [hshown k hk, hsource k hk, hcover item r.value hmem k hk]
    refine ite_congr (propext ?_) (fun _ => rfl) fun _ => rfl
    unfold Replacement.CoveredBy Replacement.stop
    simp only [hspans, true_and]
    refine imp_congr_right fun _ => ?_
    omega
  split
  case isTrue hcovered =>
    obtain ⟨r, hr, hplace⟩ := hcovered
    rw [hitem r hr hplace.1, if_pos hplace]
  case isFalse hnone =>
    by_cases hspans : ∃ r ∈ hiddenFrom 0 parts, r.Spans place
    · obtain ⟨r, hr, hplace⟩ := hspans
      rw [hitem r hr hplace, if_neg fun hcovered => hnone ⟨r, hr, hcovered⟩]
    · exact getElem?_shown hfits fun r hr hplace => hspans ⟨r, hr, hplace⟩

end Masked

namespace Layers.Linked

variable {l : Layers}

-- What is in sight after each of the sweeps,
theorem getElem?_shown_escapes (h : l.Linked) (place : Nat) :
    (shown l.escapes)[place]? = sightAfter l.source l.hiddenBy place [.escape] := by
  refine getElem?_shown_eq_ite h.fits_escapes (fun item value hmem k hk => ?_) place
  obtain ⟨c, hpart⟩ | ⟨c, hpart⟩ := h.isEscape _ hmem
  · cases hpart
  · obtain ⟨hitem, rfl⟩ := Swept.taken.inj hpart
    obtain rfl := Option.some.inj hitem
    rw [if_pos fun hne => absurd rfl hne]
    exact List.getElem?_replicate_of_lt hk

theorem getElem?_shown_strings (h : l.Linked) (place : Nat) :
    (shown l.strings)[place]? = sightAfter l.source l.hiddenBy place [.string, .escape] := by
  rw [sightAfter, ← h.getElem?_shown_escapes, ← h.strings_eq]
  refine getElem?_shown_eq_ite h.fits_strings (fun item value hmem k hk => ?_) place
  obtain ⟨c, hpart⟩ | ⟨quote, body, -, -, -, -, hpart⟩ := h.isString _ hmem
  · cases hpart
  · obtain ⟨hitem, rfl⟩ := Swept.taken.inj hpart
    split at hitem
    case isTrue => cases hitem
    case isFalse =>
      obtain rfl := Option.some.inj hitem
      rw [getElem?_inside hk]
      simp

theorem getElem?_shown_groups (h : l.Linked) (place : Nat) :
    l.text[place]? = sightAfter l.source l.hiddenBy place [.group, .string, .escape] := by
  rw [text, sightAfter, ← h.getElem?_shown_strings, ← h.groups_eq]
  refine getElem?_shown_eq_ite h.fits_groups (fun item value hmem k hk => ?_) place
  obtain ⟨c, hpart⟩ | ⟨body, -, hpart⟩ := h.isGroup _ hmem
  · cases hpart
  · obtain ⟨hitem, rfl⟩ := Swept.taken.inj hpart
    obtain rfl := Option.some.inj hitem
    rw [getElem?_inside hk]
    simp

-- and so what was in sight in a stretch before it was hidden.
theorem getElem?_value (h : l.Linked) {cover : Cover} {r : Replacement} (hr : r ∈ l.hiddenBy cover) {k : Nat}
    (hk : k < r.value.length) : r.value[k]? = sightAfter l.source l.hiddenBy (r.offset + k) cover.earlier := by
  cases cover with
  | escape => exact (h.isOf_of_escape hr k hk).symm
  | string => exact (h.isOf_of_string hr k hk).symm.trans (h.getElem?_shown_escapes _)
  | group => exact (h.isOf_of_group hr k hk).symm.trans (h.getElem?_shown_strings _)

theorem bounds_of_mem_hiddenBy (h : l.Linked) {cover : Cover} {r : Replacement} (hr : r ∈ l.hiddenBy cover) :
    r.offset < r.stop ∧ r.stop ≤ l.source.length := by
  cases cover with
  | escape =>
    have hstop := h.stop_le_length (mem_replacements_iff.mpr (.inl hr))
    exact ⟨(bounds_of_mem_hiddenFrom h.fits_escapes hr).2.1, hstop⟩
  | string =>
    have hstop := h.stop_le_length (mem_replacements_iff.mpr (.inr (.inl hr)))
    exact ⟨(bounds_of_mem_hiddenFrom h.fits_strings hr).2.1, hstop⟩
  | group =>
    have hstop := h.stop_le_length (mem_replacements_iff.mpr (.inr (.inr hr)))
    exact ⟨(bounds_of_mem_hiddenFrom h.fits_groups hr).2.1, hstop⟩

theorem pairwise_hiddenBy (h : l.Linked) (cover : Cover) :
    (l.hiddenBy cover).Pairwise fun r s => r.stop ≤ s.offset := by
  cases cover with
  | escape => exact pairwise_hiddenFrom h.fits_escapes 0
  | string => exact pairwise_hiddenFrom h.fits_strings 0
  | group => exact pairwise_hiddenFrom h.fits_groups 0

-- Stretches of different sweeps that share a place lie within each other.
theorem within_of_spans (h : l.Linked) {cover before : Cover} (hbefore : before ∈ cover.earlier) {r outer : Replacement}
    (hr : r ∈ l.hiddenBy before) (houter : outer ∈ l.hiddenBy cover) {place : Nat} (hplace : r.Spans place)
    (hplace' : outer.Spans place) : r.Within outer := by
  cases cover with
  | escape => cases hbefore
  | string =>
    obtain rfl := List.mem_singleton.mp hbefore
    exact h.within_string hr houter hplace hplace'
  | group =>
    refine h.within_group ?_ houter hplace hplace'
    rcases List.mem_pair.mp hbefore with rfl | rfl
    · exact .inr hr
    · exact .inl hr

theorem laminar (h : l.Linked) : Laminar l.source l.text l.hiddenBy where
  bounds _ _ hr := h.bounds_of_mem_hiddenBy hr
  ascending := h.pairwise_hiddenBy
  nested cover before hbefore r hr outer houter := by
    refine or_iff_not_imp_left.mpr fun hnot => ?_
    obtain ⟨place, hplace, hplace'⟩ := Replacement.exists_spans_of_not_apart (h.bounds_of_mem_hiddenBy hr).1
      (h.bounds_of_mem_hiddenBy houter).1 hnot
    exact h.within_of_spans hbefore hr houter hplace hplace'
  value _ _ hr _ hk := h.getElem?_value hr hk
  text := h.getElem?_shown_groups

end Layers.Linked

namespace Masked

variable {text : Text} {masked : Masked}

-- Whatever text is masked, the stretches that are hidden are nested in each other.
theorem laminar_of_ofText (h : ofText text = .ok masked) :
    masked.replacements = [Cover.escape, .string, .group].flatMap (Layers.ofText text).hiddenBy ∧
      Laminar text masked.text (Layers.ofText text).hiddenBy := by
  obtain ⟨-, rfl⟩ := ofText_eq_ok_iff.mp h
  have hlaminar := (Layers.linked_ofText text).laminar
  rw [Layers.source_ofText] at hlaminar
  refine ⟨?_, hlaminar⟩
  simp [Layers.replacementsFrom, Layers.hiddenBy]

-- An escape in a string in a group, each of which was in sight as it was hidden.
theorem laminar_of_ofText_nested : ∃ masked, ofText "(\x22\\)\x22)".toList = .ok masked ∧
    masked.replacements = [⟨['\\', ')'], 2⟩, ⟨['\x22', '\ue000', '\ue000', '\x22'], 1⟩,
      ⟨['(', '\x22', '\ue001', '\ue001', '\x22', ')'], 0⟩] ∧
    Laminar "(\x22\\)\x22)".toList masked.text (Layers.ofText "(\x22\\)\x22)".toList).hiddenBy :=
  ⟨_, rfl, rfl, (laminar_of_ofText rfl).2⟩

end Masked

end CssSelectors
