import CssSelectors.Proofs.Masking.Nested
import Mathlib.Data.List.Forall2

namespace CssSelectors

open Masked

namespace Replacement

-- A token takes back a hidden stretch that it stands around, if it has enough content.
def FitsIn (r : Replacement) (token : Token) : Prop :=
  token.start ≤ r.offset ∧ r.stop ≤ token.stop ∧ r.stop ≤ token.start + token.content.length

instance (r : Replacement) (token : Token) : Decidable (r.FitsIn token) :=
  inferInstanceAs (Decidable (token.start ≤ r.offset ∧ r.stop ≤ token.stop ∧ r.stop ≤ token.start + token.content.length))

theorem FitsIn.of_within {r outer : Replacement} {token : Token} (h : outer.FitsIn token) (hr : r.Within outer) :
    r.FitsIn token := by
  unfold FitsIn Within at *
  omega

-- Whether it is taken back does not depend on what the content is.
theorem fitsIn_congr {r : Replacement} {token : Token} {content : Text} (h : content.length = token.content.length) :
    r.FitsIn { token with content } ↔ r.FitsIn token := by
  unfold FitsIn
  rw [h]

-- A stretch of a text, given by its place.
def IsOf (r : Replacement) (text : Text) : Prop := ∀ k < r.value.length, text[r.offset + k]? = r.value[k]?

-- To put back a stretch of a text is to read the text at its places.
theorem getElem?_putBack {r : Replacement} {text : Text} (h : r.IsOf text) (token : Token) (k : Nat) :
    (r.putBack token).content[k]? =
      if r.FitsIn token ∧ r.Spans (token.start + k) then text[token.start + k]? else token.content[k]? := by
  unfold putBack
  dsimp only
  split
  case isFalse hnot =>
    rw [if_neg]
    rintro ⟨⟨hstart, hstop, hlength⟩, -⟩
    unfold stop at hlength
    refine hnot ?_
    simp only [Bool.and_eq_true, decide_eq_true_eq]
    exact ⟨⟨hstart, hstop⟩, by omega⟩
  case isTrue hfits =>
    simp only [Bool.and_eq_true, decide_eq_true_eq] at hfits
    obtain ⟨⟨hstart, hstop⟩, hlength⟩ := hfits
    have hfitsIn : r.FitsIn token := ⟨hstart, hstop, by unfold stop; omega⟩
    have htake : (token.content.take (r.offset - token.start)).length = r.offset - token.start :=
      List.length_take_of_le (by omega)
    split
    case isTrue hspans =>
      obtain ⟨j, hj, hplace⟩ := hspans.2.exists_add
      obtain rfl : k = r.offset - token.start + j := by omega
      rw [List.append_assoc, List.getElem?_append_right (by omega), htake, Nat.add_sub_cancel_left,
        List.getElem?_append_left hj, hplace, h j hj]
    case isFalse hspans =>
      rcases Nat.lt_or_ge k (r.offset - token.start) with hlt | hle
      · rw [List.append_assoc, List.getElem?_append_left (htake.symm ▸ hlt), List.getElem?_take_of_lt hlt]
      · have hbehind : r.offset - token.start + r.value.length ≤ k := by
          refine Nat.not_lt.mp fun hlt => hspans ⟨hfitsIn, by omega, ?_⟩
          unfold stop
          omega
        rw [List.getElem?_append_right (by rw [List.length_append, htake]; exact hbehind), List.length_append, htake,
          List.getElem?_drop]
        congr 1
        omega

-- Whether a token takes back any of several stretches at the place of one of its characters.
def Restores (replacements : List Replacement) (token : Token) (k : Nat) : Prop :=
  ∃ r ∈ replacements, r.FitsIn token ∧ r.Spans (token.start + k)

instance (replacements : List Replacement) (token : Token) (k : Nat) : Decidable (Restores replacements token k) :=
  inferInstanceAs (Decidable (∃ r ∈ replacements, r.FitsIn token ∧ r.Spans (token.start + k)))

theorem exists_foldr_putBack_eq (replacements : List Replacement) (token : Token) :
    ∃ content, replacements.foldr putBack token = { token with content } ∧ content.length = token.content.length := by
  have h := exists_unmask_eq ⟨[], replacements⟩ token
  rwa [fst_unmask] at h

theorem start_foldr_putBack (replacements : List Replacement) (token : Token) :
    (replacements.foldr putBack token).start = token.start := by
  obtain ⟨content, h, -⟩ := exists_foldr_putBack_eq replacements token
  rw [h]

theorem restores_congr {replacements : List Replacement} {token : Token} {content : Text}
    (h : content.length = token.content.length) (k : Nat) :
    Restores replacements { token with content } k ↔ Restores replacements token k := by
  simp only [Restores, fitsIn_congr h]

theorem restores_foldr_putBack (replacements more : List Replacement) (token : Token) (k : Nat) :
    Restores replacements (more.foldr putBack token) k ↔ Restores replacements token k := by
  obtain ⟨content, h, hlength⟩ := exists_foldr_putBack_eq more token
  rw [h, restores_congr hlength]

-- So several of them read the text wherever any of them fits.
theorem getElem?_foldr_putBack {replacements : List Replacement} {text : Text} (h : ∀ r ∈ replacements, r.IsOf text)
    (token : Token) (k : Nat) :
    (replacements.foldr putBack token).content[k]? =
      if Restores replacements token k then text[token.start + k]? else token.content[k]? := by
  induction replacements with
  | nil => simp [Restores]
  | cons r more ih =>
    obtain ⟨hr, hmore⟩ := List.forall_mem_cons.mp h
    obtain ⟨content, hfold, hlength⟩ := exists_foldr_putBack_eq more token
    have hcons : Restores (r :: more) token k ↔
        (r.FitsIn token ∧ r.Spans (token.start + k)) ∨ Restores more token k := by
      simp [Restores]
    rw [List.foldr_cons, getElem?_putBack hr, ih hmore]
    simp only [hfold, fitsIn_congr hlength]
    by_cases hfirst : r.FitsIn token ∧ r.Spans (token.start + k)
    · rw [if_pos hfirst, if_pos (hcons.mpr (.inl hfirst))]
    · rw [if_neg hfirst]
      exact ite_congr (propext (hcons.trans (or_iff_right hfirst)).symm) (fun _ => rfl) fun _ => rfl

end Replacement

namespace Layers

open Masked Replacement

variable {l : Layers} {r : Replacement}

-- What a sweep hides are stretches of the text that it goes over.
private theorem isOf_of_mem_hiddenFrom {parts : Hidden} (hfits : ∀ part ∈ parts, part.Fits)
    (hr : r ∈ hiddenFrom 0 parts) : r.IsOf (parts.flatMap Swept.source) := by
  obtain ⟨_, _, _, hsource, _⟩ := exists_cover hfits hr
  exact hsource

namespace Linked

theorem isOf_of_escape (h : l.Linked) (hr : r ∈ hiddenFrom 0 l.escapes) : r.IsOf l.source :=
  isOf_of_mem_hiddenFrom h.fits_escapes hr

theorem isOf_of_string (h : l.Linked) (hr : r ∈ hiddenFrom 0 l.strings) : r.IsOf (shown l.escapes) :=
  h.strings_eq ▸ isOf_of_mem_hiddenFrom h.fits_strings hr

theorem isOf_of_group (h : l.Linked) (hr : r ∈ hiddenFrom 0 l.groups) : r.IsOf (shown l.strings) :=
  h.groups_eq ▸ isOf_of_mem_hiddenFrom h.fits_groups hr

-- If a token takes back what an earlier sweep hides within a stretch, the text before that sweep is read in the stretch.
private theorem getElem?_escapes_of_fitsIn (h : l.Linked) {outer : Replacement} {token : Token} {k : Nat}
    (hfits : outer.FitsIn token) (hrestores : ¬Restores (hiddenFrom 0 l.escapes) token k)
    (hwithin : ∀ r ∈ hiddenFrom 0 l.escapes, r.Spans (token.start + k) → r.Within outer) :
    (shown l.escapes)[token.start + k]? = l.source[token.start + k]? :=
  h.getElem?_escapes fun r hr hspans => hrestores ⟨r, hr, hfits.of_within (hwithin r hr hspans), hspans⟩

-- Every stretch is put back as it is in the source in the end. If it was hidden with covers in it, the stretches that
-- these stand for lie within it, and they are put back later.
theorem getElem?_putBack_replacements (h : l.Linked) (token : Token) (k : Nat) :
    ((l.replacementsFrom 0).foldr putBack token).content[k]? =
      if Restores (l.replacementsFrom 0) token k then l.source[token.start + k]? else token.content[k]? := by
  have hrestores : Restores (l.replacementsFrom 0) token k ↔ Restores (hiddenFrom 0 l.escapes) token k ∨
      Restores (hiddenFrom 0 l.strings) token k ∨ Restores (hiddenFrom 0 l.groups) token k := by
    simp only [Restores, mem_replacements_iff, or_and_right, exists_or]
  simp only [hrestores]
  rw [replacementsFrom, List.foldr_append, List.foldr_append, getElem?_foldr_putBack fun r => h.isOf_of_escape,
    getElem?_foldr_putBack fun r => h.isOf_of_string, getElem?_foldr_putBack fun r => h.isOf_of_group]
  simp only [restores_foldr_putBack, start_foldr_putBack]
  by_cases hescape : Restores (hiddenFrom 0 l.escapes) token k
  · rw [if_pos hescape, if_pos (.inl hescape)]
  rw [if_neg hescape]
  by_cases hstring : Restores (hiddenFrom 0 l.strings) token k
  · rw [if_pos hstring, if_pos (.inr (.inl hstring))]
    obtain ⟨outer, houter, hfits, hspans⟩ := hstring
    exact h.getElem?_escapes_of_fitsIn hfits hescape fun r hr hspans' => h.within_string hr houter hspans' hspans
  rw [if_neg hstring]
  by_cases hgroup : Restores (hiddenFrom 0 l.groups) token k
  · rw [if_pos hgroup, if_pos (.inr (.inr hgroup))]
    obtain ⟨outer, houter, hfits, hspans⟩ := hgroup
    have hbefore : ∀ r ∈ hiddenFrom 0 l.strings, ¬r.Spans (token.start + k) := fun r hr hspans' =>
      hstring ⟨r, hr, hfits.of_within (h.within_group (.inr hr) houter hspans' hspans), hspans'⟩
    rw [h.getElem?_strings hbefore]
    exact h.getElem?_escapes_of_fitsIn hfits hescape fun r hr hspans' => h.within_group (.inl hr) houter hspans' hspans
  · rw [if_neg hgroup, if_neg (by simp [hescape, hstring, hgroup])]

-- The text differs from its source only where something is hidden.
theorem getElem?_text (h : l.Linked) {place : Nat} (hnone : ∀ r ∈ l.replacementsFrom 0, ¬r.Spans place) :
    l.text[place]? = l.source[place]? := by
  simp only [mem_replacements_iff] at hnone
  rw [text, h.getElem?_groups fun r hr => hnone r (.inr (.inr hr)),
    h.getElem?_strings fun r hr => hnone r (.inr (.inl hr)), h.getElem?_escapes fun r hr => hnone r (.inl hr)]

theorem stop_le_length (h : l.Linked) (hr : r ∈ l.replacementsFrom 0) : r.stop ≤ l.source.length := by
  rcases mem_replacements_iff.mp hr with hr | hr | hr
  · have hbounds := bounds_of_mem_hiddenFrom h.fits_escapes hr
    rw [Nat.zero_add] at hbounds
    exact hbounds.2.2
  · have hbounds := bounds_of_mem_hiddenFrom h.fits_strings hr
    rw [Nat.zero_add, h.strings_eq, h.length_escapes] at hbounds
    exact hbounds.2.2
  · have hbounds := bounds_of_mem_hiddenFrom h.fits_groups hr
    rw [Nat.zero_add, h.groups_eq, h.length_strings] at hbounds
    exact hbounds.2.2

end Linked

end Layers

namespace Masked

open Replacement

variable {text : Text} {masked : Masked}

-- A text that can be masked is masked by its layers.
theorem exists_layers (h : ofText text = .ok masked) :
    ∃ l : Layers, l.Linked ∧ l.source = text ∧ masked = ⟨l.text, l.replacementsFrom 0⟩ :=
  ⟨Layers.ofText text, Layers.linked_ofText text, Layers.source_ofText text, (ofText_eq_ok_iff.mp h).2⟩

theorem getElem?_unmask (h : ofText text = .ok masked) (token : Token) (k : Nat) :
    (masked.unmask token).1.content[k]? =
      if Restores masked.replacements token k then text[token.start + k]? else token.content[k]? := by
  obtain ⟨l, hlinked, rfl, rfl⟩ := exists_layers h
  rw [fst_unmask]
  exact hlinked.getElem?_putBack_replacements token k

theorem getElem?_text (h : ofText text = .ok masked) {place : Nat} (hnone : ∀ r ∈ masked.replacements, ¬r.Spans place) :
    masked.text[place]? = text[place]? := by
  obtain ⟨l, hlinked, rfl, rfl⟩ := exists_layers h
  exact hlinked.getElem?_text hnone

theorem stop_le_length (h : ofText text = .ok masked) {r : Replacement} (hr : r ∈ masked.replacements) :
    r.stop ≤ text.length ∧ masked.text.length = text.length := by
  obtain ⟨l, hlinked, rfl, rfl⟩ := exists_layers h
  exact ⟨hlinked.stop_le_length hr, hlinked.length_text⟩

theorem getElem?_slice (text : Text) (start stop k : Nat) :
    (text.slice start stop)[k]? = if start + k < stop then text[start + k]? else none := by
  rw [Text.slice, List.getElem?_take, List.getElem?_drop]
  exact ite_congr (propext (by omega)) (fun _ => rfl) fun _ => rfl

end Masked

namespace Replacement

-- A stretch that a token holds a part of, but not all.
def Cuts (r : Replacement) (token : Token) : Prop :=
  (∃ place, r.Spans place ∧ token.start ≤ place ∧ place < token.stop) ∧
    ¬(token.start ≤ r.offset ∧ r.stop ≤ token.stop)

end Replacement

open Replacement

-- What a token becomes when what it hides is put back. Its characters are those of the source wherever a stretch is put
-- back, and their own elsewhere. So a token that shows a part of the masked text shows that part of the source.
structure Restored (source : Text) (masked : Masked) (before after : Token) : Prop where
  kind : after.kind = before.kind
  start : after.start = before.start
  stop : after.stop = before.stop
  length : after.content.length = before.content.length
  char : ∀ k < before.content.length, after.content[k]? =
    if Restores masked.replacements before k then source[before.start + k]? else before.content[k]?
  slice : before.content = masked.text.slice before.start before.stop →
    (∀ r ∈ masked.replacements, ¬r.Cuts before) → after.content = source.slice before.start before.stop

namespace Masked

variable {text : Text} {masked : Masked}

theorem content_unmask_of_slice (h : ofText text = .ok masked) {token : Token}
    (hcontent : token.content = masked.text.slice token.start token.stop)
    (huncut : ∀ r ∈ masked.replacements, ¬r.Cuts token) :
    (masked.unmask token).1.content = text.slice token.start token.stop := by
  refine List.ext_getElem? fun k => ?_
  rw [getElem?_unmask h, getElem?_slice]
  split
  case isTrue hrestores =>
    obtain ⟨r, -, ⟨-, hstop, -⟩, -, hlt⟩ := hrestores
    rw [if_pos (Nat.lt_of_lt_of_le hlt hstop)]
  case isFalse hnot =>
    rw [hcontent, getElem?_slice]
    refine ite_congr rfl (fun hlt => getElem?_text h fun r hr hspans => hnot ?_) fun _ => rfl
    obtain ⟨hle, hlength⟩ := stop_le_length h hr
    have hwithin : token.start ≤ r.offset ∧ r.stop ≤ token.stop :=
      Decidable.not_not.mp fun hout => huncut r hr ⟨⟨_, hspans, Nat.le_add_right .., hlt⟩, hout⟩
    refine ⟨r, hr, ⟨hwithin.1, hwithin.2, ?_⟩, hspans⟩
    rw [hcontent, Text.length_slice, hlength]
    omega

theorem restored_unmask (h : ofText text = .ok masked) (token : Token) :
    Restored text masked token (masked.unmask token).1 := by
  obtain ⟨content, heq, hlength⟩ := exists_unmask_eq masked token
  have hchar := getElem?_unmask h token
  rw [heq] at hchar ⊢
  refine ⟨rfl, rfl, rfl, hlength, fun k _ => hchar k, fun hcontent huncut => ?_⟩
  rw [← content_unmask_of_slice h hcontent huncut, heq]

theorem unmask_unmask (h : ofText text = .ok masked) (token : Token) :
    (masked.unmask (masked.unmask token).1).1 = (masked.unmask token).1 := by
  obtain ⟨content, heq, hlength⟩ := exists_unmask_eq masked token
  obtain ⟨content', heq', -⟩ := exists_unmask_eq masked (masked.unmask token).1
  have hagain : content' = content := by
    refine List.ext_getElem? fun k => ?_
    have honce := getElem?_unmask h token k
    have htwice := getElem?_unmask h (masked.unmask token).1 k
    rw [heq', heq] at htwice
    rw [heq] at honce
    refine htwice.trans ?_
    split
    case isTrue hrestores => rw [honce, if_pos ((restores_congr hlength k).mp hrestores)]
    case isFalse => rfl
  rw [heq', heq, hagain]

-- Unmasking puts back the source in all that a token takes back, whatever its content, and does it once for all.
theorem restored_unmaskAll (h : ofText text = .ok masked) (tokens : List Token) :
    List.Forall₂ (Restored text masked) tokens (masked.unmaskAll tokens).1 ∧
      (masked.unmaskAll (masked.unmaskAll tokens).1).1 = (masked.unmaskAll tokens).1 := by
  have hmap : ∀ tokens : List Token, (masked.unmaskAll tokens).1 = tokens.map fun token => (masked.unmask token).1 := by
    intro tokens
    simp [unmaskAll]
  rw [hmap, hmap, List.map_map]
  constructor
  · rw [List.forall₂_map_right_iff, List.forall₂_same]
    exact fun token _ => restored_unmask h token
  · exact List.map_congr_left fun token _ => unmask_unmask h token

-- An escape in a string in a group. The first token takes back all three, and the second one all but the group.
theorem restored_unmaskAll_nested :
    let whole : Token := ⟨.universal none, ['(', '\ue002', '\ue002', '\ue002', '\ue002', ')'], 0, 6⟩
    let part : Token := ⟨.universal none, "vwxyz".toList, 1, 6⟩
    ∃ masked, ofText "(\x22\\)\x22)".toList = .ok masked ∧
      List.Forall₂ (Restored "(\x22\\)\x22)".toList masked) [whole, part] (masked.unmaskAll [whole, part]).1 ∧
      (masked.unmaskAll [whole, part]).1.map Token.content = ["(\x22\\)\x22)".toList, "\x22\\)\x22z".toList] :=
  ⟨_, rfl, (restored_unmaskAll rfl _).1, rfl⟩

end Masked

end CssSelectors
