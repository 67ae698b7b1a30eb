import CssSelectors.Proofs.Masking.Balancing
import CssSelectors.Proofs.Masking.Laminar

namespace CssSelectors

open Masked Text

theorem exists_getElem?_of_forall₂ {α β : Type} {R : α → β → Prop} {xs : List α} {ys : List β} (h : List.Forall₂ R xs ys)
    {i : Nat} {x : α} (hx : xs[i]? = some x) : ∃ y, ys[i]? = some y ∧ R x y := by
  obtain ⟨hi, rfl⟩ := List.getElem?_eq_some_iff.mp hx
  have hi' : i < ys.length := h.length_eq ▸ hi
  exact ⟨ys[i], List.getElem?_eq_getElem hi', h.get hi hi'⟩

namespace Text

-- A place that stands within parens: some are open before it, and after it, too.
def InParens (text : Text) (place : Nat) : Prop := 0 < text.depth place ∧ 0 < text.depth (place + 1)

instance (text : Text) (place : Nat) : Decidable (text.InParens place) :=
  inferInstanceAs (Decidable (0 < text.depth place ∧ 0 < text.depth (place + 1)))

-- Texts in which parens stand nowhere but around a run of covers for a group.
inductive Hollow : Text → Prop
  | nil : Hollow []
  | cons {c : Char} {rest : Text} (hopen : c ≠ '(') (hclose : c ≠ ')') (hrest : Hollow rest) : Hollow (c :: rest)
  | group (n : Nat) {rest : Text} (hrest : Hollow rest) :
    Hollow ('(' :: List.replicate n Cover.group.char ++ ')' :: rest)

-- The depth in a group is positive from behind its opening paren up to its closing one.
theorem height_group_pos_iff {body : Text} (h : groupBody? 0 (body ++ [')']) = some body) {place : Nat} :
    0 < height ('(' :: body ++ [')']) place ↔ place ≠ 0 ∧ place < body.length + 2 := by
  cases place with
  | zero => simp
  | succ place =>
    have hnonneg := (height_of_groupBody? h).1 place
    rw [height_group h]
    split <;> omega

variable {text : Text} {place : Nat}

-- What is out of sight shows a cover once escapes and strings are hidden, and what is in sight shows itself.
theorem exists_cover_of_sight (h : text.sight[place]? = some none) :
    ∃ cover : Cover, text.unquoted[place]? = some cover.char := by
  obtain ⟨c, hc, cover, rfl⟩ := exists_getElem?_of_forall₂ (shows_sight text) h
  exact ⟨cover, hc⟩

theorem getElem?_unquoted_of_sight (h : text.sight[place]? ≠ some none) : text.unquoted[place]? = text[place]? := by
  cases hseen : text.sight[place]? with
  | none =>
    have hlength : text.sight.length = text.length := (forall₂_sightFrom none text).length_eq
    rw [List.getElem?_eq_none_iff, hlength] at hseen
    rw [List.getElem?_eq_none hseen, List.getElem?_eq_none (by rwa [length_unquoted])]
  | some seen =>
    cases seen with
    | none => exact absurd hseen h
    | some d =>
      obtain ⟨c, hc, rfl⟩ := exists_getElem?_of_forall₂ (shows_sight text) hseen
      obtain ⟨c', hc', heq⟩ := exists_getElem?_of_forall₂ (forall₂_sightFrom none text) hseen
      rw [hc, hc', heq c rfl]

end Text

-- What a masked text shows of a text: covers within parens, in closed strings and in escapes, and everywhere else the
-- text itself. So its parens hold nothing but covers, no backslash in it has anything after it, and wherever it differs
-- from the text something is kept to be put back.
structure Conceals (text : Text) (masked : Masked) : Prop where
  length : masked.text.length = text.length
  changed : ∀ place : Nat, masked.text[place]? ≠ text[place]? → ∃ r ∈ masked.replacements, r.Spans place
  unescaped : masked.text.Unescaped
  hollow : masked.text.Hollow
  inParens : ∀ place : Nat, text.InParens place → masked.text[place]? = some Cover.group.char
  unseen : ∀ place : Nat, text.sight[place]? = some none → ∃ cover : Cover, masked.text[place]? = some cover.char
  seen : ∀ place : Nat, ¬text.InParens place → text.sight[place]? ≠ some none → masked.text[place]? = text[place]?

namespace Masked

-- A group shows itself at its two ends, and covers in between.
theorem getElem?_inside_group {body : Text} (h : groupBody? 0 (body ++ [')']) = some body) {place : Nat}
    (hplace : place < ('(' :: body ++ [')']).length) : (inside '(' ')' .group body)[place]? =
      if 0 < height ('(' :: body ++ [')']) place ∧ 0 < height ('(' :: body ++ [')']) (place + 1)
      then some Cover.group.char else ('(' :: body ++ [')'])[place]? := by
  rw [getElem?_inside hplace]
  refine ite_congr (propext ?_) (fun _ => rfl) fun _ => rfl
  rw [height_group_pos_iff h, height_group_pos_iff h]
  simp only [List.length_append, List.length_cons, List.length_nil] at hplace ⊢
  omega

section

variable {parts : Hidden} (hgroups : ∀ part ∈ parts, part.IsGroup)
variable (hloose : ∀ c, .loose c ∈ parts → c ≠ '(' ∧ c ≠ ')')
include hgroups hloose

-- Where no paren is left over, every paren in sight belongs to a group, whose covers are all that it holds,
theorem hollow_shown : (shown parts).Hollow := by
  induction parts with
  | nil => exact .nil
  | cons part parts ih =>
    obtain ⟨hpart, hparts⟩ := List.forall_mem_cons.mp hgroups
    have hmore := ih hparts fun c hc => hloose c (List.mem_cons_of_mem part hc)
    rw [shown_cons]
    rcases hpart with ⟨c, rfl⟩ | ⟨body, -, rfl⟩
    · obtain ⟨hopen, hclose⟩ := hloose c List.mem_cons_self
      exact .cons hopen hclose hmore
    · have hgroup := Hollow.group body.length hmore
      simpa [Swept.shown, inside] using hgroup

-- and these covers stand where the depth is positive.
theorem getElem?_shown_of_isGroup (place : Nat) : (shown parts)[place]? =
    if 0 < height (parts.flatMap Swept.source) place ∧ 0 < height (parts.flatMap Swept.source) (place + 1)
    then some Cover.group.char else (parts.flatMap Swept.source)[place]? := by
  induction parts generalizing place with
  | nil => simp
  | cons part parts ih =>
    obtain ⟨hpart, hparts⟩ := List.forall_mem_cons.mp hgroups
    have hmore := ih hparts fun c hc => hloose c (List.mem_cons_of_mem part hc)
    have heven := hpart.even fun c hc => hloose c (hc ▸ List.mem_cons_self)
    have hlength := hpart.fits.length_shown
    rw [shown_cons, List.flatMap_cons]
    by_cases hlt : place < part.source.length
    · rw [List.getElem?_append_left hlt, List.getElem?_append_left (hlength ▸ hlt), height_append_left _ hlt,
        height_append_left _ (Nat.le_of_lt hlt)]
      rcases hpart with ⟨c, rfl⟩ | ⟨body, hbody, rfl⟩
      · obtain rfl : place = 0 := by simpa [Swept.source] using hlt
        rw [height_zero, if_neg (by simp)]
        rfl
      · exact getElem?_inside_group (hbody []) hlt
    · obtain ⟨further, rfl⟩ := Nat.exists_eq_add_of_le (Nat.le_of_not_lt hlt)
      rw [List.getElem?_append_right (by omega), List.getElem?_append_right (by omega), hlength, Nat.add_sub_cancel_left,
        Nat.add_assoc, height_append_right, height_append_right, heven.total, Int.zero_add, Int.zero_add]
      exact hmore further

end

variable {text : Text} {masked : Masked}

-- The last sweep alone, in the text that the ones before leave.
theorem getElem?_text_eq_ite (h : ofText text = .ok masked) (place : Nat) :
    masked.text[place]? = if text.InParens place then some Cover.group.char else text.unquoted[place]? := by
  obtain ⟨hnone, rfl⟩ := ofText_eq_ok_iff.mp h
  have hshown := getElem?_shown_of_isGroup (Layers.linked_ofText text).isGroup (imbalanceFrom_eq_none_iff.mp hnone) place
  rw [groups_eq_unquoted, ← depth_eq_height, ← depth_eq_height] at hshown
  exact hshown

theorem conceals_of_ofText (h : ofText text = .ok masked) : Conceals text masked where
  length := by
    obtain ⟨-, rfl⟩ := ofText_eq_ok_iff.mp h
    exact Layers.length_text_ofText text
  changed place hne := by
    by_contra hnone
    exact hne (getElem?_text h fun r hr hspans => hnone ⟨r, hr, hspans⟩)
  unescaped := by
    obtain ⟨-, rfl⟩ := ofText_eq_ok_iff.mp h
    exact Layers.unescaped_text_ofText text
  hollow := by
    obtain ⟨hnone, rfl⟩ := ofText_eq_ok_iff.mp h
    exact hollow_shown (Layers.linked_ofText text).isGroup (imbalanceFrom_eq_none_iff.mp hnone)
  inParens place hplace := by
    rw [getElem?_text_eq_ite h, if_pos hplace]
  unseen place hplace := by
    rw [getElem?_text_eq_ite h]
    by_cases hparens : text.InParens place
    · exact ⟨.group, if_pos hparens⟩
    · rw [if_neg hparens]
      exact exists_cover_of_sight hplace
  seen place hparens hsight := by
    rw [getElem?_text_eq_ite h, if_neg hparens]
    exact getElem?_unquoted_of_sight hsight

-- An escaped paren, then a group that holds a string with delimiters and further parens, and in the end a quote and a
-- backslash that begin nothing.
theorem conceals_of_ofText_group : ∃ masked, ofText "\\(x:is(\x22),\\\x22\x22,[a]+(b))\x27c\\".toList = .ok masked ∧
    masked.text = ['\ue000', '\ue000', 'x', ':', 'i', 's', '('] ++ List.replicate 14 '\ue002' ++ [')', '\x27', 'c', '\\'] ∧
    Conceals "\\(x:is(\x22),\\\x22\x22,[a]+(b))\x27c\\".toList masked :=
  ⟨_, rfl, rfl, conceals_of_ofText rfl⟩

end Masked

end CssSelectors
