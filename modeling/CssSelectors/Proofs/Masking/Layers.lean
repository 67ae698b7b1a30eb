import CssSelectors.Proofs.Masking.Tied

namespace CssSelectors

open Masked

namespace Masked

-- What is offered for an escape, for a string and for a group.
theorem escapeAt_eq_some {c : Char} {rest : Text} {item : Option Text} {more : Nat} :
    escapeAt c rest = some (item, more) ↔
      c = '\\' ∧ rest ≠ [] ∧ item = some (List.replicate 2 Cover.escape.char) ∧ more = 1 := by
  cases rest with
  | nil => simp [escapeAt]
  | cons d rest =>
    simp only [escapeAt, Option.ite_none_right_eq_some, Option.some.injEq, Prod.mk.injEq, ne_eq, List.cons_ne_nil,
      not_false_eq_true, true_and]
    constructor
    · rintro ⟨hc, rfl, rfl⟩
      exact ⟨hc, rfl, rfl⟩
    · rintro ⟨hc, rfl, rfl⟩
      exact ⟨hc, rfl, rfl⟩

theorem escapeAt_eq_none {c : Char} {rest : Text} : escapeAt c rest = none ↔ (c = '\\' → rest = []) := by
  cases rest <;> simp [escapeAt]

theorem escapeAt_of_ne {c : Char} (h : c ≠ '\\') (rest : Text) : escapeAt c rest = none :=
  escapeAt_eq_none.mpr fun hc => absurd hc h

theorem stringAt_eq_some {c : Char} {rest : Text} {item : Option Text} {more : Nat} :
    stringAt c rest = some (item, more) ↔ isQuote c = true ∧ ∃ body, stringBody? c rest = some body ∧
      item = (if body.isEmpty then none else some (inside c c .string body)) ∧ more = body.length + 1 := by
  simp only [stringAt, Option.ite_none_right_eq_some, Option.map_eq_some_iff, Prod.mk.injEq, isQuote, Bool.or_eq_true,
    decide_eq_true_eq, List.mem_cons, List.not_mem_nil, or_false]
  constructor
  · rintro ⟨hc, body, hbody, rfl, rfl⟩
    exact ⟨hc, body, hbody, rfl, rfl⟩
  · rintro ⟨hc, body, hbody, rfl, rfl⟩
    exact ⟨hc, body, hbody, rfl, rfl⟩

theorem stringAt_eq_none {c : Char} {rest : Text} :
    stringAt c rest = none ↔ (isQuote c = true → stringBody? c rest = none) := by
  simp [stringAt, isQuote]

theorem stringAt_of_not_quote {c : Char} (h : isQuote c = false) (rest : Text) : stringAt c rest = none := by
  refine stringAt_eq_none.mpr fun hquote => ?_
  rw [h] at hquote
  cases hquote

theorem groupAt_eq_some {c : Char} {rest : Text} {item : Option Text} {more : Nat} :
    groupAt c rest = some (item, more) ↔ c = '(' ∧ ∃ body, groupBody? 0 rest = some body ∧
      item = some (inside '(' ')' .group body) ∧ more = body.length + 1 := by
  simp only [groupAt, Option.ite_none_right_eq_some, Option.map_eq_some_iff, Prod.mk.injEq]
  constructor
  · rintro ⟨hc, body, hbody, rfl, rfl⟩
    exact ⟨hc, body, hbody, rfl, rfl⟩
  · rintro ⟨hc, body, hbody, rfl, rfl⟩
    exact ⟨hc, body, hbody, rfl, rfl⟩

theorem groupAt_eq_none {c : Char} {rest : Text} :
    groupAt c rest = none ↔ (c = '(' → groupBody? 0 rest = none) := by
  simp [groupAt]

theorem groupAt_of_ne {c : Char} (h : c ≠ '(') (rest : Text) : groupAt c rest = none :=
  groupAt_eq_none.mpr fun hopen => absurd hopen h

end Masked

namespace Swept

-- The parts of the three sweeps that mask a text.
def IsEscape (part : Swept (Option Text)) : Prop :=
  (∃ c, part = loose c) ∨ ∃ c, part = taken (some (List.replicate 2 Cover.escape.char)) ['\\', c]

def IsString (part : Swept (Option Text)) : Prop :=
  (∃ c, part = loose c) ∨ ∃ quote body, isQuote quote = true ∧ quote ∉ body ∧ '\n' ∉ body ∧ '\\' ∉ body ∧
    part = taken (if body.isEmpty then none else some (inside quote quote .string body)) (quote :: body ++ [quote])

def IsGroup (part : Swept (Option Text)) : Prop :=
  (∃ c, part = loose c) ∨ ∃ body, (∀ more, groupBody? 0 (body ++ ')' :: more) = some body) ∧
    part = taken (some (inside '(' ')' .group body)) ('(' :: body ++ [')'])

theorem isEscape_of_mem {text : Text} {part : Swept (Option Text)} (h : part ∈ text.sweep escapeAt) :
    part.IsEscape := by
  rcases Text.of_mem_sweep h with ⟨c, rest, _, rfl⟩ | ⟨c, rest, item, more, hoffer, rfl⟩
  · exact .inl ⟨c, rfl⟩
  · obtain ⟨rfl, hne, rfl, rfl⟩ := escapeAt_eq_some.mp hoffer
    obtain ⟨d, rest, rfl⟩ := List.exists_cons_of_ne_nil hne
    exact .inr ⟨d, rfl⟩

theorem isString_of_mem {text : Text} {part : Swept (Option Text)} (h : part ∈ text.sweep stringAt) :
    part.IsString := by
  rcases Text.of_mem_sweep h with ⟨c, rest, _, rfl⟩ | ⟨c, rest, item, more, hoffer, rfl⟩
  · exact .inl ⟨c, rfl⟩
  · obtain ⟨hquote, body, hbody, rfl, rfl⟩ := stringAt_eq_some.mp hoffer
    obtain ⟨⟨more, rfl⟩, hnot, hline, hslash⟩ := stringBody?_eq_some hbody
    refine .inr ⟨c, body, hquote, hnot, hline, hslash, ?_⟩
    rw [List.take_append, List.take_of_length_le (Nat.le_succ _)]
    simp

theorem isGroup_of_mem {text : Text} {part : Swept (Option Text)} (h : part ∈ text.sweep groupAt) :
    part.IsGroup := by
  rcases Text.of_mem_sweep h with ⟨c, rest, _, rfl⟩ | ⟨c, rest, item, more, hoffer, rfl⟩
  · exact .inl ⟨c, rfl⟩
  · obtain ⟨rfl, body, hbody, rfl, rfl⟩ := groupAt_eq_some.mp hoffer
    obtain ⟨⟨more, rfl⟩, hagain⟩ := groupBody?_eq_some hbody
    refine .inr ⟨body, hagain, ?_⟩
    rw [List.take_append, List.take_of_length_le (Nat.le_succ _)]
    simp

theorem IsEscape.fits {part : Swept (Option Text)} (h : part.IsEscape) : part.Fits := by
  rcases h with ⟨c, rfl⟩ | ⟨c, rfl⟩
  · exact fits_loose c
  · refine ⟨by simp [source], rfl, fun u v huv hu hv => ?_⟩
    have huv : [Cover.escape.char, Cover.escape.char] = u ++ v := huv
    cases u with
    | nil => exact absurd rfl hu
    | cons a u =>
      cases u with
      | cons b u => simp_all
      | nil =>
        obtain ⟨rfl, rfl⟩ : Cover.escape.char = a ∧ [Cover.escape.char] = v := by simpa using huv
        exact ⟨_, rfl, _, rfl, .inl ⟨isCover_char .escape, isCover_char .escape⟩⟩

theorem fits_inside {opening closing : Char} {cover : Cover} {body : Text}
    (hopening : opening = '(' ∨ isQuote opening = true) (hclosing : closing = ')' ∨ isQuote closing = true) :
    Fits (taken (some (inside opening closing cover body)) (opening :: body ++ [closing])) where
  source_ne_nil := by simp [source]
  length_shown := by simp [shown, source, inside]
  tied u v h := tied_inside hopening hclosing h

theorem keepsEnds_inside {opening closing : Char} {cover : Cover} {body : Text} :
    KeepsEnds (taken (some (inside opening closing cover body)) (opening :: body ++ [closing])) where
  head := by simp [shown, source, inside]
  last := by simp only [shown, source, inside, List.getLast?_concat]

-- A string whose body is empty shows what an empty body would show.
theorem IsString.eq_inside {quote : Char} {body : Text} :
    shown (taken (if body.isEmpty then none else some (inside quote quote .string body)) (quote :: body ++ [quote])) =
      inside quote quote .string body := by
  cases body <;> rfl

theorem IsString.fits {part : Swept (Option Text)} (h : part.IsString) : part.Fits := by
  rcases h with ⟨c, rfl⟩ | ⟨quote, body, hquote, _, _, _, rfl⟩
  · exact fits_loose c
  · have hinside : Fits (taken (some (inside quote quote .string body)) (quote :: body ++ [quote])) :=
      fits_inside (.inr hquote) (.inr hquote)
    exact ⟨hinside.source_ne_nil, by rw [eq_inside]; exact hinside.length_shown,
      by rw [eq_inside]; exact hinside.tied⟩

theorem IsString.keepsEnds {part : Swept (Option Text)} (h : part.IsString) : part.KeepsEnds := by
  rcases h with ⟨c, rfl⟩ | ⟨quote, body, _, _, _, _, rfl⟩
  · exact keepsEnds_loose c
  · have hinside : KeepsEnds (taken (some (inside quote quote .string body)) (quote :: body ++ [quote])) :=
      keepsEnds_inside
    exact ⟨by rw [eq_inside]; exact hinside.head, by rw [eq_inside]; exact hinside.last⟩

theorem IsGroup.fits {part : Swept (Option Text)} (h : part.IsGroup) : part.Fits := by
  rcases h with ⟨c, rfl⟩ | ⟨body, _, rfl⟩
  · exact fits_loose c
  · exact fits_inside (.inl rfl) (.inl rfl)

theorem IsGroup.keepsEnds {part : Swept (Option Text)} (h : part.IsGroup) : part.KeepsEnds := by
  rcases h with ⟨c, rfl⟩ | ⟨body, _, rfl⟩
  · exact keepsEnds_loose c
  · exact keepsEnds_inside

end Swept

namespace Masked

-- Where a text can be parted after a sweep that hides, the sweep has parted it, too.
theorem exists_parts_of_untied {parts : Hidden} (hfits : ∀ part ∈ parts, part.Fits) {u v : Text}
    (h : shown parts = u ++ v) (huntied : ¬TiedAt u v) :
    ∃ P Q, parts = P ++ Q ∧ shown P = u ∧ shown Q = v := by
  induction parts generalizing u with
  | nil =>
    obtain ⟨rfl, rfl⟩ := List.append_eq_nil_iff.mp h.symm
    exact ⟨[], [], rfl, rfl, rfl⟩
  | cons part parts ih =>
    have hmore := fun p hp => hfits p (List.mem_cons_of_mem part hp)
    by_cases hu : u = []
    · subst hu
      exact ⟨[], part :: parts, rfl, rfl, h⟩
    · rw [shown_cons] at h
      rcases List.append_eq_append_iff.mp h with ⟨w, rfl, hw⟩ | ⟨w, hw, rfl⟩
      · by_cases hnil : w = []
        · subst hnil
          exact ⟨[part], parts, rfl, by simp [shown_cons], by simpa using hw⟩
        · have hlast : TiedAt w v → TiedAt (part.shown ++ w) v := by
            rintro ⟨a, ha, rest⟩
            exact ⟨a, by simp [List.getLast?_append, Option.mem_def.mp ha], rest⟩
          obtain ⟨P, Q, rfl, rfl, rfl⟩ := ih hmore hw (mt hlast huntied)
          exact ⟨part :: P, Q, rfl, shown_cons part P, rfl⟩
      · by_cases hnil : w = []
        · subst hnil
          exact ⟨[part], parts, rfl, by simp [shown_cons, hw], by simp⟩
        · obtain ⟨a, ha, b, hb, hab⟩ := (hfits part List.mem_cons_self).tied u w hw hu hnil
          exact absurd ⟨a, ha, b, by simp [List.head?_append, Option.mem_def.mp hb], hab⟩ huntied

theorem head?_shown {parts : Hidden} (hkeeps : ∀ part ∈ parts, part.KeepsEnds) :
    (shown parts).head? = (parts.flatMap Swept.source).head? := by
  induction parts with
  | nil => rfl
  | cons part parts ih =>
    rw [shown_cons, List.flatMap_cons, List.head?_append, List.head?_append,
      (hkeeps part List.mem_cons_self).head, ih fun p hp => hkeeps p (List.mem_cons_of_mem part hp)]

theorem getLast?_shown {parts : Hidden} (hkeeps : ∀ part ∈ parts, part.KeepsEnds) :
    (shown parts).getLast? = (parts.flatMap Swept.source).getLast? := by
  induction parts with
  | nil => rfl
  | cons part parts ih =>
    rw [shown_cons, List.flatMap_cons, List.getLast?_append, List.getLast?_append,
      (hkeeps part List.mem_cons_self).last, ih fun p hp => hkeeps p (List.mem_cons_of_mem part hp)]

theorem length_shown {parts : Hidden} (hfits : ∀ part ∈ parts, part.Fits) :
    (shown parts).length = (parts.flatMap Swept.source).length := by
  induction parts with
  | nil => rfl
  | cons part parts ih =>
    rw [shown_cons, List.flatMap_cons, List.length_append, List.length_append,
      (hfits part List.mem_cons_self).length_shown, ih fun p hp => hfits p (List.mem_cons_of_mem part hp)]

end Masked

-- What the three sweeps make of a stretch of text, each of them in what the one before shows.
@[ext] structure Layers where
  escapes : Hidden
  strings : Hidden
  groups : Hidden

namespace Layers

instance : Append Layers :=
  ⟨fun l m => ⟨l.escapes ++ m.escapes, l.strings ++ m.strings, l.groups ++ m.groups⟩⟩

@[simp] theorem escapes_append (l m : Layers) : (l ++ m).escapes = l.escapes ++ m.escapes := rfl

@[simp] theorem strings_append (l m : Layers) : (l ++ m).strings = l.strings ++ m.strings := rfl

@[simp] theorem groups_append (l m : Layers) : (l ++ m).groups = l.groups ++ m.groups := rfl

instance : Zero Layers := ⟨⟨[], [], []⟩⟩

@[simp] theorem escapes_zero : (0 : Layers).escapes = [] := rfl

@[simp] theorem strings_zero : (0 : Layers).strings = [] := rfl

@[simp] theorem groups_zero : (0 : Layers).groups = [] := rfl

theorem append_assoc (l m n : Layers) : l ++ m ++ n = l ++ (m ++ n) := by
  ext1 <;> simp

@[simp] theorem append_zero (l : Layers) : l ++ 0 = l := by
  ext1 <;> simp

@[simp] theorem zero_append (l : Layers) : 0 ++ l = l := by
  ext1 <;> simp

-- The text before the first sweep and after the last.
def source (l : Layers) : Text := l.escapes.flatMap Swept.source

def text (l : Layers) : Text := shown l.groups

@[simp] theorem source_zero : (0 : Layers).source = [] := rfl

@[simp] theorem text_zero : (0 : Layers).text = [] := rfl

@[simp] theorem source_append (l m : Layers) : (l ++ m).source = l.source ++ m.source := by
  simp [source]

@[simp] theorem text_append (l m : Layers) : (l ++ m).text = l.text ++ m.text := by
  simp [text]

structure Linked (l : Layers) : Prop where
  strings_eq : l.strings.flatMap Swept.source = shown l.escapes
  groups_eq : l.groups.flatMap Swept.source = shown l.strings
  isEscape : ∀ part ∈ l.escapes, part.IsEscape
  isString : ∀ part ∈ l.strings, part.IsString
  isGroup : ∀ part ∈ l.groups, part.IsGroup

namespace Linked

variable {l : Layers}

theorem zero : (0 : Layers).Linked := ⟨rfl, rfl, by simp, by simp, by simp⟩

theorem append {m : Layers} (hl : l.Linked) (hm : m.Linked) : (l ++ m).Linked where
  strings_eq := by simp [hl.strings_eq, hm.strings_eq]
  groups_eq := by simp [hl.groups_eq, hm.groups_eq]
  isEscape part hpart := (List.mem_append.mp hpart).elim (hl.isEscape part) (hm.isEscape part)
  isString part hpart := (List.mem_append.mp hpart).elim (hl.isString part) (hm.isString part)
  isGroup part hpart := (List.mem_append.mp hpart).elim (hl.isGroup part) (hm.isGroup part)

theorem fits_escapes (h : l.Linked) : ∀ part ∈ l.escapes, part.Fits := fun part hpart => (h.isEscape part hpart).fits

theorem fits_strings (h : l.Linked) : ∀ part ∈ l.strings, part.Fits := fun part hpart => (h.isString part hpart).fits

theorem fits_groups (h : l.Linked) : ∀ part ∈ l.groups, part.Fits := fun part hpart => (h.isGroup part hpart).fits

theorem length_escapes (h : l.Linked) : (shown l.escapes).length = l.source.length :=
  length_shown h.fits_escapes

theorem length_strings (h : l.Linked) : (shown l.strings).length = l.source.length := by
  rw [length_shown h.fits_strings, h.strings_eq, h.length_escapes]

theorem length_text (h : l.Linked) : l.text.length = l.source.length := by
  rw [text, length_shown h.fits_groups, h.groups_eq, h.length_strings]

private theorem eq_nil_of_source {parts : Hidden} (hfits : ∀ part ∈ parts, part.Fits)
    (h : parts.flatMap Swept.source = []) : parts = [] := by
  cases parts with
  | nil => rfl
  | cons part parts =>
    rw [List.flatMap_cons, List.append_eq_nil_iff] at h
    exact absurd h.1 (hfits part List.mem_cons_self).source_ne_nil

-- Layers that show nothing are empty.
theorem eq_zero (h : l.Linked) (htext : l.text = []) : l = 0 := by
  have hsource : l.source = [] := List.length_eq_zero_iff.mp (by rw [← h.length_text, htext]; rfl)
  have hescapes : l.escapes = [] := eq_nil_of_source h.fits_escapes hsource
  have hstrings : l.strings = [] := eq_nil_of_source h.fits_strings (by rw [h.strings_eq, hescapes]; rfl)
  have hgroups : l.groups = [] := eq_nil_of_source h.fits_groups (by rw [h.groups_eq, hstrings]; rfl)
  exact Layers.ext hescapes hstrings hgroups

-- A masked text can be parted into stretches that were masked on their own wherever its
-- neighbours there are not tied.
theorem exists_append (h : l.Linked) {u v : Text} (huv : l.text = u ++ v) (huntied : ¬TiedAt u v) :
    ∃ l₁ l₂ : Layers, l = l₁ ++ l₂ ∧ l₁.Linked ∧ l₂.Linked ∧ l₁.text = u ∧ l₂.text = v := by
  obtain ⟨escapes, strings, groups⟩ := l
  obtain ⟨hstrings, hgroups, hescape, hstring, hgroup⟩ := h
  dsimp only at hstrings hgroups hescape hstring hgroup
  obtain ⟨P₃, Q₃, rfl, rfl, rfl⟩ := exists_parts_of_untied (fun p hp => (hgroup p hp).fits) huv huntied
  have hkeeps : ∀ part ∈ P₃ ++ Q₃, part.KeepsEnds := fun p hp => (hgroup p hp).keepsEnds
  rw [List.flatMap_append] at hgroups
  obtain ⟨P₂, Q₂, rfl, hP₂, hQ₂⟩ := exists_parts_of_untied (fun p hp => (hstring p hp).fits) hgroups.symm (by
    unfold TiedAt at huntied ⊢
    rwa [← getLast?_shown fun p hp => hkeeps p (List.mem_append_left _ hp),
      ← head?_shown fun p hp => hkeeps p (List.mem_append_right _ hp)])
  have hkeeps' : ∀ part ∈ P₂ ++ Q₂, part.KeepsEnds := fun p hp => (hstring p hp).keepsEnds
  rw [List.flatMap_append] at hstrings
  obtain ⟨P₁, Q₁, rfl, hP₁, hQ₁⟩ := exists_parts_of_untied (fun p hp => (hescape p hp).fits) hstrings.symm (by
    unfold TiedAt at huntied ⊢
    rwa [← getLast?_shown fun p hp => hkeeps' p (List.mem_append_left _ hp),
      ← head?_shown fun p hp => hkeeps' p (List.mem_append_right _ hp), hP₂, hQ₂,
      ← getLast?_shown fun p hp => hkeeps p (List.mem_append_left _ hp),
      ← head?_shown fun p hp => hkeeps p (List.mem_append_right _ hp)])
  refine ⟨⟨P₁, P₂, P₃⟩, ⟨Q₁, Q₂, Q₃⟩, rfl, ⟨hP₁.symm, hP₂.symm, ?_, ?_, ?_⟩, ⟨hQ₁.symm, hQ₂.symm, ?_, ?_, ?_⟩, rfl, rfl⟩
  · exact fun p hp => hescape p (List.mem_append_left _ hp)
  · exact fun p hp => hstring p (List.mem_append_left _ hp)
  · exact fun p hp => hgroup p (List.mem_append_left _ hp)
  · exact fun p hp => hescape p (List.mem_append_right _ hp)
  · exact fun p hp => hstring p (List.mem_append_right _ hp)
  · exact fun p hp => hgroup p (List.mem_append_right _ hp)

end Linked

-- The layers of a whole text.
def ofText (text : Text) : Layers :=
  let escapes := text.sweep escapeAt
  let strings := (shown escapes).sweep stringAt
  ⟨escapes, strings, (shown strings).sweep groupAt⟩

theorem linked_ofText (text : Text) : (ofText text).Linked where
  strings_eq := Text.flatMap_source_sweep _
  groups_eq := Text.flatMap_source_sweep _
  isEscape _ := Swept.isEscape_of_mem
  isString _ := Swept.isString_of_mem
  isGroup _ := Swept.isGroup_of_mem

@[simp] theorem source_ofText (text : Text) : (ofText text).source = text := Text.flatMap_source_sweep _

theorem length_text_ofText (text : Text) : (ofText text).text.length = text.length := by
  rw [(linked_ofText text).length_text, source_ofText]

-- Each sweep finds the same again in the text that it was made of.
theorem sweep_escapes_ofText (text : Text) :
    Text.sweep escapeAt ((ofText text).escapes.flatMap Swept.source) = (ofText text).escapes := by
  rw [ofText, Text.flatMap_source_sweep]

theorem sweep_strings_ofText (text : Text) :
    Text.sweep stringAt ((ofText text).strings.flatMap Swept.source) = (ofText text).strings := by
  rw [ofText, Text.flatMap_source_sweep]

theorem sweep_groups_ofText (text : Text) :
    Text.sweep groupAt ((ofText text).groups.flatMap Swept.source) = (ofText text).groups := by
  rw [ofText, Text.flatMap_source_sweep]

-- A text of which no sweep takes anything.
def loose (text : Text) : Layers := ⟨text.map .loose, text.map .loose, text.map .loose⟩

theorem flatMap_source_loose (text : Text) : (text.map .loose : Hidden).flatMap Swept.source = text := by
  induction text with
  | nil => rfl
  | cons c text ih =>
    rw [List.map_cons, List.flatMap_cons, ih]
    rfl

theorem shown_loose (text : Text) : shown (text.map .loose) = text := by
  induction text with
  | nil => rfl
  | cons c text ih =>
    rw [List.map_cons, shown_cons, ih]
    rfl

theorem linked_loose (text : Text) : (loose text).Linked where
  strings_eq := by rw [loose, shown_loose, flatMap_source_loose]
  groups_eq := by rw [loose, shown_loose, flatMap_source_loose]
  isEscape part hpart := .inl (by obtain ⟨c, _, rfl⟩ := List.mem_map.mp hpart; exact ⟨c, rfl⟩)
  isString part hpart := .inl (by obtain ⟨c, _, rfl⟩ := List.mem_map.mp hpart; exact ⟨c, rfl⟩)
  isGroup part hpart := .inl (by obtain ⟨c, _, rfl⟩ := List.mem_map.mp hpart; exact ⟨c, rfl⟩)

@[simp] theorem source_loose (text : Text) : (loose text).source = text := flatMap_source_loose text

@[simp] theorem text_loose (text : Text) : (loose text).text = text := shown_loose text

-- What the layers hide, from some offset on.
def replacementsFrom (offset : Nat) (l : Layers) : List Replacement :=
  hiddenFrom offset l.escapes ++ hiddenFrom offset l.strings ++ hiddenFrom offset l.groups

end Layers

namespace Masked

-- Nothing is out of balance if no paren is left over.
theorem imbalanceFrom_eq_none_iff {offset : Nat} {parts : Hidden} :
    imbalanceFrom offset parts = none ↔ ∀ c, .loose c ∈ parts → c ≠ '(' ∧ c ≠ ')' := by
  induction parts generalizing offset with
  | nil => simp [imbalanceFrom]
  | cons part parts ih =>
    cases part with
    | taken item text => simp [imbalanceFrom, ih]
    | loose c =>
      rw [imbalanceFrom]
      split
      case isTrue hc => simp [hc]
      case isFalse hc =>
        split
        case isTrue hc' => simp [hc']
        case isFalse hc' => simp [ih, hc, hc']

theorem ofText_eq_ok_iff {text : Text} {masked : Masked} :
    ofText text = .ok masked ↔ imbalanceFrom 0 (Layers.ofText text).groups = none ∧
      masked = ⟨(Layers.ofText text).text, (Layers.ofText text).replacementsFrom 0⟩ := by
  unfold ofText
  dsimp only [Layers.ofText, Layers.text, Layers.replacementsFrom]
  split
  case h_1 error herror => simp [herror]
  case h_2 hnone => simp [hnone, eq_comm]

end Masked

end CssSelectors
