import CssSelectors.Proofs.Masking.Inside
import CssSelectors.Proofs.Masking.Veils

namespace CssSelectors

open Masked Text

-- A text that can stand between two quotes as it is: with none of them in it, on one line and
-- without escapes.
structure Text.Quotable (quote : Char) (body : Text) : Prop where
  quote : quote ∉ body
  line : '\n' ∉ body
  slash : '\\' ∉ body

namespace Masked

-- A quote that is left open before a string stays open if its body changes to one without that quote.
theorem stringBody?_quoted_congr {c quote : Char} {body text rest : Text} (hquote : isQuote quote = true)
    (hbody : body.Quotable quote) (hc : c ∉ text) (h : stringBody? c (quote :: (body ++ quote :: rest)) = none) :
    stringBody? c (quote :: (text ++ quote :: rest)) = none := by
  rw [stringBody?_eq_none_iff] at h ⊢
  intro inner more hinner
  have hne : c ≠ quote := by
    rintro rfl
    simpa using h [] _ rfl
  have hnot : c ∉ quote :: (text ++ [quote]) := by simp [hne, hc]
  obtain ⟨x, rfl, hrest⟩ : ∃ x, inner = quote :: (text ++ [quote]) ++ x ∧ rest = x ++ c :: more := by
    have hsplit : quote :: (text ++ [quote]) ++ rest = inner ++ c :: more := by simpa using hinner
    rcases List.append_eq_append_iff.mp hsplit with hx | ⟨x, hx, hrest⟩
    · exact hx
    · cases x with
      | nil => exact ⟨[], by simp [hx], hrest.symm⟩
      | cons d x =>
        obtain ⟨rfl, -⟩ := List.cons.inj hrest
        exact absurd (hx ▸ List.mem_append_right inner List.mem_cons_self) hnot
  obtain ⟨hfeed, hslash, -⟩ := ne_of_isQuote hquote
  have hblocked := h (quote :: (body ++ [quote]) ++ x) more (by simp [hrest])
  simp only [List.mem_append, List.mem_cons, List.not_mem_nil, hfeed.symm, hslash.symm, hbody.line, hbody.slash,
    false_or, or_false] at hblocked
  exact hblocked.imp (List.mem_append_right _) (List.mem_append_right _)

-- A text closes a quote that was left open before it, on the same line.
def Closes (before : Hidden) (text : Text) : Prop :=
  ∃ first c rest, before = first ++ .loose c :: rest ∧ isQuote c = true ∧ '\n' ∉ rest.flatMap Swept.source ∧ c ∈ text

end Masked

-- What stands around a string in the layers of a text. Both its quotes are in sight while escapes
-- are hidden. Groups are swept after strings, so the body of the string does not show in them.
structure Frame where
  quote : Char
  escapesBefore : Hidden
  escapesAfter : Hidden
  stringsBefore : Hidden
  stringsAfter : Hidden
  groups : Hidden
  before_eq : stringsBefore.flatMap Swept.source = shown escapesBefore
  after_eq : stringsAfter.flatMap Swept.source = shown escapesAfter

namespace Frame

-- The layers of the text with some body of the string.
def fill (f : Frame) (body : Hidden) : Layers where
  escapes := f.escapesBefore ++ .loose f.quote :: (body ++ .loose f.quote :: f.escapesAfter)
  strings := f.stringsBefore ++
    .taken (some (inside f.quote f.quote .string (shown body))) (f.quote :: shown body ++ [f.quote]) :: f.stringsAfter
  groups := f.groups

-- The text before and after the string.
def before (f : Frame) : Text := f.escapesBefore.flatMap Swept.source

def after (f : Frame) : Text := f.escapesAfter.flatMap Swept.source

-- The same string with more text around it.
def within (f : Frame) {a c : Layers} (ha : a.Linked) (hc : c.Linked) : Frame where
  quote := f.quote
  escapesBefore := a.escapes ++ f.escapesBefore
  escapesAfter := f.escapesAfter ++ c.escapes
  stringsBefore := a.strings ++ f.stringsBefore
  stringsAfter := f.stringsAfter ++ c.strings
  groups := a.groups ++ f.groups ++ c.groups
  before_eq := by simp [ha.strings_eq, f.before_eq]
  after_eq := by simp [hc.strings_eq, f.after_eq]

variable {f : Frame} {body : Hidden} {text : Text}

theorem fill_within {a c : Layers} (ha : a.Linked) (hc : c.Linked) (body : Hidden) :
    (f.within ha hc).fill body = a ++ f.fill body ++ c := by
  ext1 <;> simp [fill, within]

theorem before_within {a c : Layers} (ha : a.Linked) (hc : c.Linked) :
    (f.within ha hc).before = a.source ++ f.before := by
  simp [before, within, Layers.source]

theorem source_fill (f : Frame) (body : Hidden) :
    (f.fill body).source = f.before ++ f.quote :: (body.flatMap Swept.source ++ f.quote :: f.after) := by
  simp [fill, Layers.source, before, after, Swept.source]

-- A body of the same length hides in the same way.
theorem shown_strings_fill (f : Frame) {body body' : Hidden} (h : (shown body').length = (shown body).length) :
    shown (f.fill body').strings = shown (f.fill body).strings := by
  simp [fill, shown_cons, Swept.shown, inside, h]

-- A string that is hidden is closed on its line and before any escape, and it is not empty.
theorem quotable_of_linked (h : (f.fill body).Linked) :
    isQuote f.quote = true ∧ (shown body).Quotable f.quote ∧ shown body ≠ [] := by
  obtain ⟨c, hc⟩ | ⟨quote, inner, hquote, hnot, hline, hslash, hpart⟩ := h.isString
      (.taken (some (inside f.quote f.quote .string (shown body))) (f.quote :: shown body ++ [f.quote])) (by simp [fill])
  · cases hc
  · obtain ⟨hcover, hsource⟩ := Swept.taken.inj hpart
    obtain ⟨rfl, hinner⟩ := List.cons.inj hsource
    obtain rfl : shown body = inner := List.append_cancel_right hinner
    refine ⟨hquote, ⟨hnot, hline, hslash⟩, fun hnil => ?_⟩
    simp [hnil] at hcover

-- The string may have any other body of the same length that can stand between its quotes.
theorem linked_fill (h : (f.fill body).Linked) (htext : text.Quotable f.quote) (hlength : text.length = (shown body).length) :
    (f.fill (text.map .loose)).Linked where
  strings_eq := by simp [fill, shown_cons, Swept.shown, Swept.source, f.before_eq, f.after_eq, Layers.shown_loose]
  groups_eq := by
    have hsame : shown (f.fill (text.map .loose)).strings = shown (f.fill body).strings :=
      f.shown_strings_fill (by rw [Layers.shown_loose, hlength])
    exact h.groups_eq.trans hsame.symm
  isEscape part hpart := by
    have hother : part ∈ text.map .loose ∨ part ∈ (f.fill body).escapes := by
      simp only [fill, List.mem_append, List.mem_cons] at hpart ⊢
      tauto
    rcases hother with hpart | hpart
    · obtain ⟨c, _, rfl⟩ := List.mem_map.mp hpart
      exact .inl ⟨c, rfl⟩
    · exact h.isEscape part hpart
  isString part hpart := by
    simp only [fill, Layers.shown_loose, List.mem_append, List.mem_cons] at hpart
    rcases hpart with hpart | rfl | hpart
    · exact h.isString part (by simp [fill, hpart])
    · obtain ⟨hquote, -, hne⟩ := quotable_of_linked h
      have hne : text ≠ [] := List.length_pos_iff.mp (hlength ▸ List.length_pos_iff.mpr hne)
      exact .inr ⟨f.quote, text, hquote, htext.quote, htext.line, htext.slash, by simp [hne]⟩
    · exact h.isString part (by simp [fill, hpart])
  isGroup := h.isGroup

-- Each of the sweeps takes the same from the text around the string.
theorem sweep_escapes_fill (hquote : isQuote f.quote = true) (htext : text.Quotable f.quote)
    (h : Layers.ofText (f.fill body).source = f.fill body) :
    sweep escapeAt (f.fill (text.map .loose)).source = (f.fill (text.map .loose)).escapes := by
  have hsweep := Layers.sweep_escapes_ofText (f.fill body).source
  rw [h] at hsweep
  obtain ⟨-, hstring⟩ := sweep_eq_append hsweep
  have hback := (sweep_eq_append (P := .loose f.quote :: body ++ [.loose f.quote]) (by simpa using hstring)).2
  have hidle : ∀ c ∈ f.quote :: (text ++ [f.quote]), ∀ rest, escapeAt c rest = none := by
    intro c hc
    refine escapeAt_of_ne ?_
    rintro rfl
    simp [(ne_of_isQuote hquote).2.1.symm, htext.slash] at hc
  calc sweep escapeAt (f.fill (text.map .loose)).source
      = sweep escapeAt (f.before ++ (f.quote :: (text ++ [f.quote]) ++ f.after)) := by
        rw [source_fill, Layers.flatMap_source_loose]
        simp
    _ = f.escapesBefore ++ sweep escapeAt (f.quote :: (text ++ [f.quote]) ++ f.after) :=
        sweep_escapeAt_congr (by simp [Swept.source]) (sweep_source_append hsweep)
    _ = f.escapesBefore ++ ((f.quote :: (text ++ [f.quote])).map .loose ++ f.escapesAfter) := by
        rw [sweep_append_of_idle hidle, after, hback]
    _ = (f.fill (text.map .loose)).escapes := by simp [fill]

theorem sweep_strings_fill (hquote : isQuote f.quote = true) (hbody : (shown body).Quotable f.quote)
    (htext : text.Quotable f.quote) (hne : text ≠ []) (hopen : ¬Closes f.stringsBefore text)
    (h : Layers.ofText (f.fill body).source = f.fill body) :
    sweep stringAt ((f.fill (text.map .loose)).strings.flatMap Swept.source) = (f.fill (text.map .loose)).strings := by
  have hsweep := Layers.sweep_strings_ofText (f.fill body).source
  rw [h] at hsweep
  obtain ⟨-, hstring⟩ := sweep_eq_append hsweep
  obtain ⟨-, hback⟩ := sweep_eq_append (P := [_]) hstring
  have hoffer : stringAt f.quote (text ++ f.quote :: f.stringsAfter.flatMap Swept.source) =
      some (some (inside f.quote f.quote .string text), text.length + 1) :=
    stringAt_eq_some.mpr ⟨hquote, text, stringBody?_append htext.quote htext.line htext.slash _, by simp [hne], rfl⟩
  calc sweep stringAt ((f.fill (text.map .loose)).strings.flatMap Swept.source)
      = sweep stringAt (f.stringsBefore.flatMap Swept.source ++
          f.quote :: (text ++ f.quote :: f.stringsAfter.flatMap Swept.source)) := by
        simp [fill, Layers.shown_loose, Swept.source]
    _ = f.stringsBefore ++ sweep stringAt (f.quote :: (text ++ f.quote :: f.stringsAfter.flatMap Swept.source)) := by
        refine sweep_stringAt_congr (fun first c rest hsplit hc hnone => ?_) (sweep_source_append hsweep)
        refine stringBody?_append_congr hnone fun hline hV => ?_
        rw [List.flatMap_cons, Swept.source] at hV
        have hnone : stringBody? c (f.quote :: (shown body ++ f.quote :: f.stringsAfter.flatMap Swept.source)) = none := by
          simpa using hV
        exact stringBody?_quoted_congr hquote hbody (fun hmem => hopen ⟨first, c, rest, hsplit, hc, hline, hmem⟩) hnone
    _ = (f.fill (text.map .loose)).strings := by
        have hle : text.length ≤ text.length + 1 := Nat.le_succ _
        rw [sweep_cons_of_some hoffer, List.drop_append, List.take_append, List.drop_of_length_le hle,
          List.take_of_length_le hle]
        simp [fill, Layers.shown_loose, hback]

-- So a text is masked around a string in the same way, whatever the string holds, as long as that closes no quote
-- which was left open before.
theorem ofText_fill (htext : text.Quotable f.quote) (hlength : text.length = (shown body).length)
    (hopen : ¬Closes f.stringsBefore text) (h : Layers.ofText (f.fill body).source = f.fill body) :
    Layers.ofText (f.fill (text.map .loose)).source = f.fill (text.map .loose) := by
  have hlinked : (f.fill body).Linked := h ▸ Layers.linked_ofText _
  obtain ⟨hquote, hbody, hne⟩ := quotable_of_linked hlinked
  have hne : text ≠ [] := List.length_pos_iff.mp (hlength ▸ List.length_pos_iff.mpr hne)
  have hrefilled := linked_fill hlinked htext hlength
  have hescapes := sweep_escapes_fill hquote htext h
  have hstrings := sweep_strings_fill hquote hbody htext hne hopen h
  have hgroups : sweep groupAt (shown (f.fill (text.map .loose)).strings) = (f.fill (text.map .loose)).groups := by
    have hsweep := Layers.sweep_groups_ofText (f.fill body).source
    rwa [h, hlinked.groups_eq, ← f.shown_strings_fill (by rw [Layers.shown_loose, hlength])] at hsweep
  rw [hrefilled.strings_eq] at hstrings
  simp only [Layers.ofText, hescapes, hstrings, hgroups]

-- Every string that is hidden stands in a frame.
theorem exists_fill {l : Layers} (h : l.Linked) {S T : Hidden} {cover value : Text}
    (hstrings : l.strings = S ++ .taken (some cover) value :: T) : ∃ (f : Frame) (body : Hidden), l = f.fill body ∧
      f.stringsBefore = S ∧ value = f.quote :: shown body ++ [f.quote] := by
  obtain ⟨c, hc⟩ | ⟨quote, inner, hquote, -, -, -, hpart⟩ := h.isString (.taken (some cover) value) (by simp [hstrings])
  · cases hc
  obtain ⟨hcover, rfl⟩ := Swept.taken.inj hpart
  have hcover : cover = inside quote quote .string inner := by
    split at hcover
    case isTrue => cases hcover
    case isFalse => exact Option.some.inj hcover
  have hnot : ∀ {parts : Hidden}, (∀ part ∈ parts, part.IsEscape) → ∀ item text, .taken item text ∈ parts →
      quote ∉ (Swept.taken item text).shown :=
    fun hparts item text hmem => Layers.notMem_shown_of_isEscape (isCover_of_isQuote hquote) (hparts _ hmem)
  have hlinked := h.strings_eq
  rw [hstrings, List.flatMap_append, List.flatMap_cons] at hlinked
  obtain ⟨E₁, E, hE, hbefore, hmore⟩ := exists_loose_of_shown (c := quote) (hnot h.isEscape)
    (u := S.flatMap Swept.source) (v := inner ++ quote :: T.flatMap Swept.source) (by rw [← hlinked]; simp [Swept.source])
  have hescape : ∀ part ∈ E, part.IsEscape := fun part hpart => h.isEscape part (by simp [hE, hpart])
  obtain ⟨E₂, E₃, rfl, rfl, hafter⟩ := exists_loose_of_shown (hnot hescape) hmore
  refine ⟨⟨quote, E₁, E₃, S, T, l.groups, hbefore.symm, hafter.symm⟩, E₂, ?_, rfl, rfl⟩
  exact Layers.ext hE (by rw [hstrings, hcover]; rfl) rfl

end Frame

-- A masked text hides something at some place: there is a quote with a cover after it, or the place is in a group.
def Hides (w : Text) (place : Nat) : Prop :=
  ∃ a mark c rest, w = a ++ mark :: c :: rest ∧ isCover c = true ∧
    (isQuote mark = true ∧ a.length = place ∨ mark = '(' ∧ a.length < place)

-- A quote is in sight after the last sweep, or it is in a group.
theorem Masked.hides_shown {parts : Hidden} (hparts : ∀ part ∈ parts, part.IsGroup) {quote c : Char}
    (hquote : isQuote quote = true) (hcover : isCover c = true) {u v : Text}
    (h : parts.flatMap Swept.source = u ++ quote :: c :: v) : Hides (shown parts) u.length := by
  obtain ⟨P, part, Q, x, y, rfl, hpart, rfl, hy⟩ := exists_split_of_flatMap h
  have hfits : ∀ part ∈ P, part.Fits := fun part hpart => (hparts part (List.mem_append_left _ hpart)).fits
  rw [shown_append, shown_cons, List.length_append, ← length_shown hfits]
  rcases hparts part (by simp) with ⟨d, rfl⟩ | ⟨body, -, rfl⟩
  · cases x with
    | cons e x => simp [Swept.source] at hpart
    | nil =>
      obtain ⟨rfl, rfl⟩ := List.cons.inj hpart
      cases Q with
      | nil => cases hy
      | cons next Q =>
        rcases hparts next (by simp) with ⟨e, rfl⟩ | ⟨body, -, rfl⟩
        · obtain ⟨rfl, -⟩ := List.cons.inj hy
          exact ⟨shown P, d, c, shown Q, rfl, hcover, .inl ⟨hquote, rfl⟩⟩
        · obtain ⟨rfl, -⟩ := List.cons.inj hy
          exact absurd hcover (by decide)
  · obtain ⟨-, -, hopening, hclosing⟩ := ne_of_isQuote hquote
    cases x with
    | nil => exact absurd (List.cons.inj hpart).1.symm hopening
    | cons e x =>
      cases body with
      | nil =>
        have hlast : [')'] = x ++ quote :: y := (List.cons.inj hpart).2
        have hmem : quote ∈ [')'] := hlast ▸ List.mem_append_right x List.mem_cons_self
        exact absurd (List.mem_singleton.mp hmem) hclosing
      | cons d body =>
        refine ⟨shown P, '(', Cover.group.char, List.replicate body.length Cover.group.char ++ ')' :: shown Q, ?_,
          isCover_char .group, .inr ⟨rfl, by rw [List.length_cons]; omega⟩⟩
        simp [Swept.shown, inside, List.replicate_succ]

-- Hiding escapes moves no string.
theorem Frame.length_before {f : Frame} {body : Hidden} (h : (f.fill body).Linked) :
    (f.stringsBefore.flatMap Swept.source).length = f.before.length := by
  rw [f.before_eq, length_shown fun part hpart => (h.isEscape part (by simp [fill, hpart])).fits]
  rfl

-- So the body of a string is hidden by covers after its quote or else with the group that the string is in.
theorem Frame.hides {f : Frame} {body : Hidden} (h : (f.fill body).Linked) : Hides (f.fill body).text f.before.length := by
  obtain ⟨hquote, -, hne⟩ := quotable_of_linked h
  obtain ⟨n, hn⟩ : ∃ n, (shown body).length = n + 1 :=
    ⟨(shown body).length - 1, by have := List.length_pos_iff.mpr hne; omega⟩
  rw [← length_before h, ← length_shown fun part hpart => (h.isString part (by simp [fill, hpart])).fits]
  refine hides_shown (v := List.replicate n Cover.string.char ++ f.quote :: shown f.stringsAfter) h.isGroup hquote
    (isCover_char .string) (h.groups_eq.trans ?_)
  simp [fill, shown_cons, Swept.shown, inside, hn, List.replicate_succ]

end CssSelectors
