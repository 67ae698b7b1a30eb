import CssSelectors.Proofs.Masking.Layers

namespace CssSelectors

open Masked

namespace Replacement

-- A token that does not stand around the hidden stretch is left alone.
theorem putBack_eq_self {replacement : Replacement} {token : Token}
    (h : replacement.offset < token.start ∨ token.stop < replacement.stop) :
    replacement.putBack token = token := by
  unfold putBack
  dsimp only
  rw [if_neg]
  simp only [Bool.and_eq_true, decide_eq_true_eq]
  omega

theorem foldr_putBack_eq_self {replacements : List Replacement} {token : Token}
    (h : ∀ r ∈ replacements, r.offset < token.start ∨ token.stop < r.stop) :
    replacements.foldr putBack token = token := by
  induction replacements with
  | nil => rfl
  | cons r more ih =>
    rw [List.foldr_cons, ih fun s hs => h s (List.mem_cons_of_mem r hs), putBack_eq_self (h r List.mem_cons_self)]

end Replacement

namespace Masked

theorem hiddenFrom_append (offset : Nat) (P Q : Hidden) :
    hiddenFrom offset (P ++ Q) =
      hiddenFrom offset P ++ hiddenFrom (offset + (P.flatMap Swept.source).length) Q := by
  induction P generalizing offset with
  | nil => simp [hiddenFrom]
  | cons part P ih =>
    rcases part with c | ⟨_ | cover, value⟩ <;>
      simp [hiddenFrom, Swept.source, ih, Nat.add_assoc, Nat.add_comm]

-- What is hidden was taken, and its offset is the length of all that stands before it.
theorem exists_of_mem_hiddenFrom {offset place : Nat} {parts : Hidden} {value : Text}
    (h : ⟨value, place⟩ ∈ hiddenFrom offset parts) : ∃ P cover Q, parts = P ++ .taken (some cover) value :: Q ∧
      place = offset + (P.flatMap Swept.source).length := by
  induction parts generalizing offset with
  | nil => cases h
  | cons part parts ih =>
    have hmore : ⟨value, place⟩ ∈ hiddenFrom (offset + part.source.length) parts → ∃ P cover Q,
        part :: parts = P ++ .taken (some cover) value :: Q ∧ place = offset + (P.flatMap Swept.source).length := by
      intro hmem
      obtain ⟨P, cover, Q, rfl, rfl⟩ := ih hmem
      exact ⟨part :: P, cover, Q, rfl, by rw [List.flatMap_cons, List.length_append, Nat.add_assoc]⟩
    rcases part with c | ⟨_ | cover, text⟩
    · exact hmore h
    · exact hmore h
    · rcases List.mem_cons.mp h with heq | hmem
      · obtain ⟨rfl, rfl⟩ := Replacement.mk.inj heq
        exact ⟨[], cover, parts, rfl, rfl⟩
      · exact hmore hmem

-- What is hidden lies within the text that was swept.
theorem bounds_of_mem_hiddenFrom {parts : Hidden} (hfits : ∀ part ∈ parts, part.Fits) {offset : Nat}
    {r : Replacement} (h : r ∈ hiddenFrom offset parts) :
    offset ≤ r.offset ∧ r.offset < r.stop ∧ r.stop ≤ offset + (parts.flatMap Swept.source).length := by
  induction parts generalizing offset with
  | nil => simp [hiddenFrom] at h
  | cons part parts ih =>
    have hmore := fun p hp => hfits p (List.mem_cons_of_mem part hp)
    have hlength : ((part :: parts).flatMap Swept.source).length =
        part.source.length + (parts.flatMap Swept.source).length := by simp
    rcases part with c | ⟨_ | cover, value⟩
    · have hbounds := ih hmore (by simpa [hiddenFrom] using h)
      omega
    · have hbounds := ih hmore (by simpa [hiddenFrom] using h)
      omega
    · rcases List.mem_cons.mp (by simpa [hiddenFrom] using h) with rfl | h
      · have hpos := List.length_pos_iff.mpr (hfits _ List.mem_cons_self).source_ne_nil
        simp only [Swept.source, Replacement.stop] at hpos hlength ⊢
        omega
      · have hbounds := ih hmore h
        simp only [Swept.source] at hlength hbounds ⊢
        omega

-- If no step has changed a token, it comes out as it went in.
theorem content_eq_of_unchanged {masked : Masked} {token : Token} (h : (masked.unmask token).2 = false) :
    (masked.unmask token).1.content = token.content := by
  unfold unmask at h ⊢
  generalize masked.replacements = replacements at h ⊢
  induction replacements with
  | nil => rfl
  | cons replacement more ih =>
    rw [List.foldr_cons] at h ⊢
    generalize List.foldr _ _ more = before at h ih ⊢
    obtain ⟨current, changed⟩ := before
    simp only [Bool.or_eq_false_iff, bne_eq_false_iff_eq] at h ih ⊢
    rw [h.2, ih h.1]

theorem eq_of_unchanged {masked : Masked} {token : Token} (h : (masked.unmask token).2 = false) :
    (masked.unmask token).1 = token := by
  obtain ⟨content, heq, -⟩ := exists_unmask_eq masked token
  have hsame := content_eq_of_unchanged h
  rw [heq] at hsame ⊢
  obtain rfl : content = token.content := hsame
  cases token
  rfl

-- Within a token the hidden stretches come back one after another, the last first.
private theorem foldr_putBack_inside {parts : Hidden} (hfits : ∀ part ∈ parts, part.Fits) {token : Token}
    (before : Text) {after : Text} (hcontent : token.content = before ++ shown parts ++ after)
    (hstop : token.start + before.length + (parts.flatMap Swept.source).length ≤ token.stop) :
    (hiddenFrom (token.start + before.length) parts).foldr Replacement.putBack token =
      { token with content := before ++ parts.flatMap Swept.source ++ after } := by
  induction parts generalizing before with
  | nil =>
    cases token
    simp_all [hiddenFrom]
  | cons part parts ih =>
    have hmore := fun p hp => hfits p (List.mem_cons_of_mem part hp)
    have hpart := hfits part List.mem_cons_self
    rw [List.flatMap_cons, List.length_append] at hstop
    have hrest := ih hmore (before ++ part.shown) (by simp [hcontent, shown_cons])
      (by rw [List.length_append, hpart.length_shown]; omega)
    rw [List.length_append, hpart.length_shown] at hrest
    rcases part with c | ⟨_ | cover, value⟩
    · simpa [hiddenFrom, Nat.add_assoc, Swept.shown] using hrest
    · simpa [hiddenFrom, Nat.add_assoc, Swept.shown] using hrest
    · have hcover : cover.length = value.length := hpart.length_shown
      simp only [Swept.source, Swept.shown] at hrest hstop
      rw [hiddenFrom, List.foldr_cons, Nat.add_assoc, hrest]
      have hlocal : token.start + before.length - token.start = before.length := by omega
      unfold Replacement.putBack
      dsimp only
      rw [if_pos]
      · simp only [hlocal, List.append_assoc, List.take_left, ← hcover]
        rw [List.drop_append, List.drop_of_length_le (by omega)]
        simp [Swept.source]
      · simp only [hlocal, Bool.and_eq_true, decide_eq_true_eq, List.length_append]
        simp only [Replacement.stop]
        omega

-- Of what a sweep has hidden, a token takes back what lies within it.
theorem foldr_putBack_hiddenFrom {A M C : Hidden} (hfits : ∀ part ∈ A ++ M ++ C, part.Fits) {token : Token}
    (hstart : token.start = (A.flatMap Swept.source).length)
    (hstop : token.stop = token.start + (M.flatMap Swept.source).length) :
    (hiddenFrom 0 (A ++ M ++ C)).foldr Replacement.putBack token =
      (hiddenFrom token.start M).foldr Replacement.putBack token := by
  rw [hiddenFrom_append, hiddenFrom_append, List.foldr_append, List.foldr_append, Nat.zero_add]
  have hafter : (hiddenFrom ((A ++ M).flatMap Swept.source).length C).foldr Replacement.putBack token = token := by
    refine Replacement.foldr_putBack_eq_self fun r hr => .inr ?_
    have hbounds := bounds_of_mem_hiddenFrom (fun p hp => hfits p (by simp [hp])) hr
    simp only [List.flatMap_append, List.length_append] at hbounds
    omega
  rw [hafter, ← hstart]
  obtain ⟨content, hcontent, _⟩ := exists_unmask_eq ⟨[], hiddenFrom token.start M⟩ token
  rw [fst_unmask] at hcontent
  rw [Nat.zero_add, hcontent]
  refine Replacement.foldr_putBack_eq_self fun r hr => .inl ?_
  have hbounds := bounds_of_mem_hiddenFrom (fun p hp => hfits p (by simp [hp])) hr
  dsimp only
  omega

-- So a token that shows what some parts were hidden by shows these parts afterwards.
theorem foldr_putBack_shown {A M C : Hidden} (hfits : ∀ part ∈ A ++ M ++ C, part.Fits) (token : Token)
    (hstart : token.start = (A.flatMap Swept.source).length)
    (hstop : token.stop = token.start + (M.flatMap Swept.source).length) (hcontent : token.content = shown M) :
    (hiddenFrom 0 (A ++ M ++ C)).foldr Replacement.putBack token =
      { token with content := M.flatMap Swept.source } := by
  have hM : ∀ part ∈ M, part.Fits := fun p hp => hfits p (by simp [hp])
  have hwhole : token.content = [] ++ shown M ++ [] := by simp [hcontent]
  have hinside := foldr_putBack_inside hM [] hwhole (by simp [hstop])
  rw [foldr_putBack_hiddenFrom hfits hstart hstop]
  simpa using hinside

end Masked

namespace Layers

-- All three sweeps undone.
theorem foldr_putBack_text {a l c : Layers} (h : (a ++ l ++ c).Linked) (ha : a.Linked) (hl : l.Linked)
    {token : Token} (hstart : token.start = a.source.length) (hstop : token.stop = token.start + l.source.length)
    (hcontent : token.content = l.text) :
    ((a ++ l ++ c).replacementsFrom 0).foldr Replacement.putBack token = { token with content := l.source } := by
  rw [replacementsFrom, List.foldr_append, List.foldr_append]
  simp only [escapes_append, strings_append, groups_append]
  have hgroups := foldr_putBack_shown h.fits_groups token
    (by rw [ha.groups_eq, ha.length_strings]; exact hstart)
    (by rw [hl.groups_eq, hl.length_strings]; exact hstop) hcontent
  rw [hgroups]
  have hstrings := foldr_putBack_shown h.fits_strings
    { token with content := l.groups.flatMap Swept.source }
    (by rw [ha.strings_eq, ha.length_escapes]; exact hstart)
    (by rw [hl.strings_eq, hl.length_escapes]; exact hstop) hl.groups_eq
  rw [hstrings]
  exact foldr_putBack_shown h.fits_escapes
    { token with content := l.strings.flatMap Swept.source } hstart hstop hl.strings_eq

-- A stretch in which nothing is hidden shows no cover, quote or paren.
def Inert (text : Text) : Prop := ∀ c ∈ text, isCover c = false ∧ isQuote c = false ∧ c ≠ '('

private theorem eq_loose_of_inert {parts : Hidden} (hinert : Inert (shown parts))
    (hmark : ∀ item text, .taken item text ∈ parts →
      ∃ c ∈ (Swept.taken item text).shown, isCover c = true ∨ isQuote c = true ∨ c = '(') :
    shown parts = parts.flatMap Swept.source ∧ ∀ offset, hiddenFrom offset parts = [] := by
  induction parts with
  | nil => exact ⟨rfl, fun _ => rfl⟩
  | cons part parts ih =>
    rw [shown_cons] at hinert
    obtain ⟨hshown, hhidden⟩ := ih (fun c hc => hinert c (List.mem_append_right _ hc))
      fun item text h => hmark item text (List.mem_cons_of_mem _ h)
    cases part with
    | loose c =>
      exact ⟨by rw [shown_cons, List.flatMap_cons, hshown]; rfl, fun offset => hhidden _⟩
    | taken item text =>
      obtain ⟨c, hc, hmarked⟩ := hmark item text List.mem_cons_self
      obtain ⟨hcover, hquote, hparen⟩ := hinert c (List.mem_append_left _ hc)
      simp [hcover, hquote, hparen] at hmarked

-- A sweep whose result holds no mark of hiding has hidden nothing, and neither have those before.
structure Bare (l : Layers) : Prop where
  escapes : shown l.escapes = l.source ∧ ∀ offset, hiddenFrom offset l.escapes = []
  strings : shown l.strings = l.source ∧ ∀ offset, hiddenFrom offset l.strings = []
  groups : l.text = l.source ∧ ∀ offset, hiddenFrom offset l.groups = []

theorem Linked.bare {l : Layers} (h : l.Linked) (hinert : Inert l.text) : l.Bare := by
  have hgroups := eq_loose_of_inert hinert fun item text hmem => by
    obtain ⟨c, hc⟩ | ⟨body, _, hpart⟩ := h.isGroup _ hmem
    · simp at hc
    · exact ⟨'(', by simp [hpart, Swept.shown, inside], .inr (.inr rfl)⟩
  have hinert₂ : Inert (shown l.strings) := by rwa [← h.groups_eq, ← hgroups.1]
  have hstrings := eq_loose_of_inert hinert₂ fun item text hmem => by
    obtain ⟨c, hc⟩ | ⟨quote, body, hquote, _, _, _, hpart⟩ := h.isString _ hmem
    · simp at hc
    · exact ⟨quote, by rw [hpart, Swept.IsString.eq_inside]; simp [inside], .inr (.inl hquote)⟩
  have hinert₁ : Inert (shown l.escapes) := by rwa [← h.strings_eq, ← hstrings.1]
  have hescapes := eq_loose_of_inert hinert₁ fun item text hmem => by
    obtain ⟨c, hc⟩ | ⟨c, hpart⟩ := h.isEscape _ hmem
    · simp at hc
    · exact ⟨Cover.escape.char, by simp [hpart, Swept.shown], .inl (isCover_char _)⟩
  have hsource₂ : shown l.strings = l.source := by rw [hstrings.1, h.strings_eq, hescapes.1]; rfl
  have hsource₃ : l.text = l.source := by rw [text, hgroups.1, h.groups_eq, hsource₂]
  exact ⟨⟨hescapes.1, hescapes.2⟩, ⟨hsource₂, hstrings.2⟩, ⟨hsource₃, hgroups.2⟩⟩

-- A token over a stretch where nothing is hidden stays as it is, whatever its content.
theorem foldr_putBack_bare {a l c : Layers} (h : (a ++ l ++ c).Linked) (ha : a.Linked) (hl : l.Linked)
    (hbare : l.Bare) {token : Token} (hstart : token.start = a.source.length)
    (hstop : token.stop = token.start + l.source.length) :
    ((a ++ l ++ c).replacementsFrom 0).foldr Replacement.putBack token = token := by
  rw [replacementsFrom, List.foldr_append, List.foldr_append]
  simp only [escapes_append, strings_append, groups_append]
  rw [foldr_putBack_hiddenFrom h.fits_groups (by rw [ha.groups_eq, ha.length_strings]; exact hstart)
      (by rw [hl.groups_eq, hl.length_strings]; exact hstop), hbare.groups.2, List.foldr_nil,
    foldr_putBack_hiddenFrom h.fits_strings (by rw [ha.strings_eq, ha.length_escapes]; exact hstart)
      (by rw [hl.strings_eq, hl.length_escapes]; exact hstop), hbare.strings.2, List.foldr_nil,
    foldr_putBack_hiddenFrom h.fits_escapes hstart hstop, hbare.escapes.2, List.foldr_nil]

end Layers

end CssSelectors
