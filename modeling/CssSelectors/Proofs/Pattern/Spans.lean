import CssSelectors.Proofs.Pattern.Greedy
import CssSelectors.Proofs.Pattern.Language

namespace CssSelectors

variable {ι : Type}

namespace Cursor

variable [DecidableEq ι] (s : Cursor ι)

@[simp] theorem span?_skip (n : Nat) (label : ι) : (s.skip n).span? label = s.span? label := rfl

@[simp] theorem span?_note (label : ι) (opened : Nat) : (s.note label opened).span? label = some ⟨opened, s.offset⟩ := by
  simp [span?, note]

theorem span?_note_of_ne {label other : ι} (h : other ≠ label) (opened : Nat) :
    (s.note label opened).span? other = s.span? other := by
  have hne : (other == label) = false := beq_eq_false_iff_ne.mpr h
  simp [span?, note, List.lookup_cons, hne]

end Cursor

-- A span covers what stands between what is before it and what is after it.
theorem Span.of_append (before taken after : Text) :
    Span.of ⟨before.length, before.length + taken.length⟩ (before ++ taken ++ after) = taken := by
  simp [Span.of, Text.slice]

namespace Pattern

-- A match forgets no field, and the fields it adds lie in the stretch that it takes.
def Notes (s t : Cursor ι) : Prop :=
  s.offset ≤ t.offset ∧ ∃ added, t.spans = added ++ s.spans ∧
    ∀ entry ∈ added, s.offset ≤ entry.2.start ∧ entry.2.start ≤ entry.2.stop ∧ entry.2.stop ≤ t.offset

theorem Notes.refl (s : Cursor ι) : Notes s s := ⟨Nat.le_refl _, [], by simp⟩

theorem Notes.trans {s t u : Cursor ι} (hst : Notes s t) (htu : Notes t u) : Notes s u := by
  obtain ⟨hle, first, hfirst, hin⟩ := hst
  obtain ⟨hle', second, hsecond, hin'⟩ := htu
  refine ⟨Nat.le_trans hle hle', second ++ first, by rw [hsecond, hfirst, List.append_assoc], ?_⟩
  intro entry hentry
  rcases List.mem_append.mp hentry with h | h
  · have hbounds := hin' entry h
    omega
  · have hbounds := hin entry h
    omega

theorem notes_of_mem_outcomes {p : Pattern ι} {s t : Cursor ι} (h : t ∈ p.outcomes s) : Notes s t := by
  induction p generalizing s t with
  | nothing =>
    rw [outcomes, List.mem_singleton] at h
    exact h ▸ .refl s
  | char accepts =>
    obtain ⟨c, _, _, hoffset, hspans⟩ := next?_eq_some_iff.mp (Option.mem_toList.mp h)
    exact ⟨by omega, [], by simp [hspans]⟩
  | seq p q hp hq =>
    obtain ⟨u, hu, ht⟩ := List.mem_flatMap.mp h
    exact (hp hu).trans (hq ht)
  | alt p q hp hq =>
    rcases List.mem_append.mp h with h | h
    · exact hp h
    · exact hq h
  | many appetite body ih =>
    exact iterations_induction (R := Notes) .refl (fun _ _ _ => .trans) (fun _ _ => ih) _ s t h
  | field label body ih =>
    obtain ⟨u, hu, rfl⟩ := List.mem_map.mp h
    obtain ⟨hle, added, hspans, hin⟩ := ih hu
    refine ⟨hle, (label, ⟨s.offset, u.offset⟩) :: added, by simp [Cursor.note, hspans], ?_⟩
    intro entry hentry
    rcases List.mem_cons.mp hentry with rfl | hentry
    · exact ⟨Nat.le_refl _, hle, Nat.le_refl _⟩
    · exact hin entry hentry

-- A pattern that remembers nothing.
def Fieldless : Pattern ι → Prop
  | nothing => True
  | char _ => True
  | seq first second => first.Fieldless ∧ second.Fieldless
  | alt preferred other => preferred.Fieldless ∧ other.Fieldless
  | many _ body => body.Fieldless
  | field _ _ => False

theorem Fieldless.spans_eq {p : Pattern ι} (hp : p.Fieldless) {s t : Cursor ι} (h : t ∈ p.outcomes s) :
    t.spans = s.spans := by
  induction p generalizing s t with
  | nothing =>
    rw [outcomes, List.mem_singleton] at h
    rw [h]
  | char accepts =>
    obtain ⟨_, _, _, _, hspans⟩ := next?_eq_some_iff.mp (Option.mem_toList.mp h)
    exact hspans
  | seq p q ihp ihq =>
    obtain ⟨u, hu, ht⟩ := List.mem_flatMap.mp h
    exact (ihq hp.2 ht).trans (ihp hp.1 hu)
  | alt p q ihp ihq =>
    rcases List.mem_append.mp h with h | h
    · exact ihp hp.1 h
    · exact ihq hp.2 h
  | many appetite body ih =>
    exact iterations_induction (R := fun s t => t.spans = s.spans) (fun _ => rfl)
      (fun _ _ _ hst htu => htu.trans hst) (fun _ _ => ih hp) _ s t h
  | field label body => exact absurd hp id

-- All that a match of it does is to move on.
theorem Fieldless.exists_skip {p : Pattern ι} (hp : p.Fieldless) {s t : Cursor ι} (h : t ∈ p.outcomes s) :
    ∃ taken, s.rest = taken ++ t.rest ∧ p.Matches taken ∧ t = s.skip taken.length := by
  obtain ⟨taken, hrest, hoffset, hmatches⟩ := takesIn_of_mem_outcomes h
  have hskip : t.rest = (s.skip taken.length).rest := by rw [Cursor.skip_rest, hrest, List.drop_left]
  have hspans : t.spans = s.spans := hp.spans_eq h
  exact ⟨taken, hrest, hmatches, Cursor.ext hoffset hskip hspans⟩

theorem exists_note_of_mem_field {label : ι} {body : Pattern ι} (hbody : body.Fieldless) {s t : Cursor ι}
    (h : t ∈ (field label body).outcomes s) :
    ∃ taken, s.rest = taken ++ t.rest ∧ body.Matches taken ∧ t = (s.skip taken.length).note label s.offset := by
  obtain ⟨u, hu, rfl⟩ := List.mem_map.mp h
  obtain ⟨taken, hrest, hmatches, rfl⟩ := hbody.exists_skip hu
  exact ⟨taken, hrest, hmatches, rfl⟩

-- A field with some label has been seen.
def Seen (label : ι) (s : Cursor ι) : Prop := ∃ span, (label, span) ∈ s.spans

theorem Seen.of_mem_outcomes {label : ι} {p : Pattern ι} {s t : Cursor ι} (hseen : Seen label s)
    (h : t ∈ p.outcomes s) : Seen label t := by
  obtain ⟨span, hspan⟩ := hseen
  obtain ⟨_, added, hspans, _⟩ := notes_of_mem_outcomes h
  exact ⟨span, hspans ▸ List.mem_append_right _ hspan⟩

theorem seen_of_mem_field {label : ι} {body : Pattern ι} {s t : Cursor ι}
    (h : t ∈ (field label body).outcomes s) : Seen label t := by
  obtain ⟨u, _, rfl⟩ := List.mem_map.mp h
  exact ⟨⟨s.offset, u.offset⟩, List.mem_cons_self⟩

theorem seen_of_mem_append_right {label : ι} {p q : Pattern ι}
    (hq : ∀ s, ∀ t ∈ q.outcomes s, Seen label t) {s t : Cursor ι} (h : t ∈ (p ++ q).outcomes s) :
    Seen label t := by
  obtain ⟨u, _, ht⟩ := List.mem_flatMap.mp h
  exact hq u t ht

theorem seen_of_mem_append_left {label : ι} {p q : Pattern ι}
    (hp : ∀ s, ∀ t ∈ p.outcomes s, Seen label t) {s t : Cursor ι} (h : t ∈ (p ++ q).outcomes s) :
    Seen label t := by
  obtain ⟨u, hu, ht⟩ := List.mem_flatMap.mp h
  exact (hp s u hu).of_mem_outcomes ht

theorem Seen.span?_isSome [DecidableEq ι] {label : ι} {s : Cursor ι} (h : Seen label s) :
    (s.span? label).isSome := by
  obtain ⟨span, hspan⟩ := h
  rw [Cursor.span?, List.lookup_isSome_iff]
  exact ⟨(label, span), hspan, by simp⟩

-- In a match from the beginning of a text every field lies in what was taken.
theorem stop_le_of_span? [DecidableEq ι] {p : Pattern ι} {text : Text} {t : Cursor ι} {label : ι}
    {span : Span} (h : t ∈ p.outcomes (.start text)) (hspan : t.span? label = some span) :
    span.start ≤ span.stop ∧ span.stop ≤ t.offset := by
  obtain ⟨_, added, hspans, hin⟩ := notes_of_mem_outcomes h
  obtain ⟨before, after, hmem, _⟩ := List.lookup_eq_some_iff.mp hspan
  have hadded : (label, span) ∈ added := by
    have hall : t.spans = added := by simpa [Cursor.start] using hspans
    rw [← hall, hmem]
    simp
  exact (hin _ hadded).2

end Pattern

end CssSelectors
