import CssSelectors.Proofs.Pattern.Spans

namespace CssSelectors

variable {ι : Type}

namespace Pattern

-- The fields of a pattern, last ones first, each with its body.
def fields : Pattern ι → List (ι × Pattern ι)
  | nothing => []
  | char _ => []
  | seq first second => second.fields ++ first.fields
  | alt preferred other => other.fields ++ preferred.fields
  | many _ body => body.fields
  | field label body => (label, body) :: body.fields

theorem Takes.rest_eq {s t : Cursor ι} {text : Text} (h : Takes s t) (hs : s.rest = text.drop s.offset) :
    t.rest = text.drop t.offset := by
  obtain ⟨taken, hrest, hoffset⟩ := h
  rw [hoffset, ← List.drop_drop, ← hs, hrest, List.drop_left]

-- Every field that a match notes holds a text that the body of such a field describes.
theorem exists_body_of_mem_spans {p : Pattern ι} {s t : Cursor ι} {text : Text} (h : t ∈ p.outcomes s)
    (hs : s.rest = text.drop s.offset) :
    ∀ entry ∈ t.spans, entry ∈ s.spans ∨ ∃ body, (entry.1, body) ∈ p.fields ∧ body.Matches (entry.2.of text) := by
  induction p generalizing s t with
  | nothing =>
    rw [outcomes, List.mem_singleton] at h
    subst h
    exact fun entry hentry => .inl hentry
  | char accepts =>
    have hspans : t.spans = s.spans := Fieldless.spans_eq (p := .char accepts) trivial h
    rw [hspans]
    exact fun entry hentry => .inl hentry
  | seq p q hp hq =>
    obtain ⟨u, hu, ht⟩ := List.mem_flatMap.mp h
    intro entry hentry
    rcases hq ht ((takes_of_mem_outcomes hu).rest_eq hs) entry hentry with hentry | ⟨body, hbody, hmatches⟩
    · refine (hp hu hs entry hentry).imp_right ?_
      rintro ⟨body, hbody, hmatches⟩
      exact ⟨body, List.mem_append_right _ hbody, hmatches⟩
    · exact .inr ⟨body, List.mem_append_left _ hbody, hmatches⟩
  | alt p q hp hq =>
    intro entry hentry
    rcases List.mem_append.mp h with h | h
    · refine (hp h hs entry hentry).imp_right ?_
      rintro ⟨body, hbody, hmatches⟩
      exact ⟨body, List.mem_append_right _ hbody, hmatches⟩
    · refine (hq h hs entry hentry).imp_right ?_
      rintro ⟨body, hbody, hmatches⟩
      exact ⟨body, List.mem_append_left _ hbody, hmatches⟩
  | many appetite body ih =>
    let R (s t : Cursor ι) : Prop := Takes s t ∧ (s.rest = text.drop s.offset → ∀ entry ∈ t.spans,
      entry ∈ s.spans ∨ ∃ inner, (entry.1, inner) ∈ body.fields ∧ inner.Matches (entry.2.of text))
    refine (iterations_induction (R := R) (fun s => ⟨.refl s, fun _ _ => .inl⟩) ?_ ?_ _ s t h).2 hs
    · rintro s t u ⟨hst, hnotes⟩ ⟨htu, hnotes'⟩
      refine ⟨hst.trans htu, fun hs entry hentry => ?_⟩
      exact (hnotes' (hst.rest_eq hs) entry hentry).elim (hnotes hs entry) .inr
    · exact fun s t ht => ⟨takes_of_mem_outcomes ht, fun hs => ih ht hs⟩
  | field label body ih =>
    obtain ⟨u, hu, rfl⟩ := List.mem_map.mp h
    obtain ⟨taken, hrest, hoffset, hmatches⟩ := takesIn_of_mem_outcomes hu
    intro entry hentry
    rcases List.mem_cons.mp hentry with rfl | hentry
    · refine .inr ⟨body, List.mem_cons_self, ?_⟩
      have htaken : Span.of ⟨s.offset, u.offset⟩ text = taken := by
        simp [Span.of, Text.slice, ← hs, hrest, hoffset]
      exact htaken ▸ hmatches
    · refine (ih hu hs entry hentry).imp_right ?_
      rintro ⟨inner, hinner, hmatches⟩
      exact ⟨inner, List.mem_cons_of_mem _ hinner, hmatches⟩

theorem exists_body_of_mem_start {p : Pattern ι} {text : Text} {t : Cursor ι} (h : t ∈ p.outcomes (.start text))
    {label : ι} {span : Span} (hspan : (label, span) ∈ t.spans) :
    ∃ body, (label, body) ∈ p.fields ∧ body.Matches (span.of text) := by
  rcases exists_body_of_mem_spans h rfl _ hspan with hstart | hbody
  · cases hstart
  · exact hbody

-- A pattern that repeats no field.
def Flat : Pattern ι → Prop
  | nothing => True
  | char _ => True
  | seq first second => first.Flat ∧ second.Flat
  | alt preferred other => preferred.Flat ∧ other.Flat
  | many _ body => body.Fieldless
  | field _ body => body.Flat

instance decidableFieldless : (p : Pattern ι) → Decidable p.Fieldless
  | nothing => .isTrue trivial
  | char _ => .isTrue trivial
  | seq first second =>
    have := decidableFieldless first
    have := decidableFieldless second
    inferInstanceAs (Decidable (first.Fieldless ∧ second.Fieldless))
  | alt preferred other =>
    have := decidableFieldless preferred
    have := decidableFieldless other
    inferInstanceAs (Decidable (preferred.Fieldless ∧ other.Fieldless))
  | many _ body => decidableFieldless body
  | field _ _ => .isFalse id

instance decidableFlat : (p : Pattern ι) → Decidable p.Flat
  | nothing => .isTrue trivial
  | char _ => .isTrue trivial
  | seq first second =>
    have := decidableFlat first
    have := decidableFlat second
    inferInstanceAs (Decidable (first.Flat ∧ second.Flat))
  | alt preferred other =>
    have := decidableFlat preferred
    have := decidableFlat other
    inferInstanceAs (Decidable (preferred.Flat ∧ other.Flat))
  | many _ body => decidableFieldless body
  | field _ body => decidableFlat body

-- So it notes each of its fields at most once, and in their order.
theorem exists_added {p : Pattern ι} (hp : p.Flat) {s t : Cursor ι} (h : t ∈ p.outcomes s) :
    ∃ added, t.spans = added ++ s.spans ∧ (added.map Prod.fst).Sublist (p.fields.map Prod.fst) := by
  induction p generalizing s t with
  | nothing =>
    rw [outcomes, List.mem_singleton] at h
    exact ⟨[], by simp [h], List.nil_sublist _⟩
  | char accepts => exact ⟨[], Fieldless.spans_eq (p := .char accepts) trivial h, List.nil_sublist _⟩
  | seq p q ihp ihq =>
    obtain ⟨u, hu, ht⟩ := List.mem_flatMap.mp h
    obtain ⟨first, hfirst, hfirstsub⟩ := ihp hp.1 hu
    obtain ⟨second, hsecond, hsecondsub⟩ := ihq hp.2 ht
    refine ⟨second ++ first, by rw [hsecond, hfirst, List.append_assoc], ?_⟩
    rw [fields, List.map_append, List.map_append]
    exact hsecondsub.append hfirstsub
  | alt p q ihp ihq =>
    rw [fields, List.map_append]
    rcases List.mem_append.mp h with h | h
    · obtain ⟨added, hspans, hsub⟩ := ihp hp.1 h
      exact ⟨added, hspans, hsub.trans (List.sublist_append_right _ _)⟩
    · obtain ⟨added, hspans, hsub⟩ := ihq hp.2 h
      exact ⟨added, hspans, hsub.trans (List.sublist_append_left _ _)⟩
  | many appetite body => exact ⟨[], Fieldless.spans_eq (p := .many appetite body) hp h, List.nil_sublist _⟩
  | field label body ih =>
    obtain ⟨u, hu, rfl⟩ := List.mem_map.mp h
    obtain ⟨added, hspans, hsub⟩ := ih hp hu
    exact ⟨(label, ⟨s.offset, u.offset⟩) :: added, by simp [Cursor.note, hspans], hsub.cons_cons label⟩

-- A field that was noted once is the latest one.
theorem span?_of_mem [DecidableEq ι] {t : Cursor ι} (hnodup : (t.spans.map Prod.fst).Nodup) {label : ι} {span : Span} :
    t.span? label = some span ↔ (label, span) ∈ t.spans := by
  rw [Cursor.span?, List.lookup_eq_some_iff]
  constructor
  · rintro ⟨before, after, hspans, _⟩
    simp [hspans]
  · intro hmem
    obtain ⟨before, after, hspans⟩ := List.append_of_mem hmem
    refine ⟨before, after, hspans, fun entry hentry => ?_⟩
    rw [hspans, List.map_append, List.map_cons, List.nodup_append] at hnodup
    have hapart := hnodup.2.2 entry.1 (List.mem_map_of_mem hentry) label List.mem_cons_self
    simpa using hapart.symm

end Pattern

end CssSelectors
