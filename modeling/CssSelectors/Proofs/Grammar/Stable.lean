import CssSelectors.Proofs.Grammar.Agreement
import CssSelectors.Proofs.Pattern.Labels

namespace CssSelectors

open Unicode Pattern Grammar Text

namespace Grammar

-- Fields of an attribute that come out the same when they are read again in plain sight: neither
-- the namespace nor the name nor the value holds a line feed, and the value ends neither in an
-- escaped blank nor, if there is no flag, in an escaped blank and a letter for one.
structure Stable (read : Field → Option Text) : Prop where
  line : ∀ field ∈ [.ns, .name, .value], ∀ text, read field = some text → '\n' ∉ text
  blank : ∀ before b, read .value = some (before ++ ['\\', b]) → isBlank b = false
  flag : read .caseFlag = none → ∀ before b c, read .value = some (before ++ ['\\', b, c]) → isBlank b = true →
    isFlag c = false

theorem Stable.congr {read read' : Field → Option Text} (h : ∀ field ∈ [.ns, .name, .value, .caseFlag], read field = read' field)
    (hread : Stable read) : Stable read' := by
  have hvalue := h .value (by decide)
  constructor
  · intro field hfield text htext
    have hsame : read field = read' field := h field (by
      simp only [List.mem_cons, List.not_mem_nil, or_false] at hfield ⊢
      tauto)
    exact hread.line field hfield text (hsame.trans htext)
  · exact fun before b htext => hread.blank before b (hvalue.trans htext)
  · exact fun hnone before b c htext =>
      hread.flag ((h .caseFlag (by decide)).trans hnone) before b c (hvalue.trans htext)

variable {argument : Pattern Field} {text source : Text} {s t : Cursor Field}

theorem nodup_of_mem_attr (h : t ∈ (pattern argument .attr).outcomes (.start text)) : (t.spans.map Prod.fst).Nodup := by
  rw [outcomes_attr] at h
  obtain ⟨added, hspans, hsub⟩ := exists_added (by decide) h
  have hlabels : (opening ++ ending).fields.map Prod.fst = [.caseFlag, .value, .operator, .name, .ns] := rfl
  rw [hlabels] at hsub
  rw [hspans]
  exact (by simpa [Cursor.start] using hsub.nodup (by decide))

theorem kept_of_stable (h : t ∈ (pattern argument .attr).outcomes (.start text))
    (hstable : Stable fun field => (t.span? field).map (·.of source)) : Kept source t := by
  have hnodup := nodup_of_mem_attr h
  have hread : ∀ {field span}, (field, span) ∈ t.spans → (t.span? field).map (·.of source) = some (span.of source) :=
    fun hmem => by rw [(span?_of_mem hnodup).mpr hmem, Option.map_some]
  constructor
  · exact fun field hfield span hmem => hstable.line field hfield _ (hread hmem)
  · exact fun span hmem before b hvalue => hstable.blank before b (by rw [hread hmem, hvalue])
  · intro hnone span hmem before b c hvalue
    refine hstable.flag ?_ before b c (by rw [hread hmem, hvalue])
    rw [Option.map_eq_none_iff, Option.eq_none_iff_forall_not_mem]
    exact fun span hspan => hnone span ((span?_of_mem hnodup).mp hspan)

theorem notMem_of_nameUnits {units : List Text} (h : ∀ unit ∈ units, nameUnit.Matches unit) : '\n' ∉ units.flatten := by
  intro hmem
  obtain ⟨unit, hunit, hline⟩ := List.mem_flatten.mp hmem
  rcases h unit hunit with ⟨c, hc, rfl⟩ | ⟨_, _, rfl, hslash, c, hc, rfl⟩
  · obtain rfl := List.mem_singleton.mp hline
    exact absurd hc (by decide)
  · obtain rfl := matches_lit.mp hslash
    simp at hc hline
    exact hc hline.symm

-- No name or value that is read holds a line feed.
theorem line_of_mem_attr (h : t ∈ (pattern argument .attr).outcomes (.start text)) {field : Field}
    (hfield : field ∈ [.ns, .name, .value]) {span : Span} (hspan : (field, span) ∈ t.spans) : '\n' ∉ span.of text := by
  rw [outcomes_attr] at h
  obtain ⟨body, hbody, hmatches⟩ := exists_body_of_mem_start h hspan
  have hfields : (opening ++ ending : Pattern Field).fields = [(.caseFlag, .char fun c => c ∈ ['i', 'I', 's', 'S']),
    (.value, oneOrMore .modest (.char (· != '\n'))), (.operator, perhaps (.char fun c => !isWord c) ++ lit '='),
    (.name, oneOrMore .greedy nameUnit), (.ns, (lit '*' <|> .many .greedy nameUnit))] := rfl
  rw [hfields] at hbody
  simp only [List.mem_cons, Prod.mk.injEq, List.not_mem_nil, or_false] at hbody hfield
  rcases hbody with ⟨rfl, _⟩ | ⟨rfl, rfl⟩ | ⟨rfl, _⟩ | ⟨rfl, rfl⟩ | ⟨rfl, rfl⟩
  · simp at hfield
  · exact (matches_value.mp hmatches).2
  · simp at hfield
  · obtain ⟨unit, _, htext, hunit, units, rfl, hunits⟩ := hmatches
    rw [htext]
    have hall : ∀ u ∈ unit :: units, nameUnit.Matches u := List.forall_mem_cons.mpr ⟨hunit, hunits⟩
    exact notMem_of_nameUnits hall
  · rcases hmatches with hstar | ⟨units, htext, hunits⟩
    · rw [matches_lit.mp hstar]
      decide
    · rw [htext]
      exact notMem_of_nameUnits hunits

-- A value that is read has an end of the attribute right after it, and none sooner.
theorem exists_closing_of_value (h : (pattern argument .attr).finish? (.start text) = some t) {v : Text}
    (hvalue : (t.span? .value).map (·.of text) = some v) :
    ∃ u, closing.finish? u = some t ∧ ∀ v' x', v ++ u.rest = v' ++ x' → v' ≠ [] → v'.length < v.length →
      ¬closing.Matches x' := by
  have hnodup := nodup_of_mem_attr (mem_of_finish? h).1
  obtain ⟨span, hspan, rfl⟩ := Option.map_eq_some_iff.mp hvalue
  have hmem := (span?_of_mem hnodup).mp hspan
  rw [finish?, outcomes_attr, ← finish?, finish?_append] at h
  obtain ⟨u, hu, ht⟩ := List.exists_of_findSome?_eq_some h
  rw [finish?_ending] at ht
  rcases Option.or_eq_some_iff.mp ht with hcompared | ⟨_, hbracket⟩
  · rw [finish?_append] at hcompared
    obtain ⟨p, hp, hp'⟩ := List.exists_of_findSome?_eq_some hcompared
    obtain ⟨w, x, hrest, _, _, hclosing, hfirst⟩ := finish?_value_iff.mp hp'
    have hw : (.value, ⟨p.offset, p.offset + w.length⟩) ∈ t.spans :=
      mem_spans_of_mem_outcomes (mem_of_finish? hclosing).1 (by simp [Cursor.note])
    rw [(span?_of_mem hnodup).mpr hw, Option.some.injEq] at hspan
    have hudrop : u.rest = text.drop u.offset := (takes_of_mem_outcomes hu).rest_eq rfl
    have hdrop := (takes_of_mem_outcomes hp).rest_eq hudrop
    have hof : span.of text = w := by
      rw [← hspan]
      simp [Span.of, Text.slice, ← hdrop, hrest]
    refine ⟨_, hclosing, ?_⟩
    rw [hof, Cursor.note_rest, Cursor.skip_rest, hrest, List.drop_left, ← hrest]
    exact hfirst
  · -- Without a comparison there is no value.
    have hspans : t.spans = u.spans := Fieldless.spans_eq (p := lit ']') trivial (mem_of_finish? hbracket).1
    obtain ⟨added, hadded, hsub⟩ := exists_added (by decide) hu
    have hlabels : (opening : Pattern Field).fields.map Prod.fst = [.name, .ns] := rfl
    have hadded : u.spans = added := by simpa [Cursor.start] using hadded
    rw [hspans, hadded] at hmem
    have hlabel := hsub.subset (List.mem_map_of_mem hmem)
    simp [hlabels] at hlabel

-- What is read off an attribute in plain sight is stable.
theorem stable_of_finish? (h : (pattern argument .attr).finish? (.start text) = some t) :
    Stable fun field => (t.span? field).map (·.of text) := by
  have hmem := (mem_of_finish? h).1
  constructor
  · intro field hfield v hv
    obtain ⟨span, hspan, rfl⟩ := Option.map_eq_some_iff.mp hv
    exact line_of_mem_attr hmem hfield ((span?_of_mem (nodup_of_mem_attr hmem)).mp hspan)
  · intro before b hv
    obtain ⟨u, hu, hfirst⟩ := exists_closing_of_value h hv
    rw [Bool.eq_false_iff]
    intro hb
    refine hfirst (before ++ ['\\']) (b :: u.rest) (by simp) (by simp) (by simp) ?_
    exact matches_closing_of_blank hb (matches_of_finish? hu)
  · intro hnone before b c hv hb
    obtain ⟨u, hu, hfirst⟩ := exists_closing_of_value h hv
    rw [Bool.eq_false_iff]
    intro hc
    refine hfirst (before ++ ['\\']) (b :: c :: u.rest) (by simp) (by simp) (by simp) ?_
    refine matches_closing_of_flag hb hc (matches_of_unflagged hu fun span hspan => ?_)
    rw [(span?_of_mem (nodup_of_mem_attr hmem)).mpr hspan] at hnone
    cases hnone

end Grammar

end CssSelectors
