import CssSelectors.Proofs.Grammar.Stable
import CssSelectors.Proofs.Grammar.Spelling

namespace CssSelectors

open Unicode Pattern Grammar Text

namespace Grammar

variable {s t : Cursor Field}

-- What is preferred after two patterns is preferred after the second, from some place behind the first.
theorem exists_of_head?_append {p q : Pattern Field} (h : ((p ++ q).outcomes s).head? = some t) :
    ∃ u ∈ p.outcomes s, (q.outcomes u).head? = some t := by
  rw [outcomes_append, List.head?_flatMap] at h
  exact List.exists_of_findSome?_eq_some h

-- A value goes on to the first bracket behind its first character at most.
theorem exists_of_head?_value (h : ((value ++ closing).outcomes s).head? = some t) : ∃ c x y,
    s.rest = c :: x ++ y ++ t.rest ∧ ']' ∉ x ∧ closing.Matches y ∧
      (.value, ⟨s.offset, s.offset + (c :: x).length⟩) ∈ t.spans := by
  rw [outcomes_append, outcomes_value, List.head?_flatMap, List.findSome?_map, findSome?_range_eq_some_iff] at h
  obtain ⟨k, hk, hhead, hnone⟩ := h
  have hwithin : k + 1 ≤ s.rest.length := Nat.le_trans hk (List.takeWhile_prefix _).length_le
  obtain ⟨y, hrest, _, hy⟩ := takesIn_of_mem_outcomes (List.mem_of_head? hhead)
  obtain ⟨c, x, hvalue⟩ := List.exists_cons_of_length_eq_add_one (List.length_take_of_le hwithin)
  have hsplit : s.rest = c :: x ++ (y ++ t.rest) := by
    rw [← hvalue, ← hrest]
    exact (List.take_append_drop (k + 1) s.rest).symm
  have hlength : x.length = k := by
    have hlength := congrArg List.length hvalue
    rw [List.length_take_of_le hwithin] at hlength
    simpa using hlength.symm
  refine ⟨c, x, y, by rw [List.append_assoc, hsplit], fun hmem => ?_, hy, ?_⟩
  · -- A bracket that is left closes, so the value would end before it.
    obtain ⟨before, after, rfl⟩ := List.append_of_mem hmem
    have hless : before.length < k := by
      rw [← hlength]
      simp
    have hleft : ((s.skip (before.length + 1)).note .value s.offset).rest = ']' :: (after ++ (y ++ t.rest)) := by
      rw [Cursor.note_rest, Cursor.skip_rest, hsplit]
      simp
    exact outcomes_closing_ne_nil hleft (List.head?_eq_none_iff.mp (hnone before.length hless))
  · refine mem_spans_of_mem_outcomes (List.mem_of_head? hhead) ?_
    rw [List.length_cons, hlength]
    exact List.mem_cons_self

-- What is found of an attribute: its head and the bracket, or its head, a comparison and an end, in which the places of
-- the operator and the value are noted.
theorem exists_of_front?_attr {argument : Pattern Field} {text : Text} (h : (pattern argument .attr).front? text = some t) :
    ∃ a, opening.Matches a ∧ ((text = a ++ [']'] ++ t.rest ∧ ∀ span, (.operator, span) ∉ t.spans ∧ (.value, span) ∉ t.spans) ∨
      ∃ op gap c x y, text = a ++ op ++ gap ++ (c :: x) ++ y ++ t.rest ∧
        (perhaps (char fun c => !isWord c) ++ lit '=' : Pattern Field).Matches op ∧ gap.IsBlank ∧ ']' ∉ x ∧ closing.Matches y ∧
        (.operator, ⟨a.length, a.length + op.length⟩) ∈ t.spans ∧
        (.value, ⟨a.length + op.length + gap.length, a.length + op.length + gap.length + (c :: x).length⟩) ∈ t.spans) := by
  rw [front?_eq_head?, outcomes_attr] at h
  obtain ⟨u, hu, hending⟩ := exists_of_head?_append h
  obtain ⟨a, htext, hoffset, ha⟩ := takesIn_of_mem_outcomes hu
  have htext : text = a ++ u.rest := htext
  have hoffset : u.offset = a.length := hoffset.trans (Nat.zero_add _)
  refine ⟨a, ha, ?_⟩
  rw [outcomes_ending, List.head?_append, Option.or_eq_some_iff] at hending
  rcases hending with hcompared | ⟨_, hbracket⟩
  · obtain ⟨v, hv, hvalue⟩ := exists_of_head?_append hcompared
    obtain ⟨p, hp, hgap⟩ := List.mem_flatMap.mp hv
    have hfieldless : (perhaps (char fun c => !isWord c) ++ lit '=' : Pattern Field).Fieldless := ⟨⟨trivial, trivial⟩, trivial⟩
    obtain ⟨op, hop, hmatches, rfl⟩ := exists_note_of_mem_field hfieldless hp
    obtain ⟨gap, hrest, hblank, rfl⟩ := Fieldless.exists_skip (p := blanks) trivial hgap
    obtain ⟨c, x, y, hsplit, hx, hy, hspan⟩ := exists_of_head?_value hvalue
    refine .inr ⟨op, gap, c, x, y, ?_, hmatches, matches_blanks.mp hblank, hx, hy, ?_, ?_⟩
    · rw [htext, hop, hrest, hsplit]
      simp
    · rw [← hoffset]
      exact mem_spans_of_mem_outcomes (List.mem_of_head? hvalue) List.mem_cons_self
    · rw [← hoffset]
      exact hspan
  · obtain ⟨hclosed, rfl⟩ := exists_of_mem_lit (List.mem_of_head? hbracket)
    refine .inl ⟨by rw [htext, hclosed]; simp, fun span => ?_⟩
    obtain ⟨added, hadded, hsub⟩ := exists_added (by decide) hu
    have hspans : (u.skip 1).spans = added := by simpa [Cursor.start, Cursor.skip] using hadded
    have hlabels : (opening : Pattern Field).fields.map Prod.fst = [.name, .ns] := rfl
    rw [hspans]
    constructor <;> intro hmem <;> have hlabel := hsub.subset (List.mem_map_of_mem hmem) <;> simp [hlabels] at hlabel

theorem count_operator {op : Text} (h : (perhaps (char fun c => !isWord c) ++ lit '=' : Pattern Field).Matches op) :
    op.count ']' = if op = [']', '='] then 1 else 0 := by
  obtain ⟨sign, _, rfl, hsign, hequals⟩ := h
  obtain rfl := matches_lit.mp hequals
  rcases matches_perhaps.mp hsign with ⟨c, _, rfl⟩ | rfl
  · simp [List.count_cons]
  · simp

-- The last character of an attribute is a bracket that closes. It has no other one in sight but for one that is the sign of
-- its operator and one that its value begins with.
theorem count_bracket {w z : Text} (hun : w.Unescaped) (h : (pattern coveredArgument .attr).front? (w ++ z) = some t)
    (hwidth : t.offset = w.length) : w.getLast? = some ']' ∧
      w.count ']' = 1 + (if (t.span? .operator).map (·.of w) = some [']', '='] then 1 else 0) +
        if ((t.span? .value).map (·.of w)).bind List.head? = some ']' then 1 else 0 := by
  have hmem := Tag.mem_outcomes_of_front? h
  have hnodup := nodup_of_mem_attr hmem
  have hwhole : ∀ text : Text, w ++ z = text ++ t.rest → w = text := by
    intro text hsplit
    obtain ⟨taken, htaken, hoffset⟩ := takes_of_mem_outcomes hmem
    have hsame : text = taken := List.append_cancel_right (hsplit.symm.trans htaken)
    refine (List.append_inj hsplit ?_).1
    rw [hsame, ← hwidth, hoffset]
    exact Nat.zero_add _
  obtain ⟨a, ha, ⟨hsplit, hnone⟩ | ⟨op, gap, c, x, y, hsplit, hop, hgap, hx, hy, hoperator, hvalue⟩⟩ := exists_of_front?_attr h
  · obtain rfl := hwhole _ hsplit
    have havoids := avoids_of_matches_opening hun.of_append_left ha
    have hspan : t.span? .operator = none ∧ t.span? .value = none := by
      constructor <;> refine Option.eq_none_iff_forall_ne_some.mpr fun span hspan => ?_
      · exact (hnone span).1 ((span?_of_mem hnodup).mp hspan)
      · exact (hnone span).2 ((span?_of_mem hnodup).mp hspan)
    simp [hspan, List.count_eq_zero.mpr havoids]
  · obtain rfl := hwhole _ hsplit
    obtain ⟨before, hbefore, rfl⟩ := matches_closing hy
    have hopening : a.Unescaped := by
      rw [List.append_assoc, List.append_assoc, List.append_assoc] at hun
      exact hun.of_append_left
    have hhead : ']' ∉ a := avoids_of_matches_opening hopening ha
    have hgap : ']' ∉ gap := fun hmem => absurd (hgap _ hmem) (by decide)
    have hbefore : ']' ∉ before := fun hmem => (hbefore _ hmem).2 rfl
    generalize htext : a ++ op ++ gap ++ (c :: x) ++ (before ++ [']']) = text
    have hread : (t.span? .operator).map (·.of text) = some op := by
      have hsplit : text = a ++ op ++ (gap ++ (c :: x) ++ (before ++ [']'])) := by simp [← htext]
      rw [(span?_of_mem hnodup).mpr hoperator]
      exact congrArg some (Span.of_eq _ op hsplit rfl rfl)
    have hread' : (t.span? .value).map (·.of text) = some (c :: x) := by
      have hlength : a.length + op.length + gap.length = (a ++ op ++ gap).length := by
        rw [List.length_append, List.length_append]
      rw [(span?_of_mem hnodup).mpr hvalue]
      exact congrArg some (Span.of_eq _ _ htext.symm hlength rfl)
    rw [hread, hread', ← htext]
    refine ⟨by rw [← List.append_assoc, List.getLast?_concat], ?_⟩
    simp only [List.count_append, count_operator hop, List.count_eq_zero.mpr hhead, List.count_eq_zero.mpr hgap,
      List.count_eq_zero.mpr hbefore, List.count_cons, List.count_eq_zero.mpr hx]
    simp
    omega

end Grammar

end CssSelectors
