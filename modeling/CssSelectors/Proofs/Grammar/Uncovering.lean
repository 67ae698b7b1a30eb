import CssSelectors.Proofs.Grammar.Refilling
import CssSelectors.Proofs.Token.Delimiters

namespace CssSelectors

open Unicode Pattern Grammar Text

theorem isCover_of_isBlank {c : Char} (h : isBlank c = true) : isCover c = false := by
  rw [Bool.eq_false_iff]
  intro hcover
  rcases isCover_iff.mp hcover with rfl | rfl | rfl <;> revert h <;> decide

namespace Grammar

theorem matches_name_of_units {units : List Text} (hne : units ≠ []) (h : ∀ unit ∈ units, nameUnit.Matches unit) :
    name.Matches units.flatten := by
  obtain ⟨unit, units, rfl⟩ := List.exists_cons_of_ne_nil hne
  obtain ⟨hunit, hmore⟩ := List.forall_mem_cons.mp h
  exact ⟨unit, units.flatten, rfl, hunit, units, rfl, hmore⟩

theorem matches_attr_iff_named {argument : Pattern Field} {text : Text} :
    (pattern argument .attr).Matches text ↔ ((lit '[' ++ blanks) ++ named).Matches text := by
  have hfinish := congrArg Option.isSome (finish?_attr argument (.start text))
  rwa [Bool.eq_iff_iff, finish?_isSome_iff, finish?_isSome_iff] at hfinish

end Grammar

namespace Veils

variable {w r z : Text}

-- What is in sight and encloses nothing is there, however long it is.
theorem exists_seen_append {u : Text} (h : Veils Encloses (u ++ w) r) (hu : ∀ c ∈ u, isCover c = false ∧ ¬Encloses c) :
    ∃ r', r = u ++ r' ∧ Veils Encloses w r' := by
  induction u generalizing r with
  | nil => exact ⟨r, rfl, h⟩
  | cons c u ih =>
    obtain ⟨⟨hcover, hencloses⟩, hmore⟩ := List.forall_mem_cons.mp hu
    obtain ⟨r, rfl, hseen⟩ := h.exists_seen hcover hencloses
    obtain ⟨r, rfl, hrest⟩ := ih hseen hmore
    exact ⟨r, rfl, hrest⟩

theorem eq_of_inert (h : Veils Encloses w r) (hw : Layers.Inert w) : r = w := by
  have hseen : ∀ c ∈ w, isCover c = false ∧ ¬Encloses c := by
    intro c hc
    obtain ⟨hcover, hquote, hparen⟩ := hw c hc
    exact ⟨hcover, by simp [Encloses, hquote, hparen]⟩
  rw [← List.append_nil w] at h
  obtain ⟨_, rfl, hnil⟩ := h.exists_seen_append hseen
  cases hnil
  rw [List.append_nil]

theorem exists_blank_append {before : Text} (h : Veils Encloses (before ++ w) r) (hbefore : IsBlank before) :
    ∃ r', r = before ++ r' ∧ Veils Encloses w r' :=
  h.exists_seen_append fun c hc => ⟨isCover_of_isBlank (hbefore c hc), not_encloses_of_isBlank (hbefore c hc)⟩

-- Under a whole run of name characters there are units, and they make a name if no line feed is among them.
theorem exists_matching_units {run : Text} (h : Veils Encloses (run ++ z) r) (hrun : IsRun run)
    (hz : ∀ c ∈ z.head?, isNameChar c = false) (hline : '\n' ∉ r) :
    ∃ units r', r = List.flatten units ++ r' ∧ units.flatten.length = run.length ∧
      (∀ unit ∈ units, nameUnit.Matches unit) ∧ Veils Encloses z r' := by
  obtain ⟨units, r, rfl, hlength, hunits, hveils⟩ := h.exists_units hrun hz
  refine ⟨units, r, rfl, hlength, fun unit hunit => matches_of_isUnit (hunits unit hunit) fun hmem => ?_, hveils⟩
  exact hline (List.mem_append_left _ (List.mem_flatten.mpr ⟨unit, hunit, hmem⟩))

theorem exists_name {run : Text} (h : Veils Encloses (run ++ z) r) (hne : run ≠ []) (hrun : IsRun run)
    (hz : ∀ c ∈ z.head?, isNameChar c = false) (hline : '\n' ∉ r) :
    ∃ named r', r = named ++ r' ∧ name.Matches named ∧ Veils Encloses z r' := by
  obtain ⟨units, r, rfl, hlength, hunits, hveils⟩ := h.exists_matching_units hrun hz hline
  refine ⟨units.flatten, r, rfl, matches_name_of_units ?_ hunits, hveils⟩
  rintro rfl
  exact hne (List.length_eq_zero_iff.mp hlength.symm)

theorem matches_name {run : Text} (h : Veils Encloses run r) (hne : run ≠ []) (hrun : IsRun run) (hline : '\n' ∉ r) :
    name.Matches r := by
  rw [← List.append_nil run] at h
  obtain ⟨named, _, rfl, hnamed, hnil⟩ := h.exists_name hne hrun (by simp) hline
  cases hnil
  rwa [List.append_nil]

-- A namespace ends with its bar, so its run is whole.
theorem exists_nsBar {ns : Text} (h : Veils Encloses (ns ++ z) r) (hns : IsNs ns) (hline : '\n' ∉ r) :
    ∃ ns' r', r = ns' ++ r' ∧ nsBar.Matches ns' ∧ Veils Encloses z r' := by
  have hbar : ∀ {front : Text}, IsNsName front → nsBar.Matches (front ++ ['|']) := fun hfront =>
    .inl (matches_bar.mpr ⟨_, hfront, rfl⟩)
  rcases hns with rfl | ⟨ns, rfl | hrun, rfl⟩
  · exact ⟨[], r, rfl, .inr rfl, h⟩
  · obtain ⟨r, rfl, hrest⟩ := h.exists_seen (by decide) (by decide)
    obtain ⟨r, rfl, hveils⟩ := hrest.exists_seen (by decide) (by decide)
    exact ⟨['*', '|'], r, rfl, hbar (.inl rfl), hveils⟩
  · rw [List.append_assoc] at h
    obtain ⟨units, r, rfl, _, hunits, hmore⟩ := h.exists_matching_units hrun (by simp; decide) hline
    obtain ⟨r, rfl, hveils⟩ := hmore.exists_seen (by decide) (by decide)
    exact ⟨units.flatten ++ ['|'], r, by simp, hbar (.inr ⟨units, hunits, rfl⟩), hveils⟩

-- Parens stay parens, whatever comes to light between them.
theorem matches_parens {group : Text} (h : Veils Encloses group r) (hgroup : IsGroup group) :
    (parens plainArgument).Matches r := by
  rcases hgroup with rfl | ⟨body, hne, -, rfl⟩
  · cases h
    exact .inr rfl
  · obtain ⟨front, rfl, hlength⟩ := h.exists_append (a := '(' :: body) (List.forall_mem_singleton.mpr rfl)
    obtain ⟨c, argument, rfl⟩ := List.exists_cons_of_length_eq_add_one hlength
    obtain rfl : '(' = c := ((List.forall₂_cons.mp h.forall₂).1).resolve_right (by decide)
    have hpos := List.length_pos_iff.mpr hne
    refine .inl ⟨'(' :: argument, [')'], rfl, ⟨['('], argument, rfl, matches_lit.mpr rfl, ?_⟩, matches_lit.mpr rfl⟩
    refine matches_field.mpr (matches_oneOrMore_char.mpr ⟨List.length_pos_iff.mp ?_, fun _ _ => rfl⟩)
    simp only [List.length_cons] at hlength
    omega

theorem exists_name_parens {run group : Text} (h : Veils Encloses (run ++ group) r) (hne : run ≠ []) (hrun : IsRun run)
    (hgroup : IsGroup group) (hline : '\n' ∉ r) :
    ∃ named r', r = named ++ r' ∧ name.Matches named ∧ (parens plainArgument).Matches r' := by
  have hstop : ∀ c ∈ group.head?, isNameChar c = false := by
    rcases hgroup with rfl | ⟨body, -, -, rfl⟩
    · simp
    · simp
      decide
  obtain ⟨named, r, rfl, hnamed, hveils⟩ := h.exists_name hne hrun hstop hline
  exact ⟨named, r, rfl, hnamed, hveils.matches_parens hgroup⟩

theorem exists_operator {op : Text} (h : Veils Encloses (op ++ z) r) (hop : operator.Matches op) :
    ∃ r', r = op ++ r' ∧ Veils Encloses z r' := by
  obtain ⟨sign, _, rfl, hsign, hequals⟩ := hop
  obtain rfl := matches_lit.mp hequals
  rcases matches_perhaps.mp hsign with ⟨c, -, rfl⟩ | rfl
  · exact h.exists_cons_equals
  · exact h.exists_seen (by decide) (by decide)

end Veils

namespace Grammar

variable {w r : Text}

-- Behind its name an attribute shows where its value begins and ends.
theorem matches_tail_of_veils (h : Veils Encloses w r) (hline : '\n' ∉ r) (hw : tail.Matches w) : tail.Matches r := by
  obtain ⟨before, w, rfl, hbefore, hending⟩ := hw
  obtain ⟨r, rfl, hafter⟩ := h.exists_blank_append (matches_blanks.mp hbefore)
  refine ⟨before, r, rfl, hbefore, matches_ending.mpr ?_⟩
  rcases matches_ending.mp hending with ⟨_, _, rfl, ⟨op, gap, rfl, hop, hgap⟩, v, x, rfl, hv, hx⟩ | rfl
  · left
    rw [List.append_assoc] at hafter
    obtain ⟨r, rfl, hlead⟩ := hafter.exists_operator hop
    obtain ⟨r, rfl, hvalue⟩ := hlead.exists_blank_append (matches_blanks.mp hgap)
    obtain ⟨v', rfl, hlength⟩ := hvalue.exists_append fun c hc => (plain_of_matches_closing hx c hc).1
    refine ⟨op ++ gap, v' ++ x, by simp, ⟨op, gap, rfl, hop, hgap⟩, v', x, rfl, ?_, hx⟩
    obtain ⟨hne, -⟩ := matches_value.mp hv
    refine matches_value.mpr ⟨?_, fun hmem => hline (by simp [hmem])⟩
    rw [← List.length_pos_iff] at hne ⊢
    omega
  · right
    obtain ⟨b, rfl, hlength⟩ := hafter.exists_append (a := []) (x := [']']) (List.forall_mem_singleton.mpr rfl)
    rw [List.length_eq_zero_iff.mp hlength, List.nil_append]

-- The name goes on as far as it can, so that no escape is cut.
theorem matches_name_tail_of_veils (h : Veils Encloses w r) (hun : w.Unescaped) (hline : '\n' ∉ r)
    (hw : (name ++ tail).Matches w) : (name ++ tail).Matches r := by
  obtain ⟨front, x, rfl, hfront, htail⟩ := hw
  obtain ⟨hne, hrun⟩ := (matches_name hun.of_append_left).mp hfront
  have hmore : IsRun (x.takeWhile isNameChar) := fun c hc => List.mem_takeWhile_imp hc
  rw [← List.takeWhile_append_dropWhile (p := isNameChar) (l := x)] at h htail
  rw [← List.append_assoc] at h
  have hstop : ∀ c ∈ (x.dropWhile isNameChar).head?, isNameChar c = false := by
    intro c hc
    have hnot := List.head?_dropWhile_not isNameChar x
    rw [hc] at hnot
    simpa using hnot
  obtain ⟨named, r, rfl, hnamed, hveils⟩ :=
    h.exists_name (by simp [hne]) (fun c hc => (List.mem_append.mp hc).elim (hrun c) (hmore c)) hstop hline
  refine ⟨named, r, rfl, hnamed, matches_tail_of_veils hveils ?_ (matches_tail_of_append htail (avoids_of_isRun hmore))⟩
  exact fun hmem => hline (List.mem_append_right _ hmem)

theorem matches_attr_of_veils (h : Veils Encloses w r) (hun : w.Unescaped) (hline : '\n' ∉ r)
    (hw : (pattern coveredArgument .attr).Matches w) : (pattern plainArgument .attr).Matches r := by
  obtain ⟨_, more, rfl, ⟨_, before, rfl, hopening, hbefore⟩, ns, z, rfl, hns, hz⟩ := matches_attr_iff_named.mp hw
  obtain rfl := matches_lit.mp hopening
  rw [List.append_assoc] at h hun
  obtain ⟨r, rfl, hblank⟩ := h.exists_seen_append (List.forall_mem_singleton.mpr (by decide))
  obtain ⟨r, rfl, hafter⟩ := hblank.exists_blank_append (matches_blanks.mp hbefore)
  have hunmore : Text.Unescaped (ns ++ z) := hun.of_append_right.of_append_right
  obtain ⟨ns, r, rfl, hns, hveils⟩ :=
    hafter.exists_nsBar ((matches_nsBar hunmore.of_append_left).mp hns) fun hmem => hline (by simp [hmem])
  have hrest := matches_name_tail_of_veils hveils hunmore.of_append_right (fun hmem => hline (by simp [hmem])) hz
  exact matches_attr_iff_named.mpr
    ⟨'[' :: before, ns ++ r, by simp, ⟨['['], before, rfl, matches_lit.mpr rfl, hbefore⟩, ns, r, rfl, hns, hrest⟩

-- What matches while parts of it are hidden matches in plain sight, too, unless a line feed comes to light.
theorem matches_of_veils {tag : Tag} (h : Veils Encloses w r) (hun : w.Unescaped) (hline : '\n' ∉ r)
    (hw : (pattern coveredArgument tag).Matches w) : (pattern plainArgument tag).Matches r := by
  cases tag with
  | attr => exact matches_attr_of_veils h hun hline hw
  | id | className =>
    obtain ⟨run, hne, hrun, rfl⟩ := shape_of_matches hun hw
    obtain ⟨r, rfl, hveils⟩ := h.exists_seen (by decide) (by decide)
    exact ⟨[_], r, rfl, matches_lit.mpr rfl,
      hveils.matches_name hne hrun fun hmem => hline (List.mem_cons_of_mem _ hmem)⟩
  | comma | combinator =>
    have hinert := (shape_of_matches hun hw).inert rfl
    rwa [h.eq_of_inert hinert]
  | pseudoElement =>
    obtain ⟨run, group, hne, hrun, hgroup, rfl⟩ := shape_of_matches hun hw
    obtain ⟨r, rfl, hrest⟩ := h.exists_seen (by decide) (by decide)
    obtain ⟨r, rfl, hveils⟩ := hrest.exists_seen (by decide) (by decide)
    obtain ⟨named, r, rfl, hnamed, hparens⟩ := hveils.exists_name_parens hne hrun hgroup fun hmem => hline (by simp [hmem])
    exact ⟨':' :: ':' :: named, r, rfl, ⟨[':', ':'], named, rfl,
      ⟨[':'], [':'], rfl, matches_lit.mpr rfl, matches_lit.mpr rfl⟩, hnamed⟩, hparens⟩
  | pseudoClass =>
    obtain ⟨run, group, hne, hrun, hgroup, rfl⟩ := shape_of_matches hun hw
    obtain ⟨r, rfl, hveils⟩ := h.exists_seen (by decide) (by decide)
    obtain ⟨named, r, rfl, hnamed, hparens⟩ := hveils.exists_name_parens hne hrun hgroup fun hmem => hline (by simp [hmem])
    exact ⟨':' :: named, r, rfl, ⟨[':'], named, rfl, matches_lit.mpr rfl, hnamed⟩, hparens⟩
  | universal =>
    obtain ⟨ns, hns, rfl⟩ := shape_of_matches hun hw
    obtain ⟨ns, r, rfl, hns, hveils⟩ := h.exists_nsBar hns hline
    obtain ⟨r, rfl, hnil⟩ := hveils.exists_seen (by decide) (by decide)
    cases hnil
    exact ⟨ns, ['*'], rfl, hns, matches_lit.mpr rfl⟩
  | typeName =>
    obtain ⟨ns, run, hns, hne, hrun, rfl⟩ := shape_of_matches hun hw
    obtain ⟨ns, r, rfl, hns, hveils⟩ := h.exists_nsBar hns hline
    exact ⟨ns, r, rfl, hns, hveils.matches_name hne hrun fun hmem => hline (List.mem_append_right _ hmem)⟩

end Grammar

end CssSelectors
