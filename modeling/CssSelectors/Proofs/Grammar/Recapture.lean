import CssSelectors.Proofs.Grammar.Rereading
import CssSelectors.Proofs.Grammar.Veiled

namespace CssSelectors

open Unicode Pattern Grammar Text

namespace Grammar

variable {s t : Cursor Field}

-- What the parts of tokens make of a cursor.
theorem exists_of_mem_lit {c : Char} (h : t ∈ (lit c).outcomes s) : s.rest = c :: t.rest ∧ t = s.skip 1 := by
  obtain ⟨_, hrest, hmatches, ht⟩ := Fieldless.exists_skip (p := lit c) trivial h
  obtain rfl := matches_lit.mp hmatches
  exact ⟨hrest, ht⟩

theorem exists_of_mem_name (h : t ∈ name.outcomes s) : ∃ units : List Text, units ≠ [] ∧
    (∀ unit ∈ units, nameUnit.Matches unit) ∧ s.rest = units.flatten ++ t.rest ∧
      t = (s.skip units.flatten.length).note .name s.offset := by
  have hname : (oneOrMore .greedy nameUnit).Fieldless := ⟨⟨trivial, trivial, trivial⟩, trivial, trivial, trivial⟩
  obtain ⟨_, hrest, ⟨unit, _, rfl, hunit, units, rfl, hunits⟩, ht⟩ := exists_note_of_mem_field hname h
  exact ⟨unit :: units, List.cons_ne_nil _ _, List.forall_mem_cons.mpr ⟨hunit, hunits⟩, hrest, ht⟩

-- Before the bar of a namespace stands an asterisk or a number of units.
def IsNsName (text : Text) : Prop :=
  text = ['*'] ∨ ∃ units : List Text, (∀ unit ∈ units, nameUnit.Matches unit) ∧ text = units.flatten

-- A namespace with its bar.
def bar : Pattern Field := .field .ns (lit '*' <|> .many .greedy nameUnit) ++ lit '|'

theorem matches_bar {text : Text} : bar.Matches text ↔ ∃ ns, IsNsName ns ∧ text = ns ++ ['|'] := by
  constructor
  · rintro ⟨ns, _, rfl, hns, hbar⟩
    obtain rfl := matches_lit.mp hbar
    refine ⟨ns, ?_, rfl⟩
    rcases hns with hstar | ⟨units, rfl, hunits⟩
    · exact .inl (matches_lit.mp hstar)
    · exact .inr ⟨units, hunits, rfl⟩
  · rintro ⟨ns, hns, rfl⟩
    refine ⟨ns, ['|'], rfl, ?_, matches_lit.mpr rfl⟩
    rcases hns with rfl | ⟨units, hunits, rfl⟩
    · exact .inl (matches_lit.mpr rfl)
    · exact .inr ⟨units, rfl, hunits⟩

theorem exists_of_mem_bar (h : t ∈ bar.outcomes s) :
    ∃ ns, IsNsName ns ∧ s.rest = ns ++ '|' :: t.rest ∧ t = ((s.skip ns.length).note .ns s.offset).skip 1 := by
  obtain ⟨u, hu, ht⟩ := List.mem_flatMap.mp h
  have hfieldless : (lit '*' <|> many .greedy nameUnit : Pattern Field).Fieldless := ⟨trivial, trivial, trivial, trivial⟩
  obtain ⟨ns, hrest, hmatches, rfl⟩ := exists_note_of_mem_field hfieldless hu
  obtain ⟨hbar, rfl⟩ := exists_of_mem_lit ht
  obtain ⟨ns', hns, heq⟩ := matches_bar.mp ⟨ns, ['|'], rfl, hmatches, matches_lit.mpr rfl⟩
  obtain rfl := (List.append_inj' heq rfl).1
  exact ⟨ns, hns, by rw [hrest, hbar], rfl⟩

theorem exists_of_mem_nsBar (h : t ∈ nsBar.outcomes s) :
    t = s ∨ ∃ ns, IsNsName ns ∧ s.rest = ns ++ '|' :: t.rest ∧ t = ((s.skip ns.length).note .ns s.offset).skip 1 := by
  rcases List.mem_append.mp h with h | h
  · exact .inr (exists_of_mem_bar h)
  · exact .inl (List.mem_singleton.mp h)

theorem exists_of_mem_parens {argument : Pattern Field} (hargument : argument.Fieldless)
    (h : t ∈ (parens argument).outcomes s) : t = s ∨ ∃ body, s.rest = '(' :: (body ++ ')' :: t.rest) ∧
      t = (((s.skip 1).skip body.length).note .argument (s.skip 1).offset).skip 1 := by
  rcases List.mem_append.mp h with h | h
  · obtain ⟨v, hv, ht⟩ := List.mem_flatMap.mp h
    obtain ⟨u, hu, hv⟩ := List.mem_flatMap.mp hv
    obtain ⟨hopening, rfl⟩ := exists_of_mem_lit hu
    obtain ⟨body, hbody, _, rfl⟩ := exists_note_of_mem_field hargument hv
    obtain ⟨hclosing, rfl⟩ := exists_of_mem_lit ht
    exact .inr ⟨body, by rw [hopening, hbody, hclosing], rfl⟩
  · exact .inl (List.mem_singleton.mp h)

theorem offset_eq_length {p : Pattern Field} {text : Text} (h : t ∈ p.outcomes (.start text)) (hend : t.rest = []) :
    t.offset = text.length := by
  obtain ⟨taken, hrest, hoffset⟩ := takes_of_mem_outcomes h
  have hrest : text = taken ++ t.rest := hrest
  rw [hend, List.append_nil] at hrest
  rw [hoffset, hrest]
  exact Nat.zero_add _

-- The fields of a token of a sign and a name,
theorem spans_of_sign {c : Char} {text : Text} (h : t ∈ (lit c ++ name).outcomes (.start text)) (hend : t.rest = []) :
    t.spans = [(.name, ⟨1, text.length⟩)] := by
  have hoffset := offset_eq_length h hend
  obtain ⟨u, hu, ht⟩ := List.mem_flatMap.mp h
  obtain ⟨_, rfl⟩ := exists_of_mem_lit hu
  obtain ⟨units, _, _, _, rfl⟩ := exists_of_mem_name ht
  rw [← hoffset]
  rfl

-- of a name with or without a namespace,
theorem spans_of_typeName {text : Text} (h : t ∈ (nsBar ++ name).outcomes (.start text)) (hend : t.rest = []) :
    ∃ units : List Text, units ≠ [] ∧ (∀ unit ∈ units, nameUnit.Matches unit) ∧
      (text = units.flatten ∧ t.spans = [(.name, ⟨0, text.length⟩)] ∨
        ∃ ns, IsNsName ns ∧ text = ns ++ '|' :: units.flatten ∧
          t.spans = [(.name, ⟨ns.length + 1, text.length⟩), (.ns, ⟨0, ns.length⟩)]) := by
  have hoffset := offset_eq_length h hend
  obtain ⟨u, hu, ht⟩ := List.mem_flatMap.mp h
  obtain ⟨units, hne, hunits, hrest, rfl⟩ := exists_of_mem_name ht
  rw [hend, List.append_nil] at hrest
  refine ⟨units, hne, hunits, ?_⟩
  rw [← hoffset]
  rcases exists_of_mem_nsBar hu with rfl | ⟨ns, hns, htext, hu⟩
  · exact .inl ⟨hrest, rfl⟩
  · refine .inr ⟨ns, hns, by rw [← hrest]; exact htext, ?_⟩
    subst hu
    simp [Cursor.note, Cursor.skip, Cursor.start]

-- of an asterisk with or without a namespace,
theorem spans_of_universal {text : Text} (h : t ∈ (nsBar ++ lit '*').outcomes (.start text)) (hend : t.rest = []) :
    text.length = 1 ∧ t.spans = [] ∨ ∃ n, text.length = n + 2 ∧ t.spans = [(.ns, ⟨0, n⟩)] := by
  obtain ⟨u, hu, ht⟩ := List.mem_flatMap.mp h
  obtain ⟨hstar, rfl⟩ := exists_of_mem_lit ht
  rw [hend] at hstar
  rcases exists_of_mem_nsBar hu with rfl | ⟨ns, _, htext, hu⟩
  · have htext : text = ['*'] := hstar
    exact .inl ⟨by simp [htext], rfl⟩
  · have htext : text = ns ++ ['|', '*'] := by rw [← hstar]; exact htext
    refine .inr ⟨ns.length, by simp [htext], ?_⟩
    subst hu
    simp [Cursor.note, Cursor.skip, Cursor.start]

-- and of colons with a name and perhaps an argument.
theorem spans_of_pseudo {argument : Pattern Field} (hargument : argument.Fieldless) {base : Pattern Field} {n : Nat}
    (hbase : ∀ s, ∀ u ∈ base.outcomes s, s.rest = List.replicate n ':' ++ u.rest ∧ u = s.skip n) {text : Text}
    (h : t ∈ ((base ++ name) ++ parens argument).outcomes (.start text)) (hend : t.rest = []) :
    ∃ units : List Text, (∀ unit ∈ units, nameUnit.Matches unit) ∧
      (text = List.replicate n ':' ++ units.flatten ∧ t.spans = [(.name, ⟨n, text.length⟩)] ∨
        ∃ body, text = List.replicate n ':' ++ (units.flatten ++ '(' :: body) ∧ t.spans =
          [(.argument, ⟨n + units.flatten.length + 1, text.length - 1⟩), (.name, ⟨n, n + units.flatten.length⟩)]) := by
  have hoffset := offset_eq_length h hend
  obtain ⟨v, hv, ht⟩ := List.mem_flatMap.mp h
  obtain ⟨u, hu, hv⟩ := List.mem_flatMap.mp hv
  obtain ⟨htext, rfl⟩ := hbase _ u hu
  obtain ⟨units, hne, hunits, hrest, rfl⟩ := exists_of_mem_name hv
  have htext : text = List.replicate n ':' ++ _ := htext.trans (by rw [hrest])
  refine ⟨units, hunits, ?_⟩
  rcases exists_of_mem_parens hargument ht with rfl | ⟨body, hparens, rfl⟩
  · left
    rw [hend, List.append_nil] at htext
    refine ⟨htext, ?_⟩
    rw [← hoffset]
    simp [Cursor.note, Cursor.skip, Cursor.start]
  · right
    rw [hparens] at htext
    refine ⟨_, htext, ?_⟩
    rw [← hoffset]
    simp [Cursor.note, Cursor.skip, Cursor.start]

end Grammar

namespace Veils

variable {w r : Text}

theorem eq_replicate {n : Nat} (h : Veils Encloses w (List.replicate n ':' ++ r)) :
    ∃ more, w = List.replicate n ':' ++ more ∧ Veils Encloses more r := by
  induction n generalizing w with
  | zero => exact ⟨w, rfl, h⟩
  | succ n ih =>
    obtain ⟨w, rfl, hw⟩ := h.eq_seen (by decide) (by decide)
    obtain ⟨more, rfl, hmore⟩ := ih hw
    exact ⟨more, rfl, hmore⟩

-- Over the name of a namespace stands an asterisk or a run of name characters, and over its bar
-- the bar.
theorem exists_bar {ns : Text} (h : Veils Encloses w (ns ++ '|' :: r)) (hun : w.Unescaped) (hns : IsNsName ns) :
    ∃ a b, w = a ++ '|' :: b ∧ a.length = ns.length ∧ (a = ['*'] ∨ IsRun a) ∧ Veils Encloses b r := by
  have hbar : ∀ {w : Text}, Veils Encloses w ('|' :: r) → ∃ b, w = '|' :: b ∧ Veils Encloses b r :=
    fun h => h.eq_seen (by decide) (by decide)
  rcases hns with rfl | ⟨units, hunits, rfl⟩
  · obtain ⟨w, rfl, hw⟩ := h.eq_seen (c := '*') (by decide) (by decide)
    obtain ⟨b, rfl, hb⟩ := hbar hw
    exact ⟨['*'], b, rfl, rfl, .inl rfl, hb⟩
  · obtain ⟨run, more, rfl, hrun, hlength, hmore⟩ := h.exists_run hun hunits
    obtain ⟨b, rfl, hb⟩ := hbar hmore
    exact ⟨run, b, rfl, hlength, .inr hrun, hb⟩

-- Over a name stand name characters.
theorem isRun_of_units {units : List Text} (h : Veils Encloses w units.flatten) (hun : w.Unescaped)
    (hunits : ∀ unit ∈ units, nameUnit.Matches unit) : IsRun w := by
  rw [← List.append_nil units.flatten] at h
  obtain ⟨run, more, rfl, hrun, _, hmore⟩ := h.exists_run hun hunits
  cases hmore
  rwa [List.append_nil]

end Veils

namespace Grammar

theorem isRun_flatten {units : List Text} (hun : Text.Unescaped units.flatten)
    (hunits : ∀ unit ∈ units, nameUnit.Matches unit) : IsRun units.flatten := by
  have hmatches : (many .greedy nameUnit).Matches units.flatten := ⟨units, rfl, hunits⟩
  exact (matches_many_nameUnit hun).mp hmatches

theorem notMem_of_isRun {text : Text} {c : Char} (h : IsRun text) (hc : isNameChar c = false) : c ∉ text := by
  intro hmem
  rw [h c hmem] at hc
  cases hc

theorem notMem_bar {ns : Text} (h : ns = ['*'] ∨ IsRun ns) : '|' ∉ ns := by
  rcases h with rfl | hrun
  · decide
  · exact notMem_of_isRun hrun (by decide)

theorem IsNsName.eq_or_isRun {ns : Text} (h : IsNsName ns) (hun : ns.Unescaped) : ns = ['*'] ∨ IsRun ns := by
  rcases h with rfl | ⟨units, hunits, rfl⟩
  · exact .inl rfl
  · exact .inr (isRun_flatten hun hunits)

theorem eq_of_append_cons {a b a' b' : Text} {c : Char} (ha : c ∉ a) (ha' : c ∉ a') (h : a ++ c :: b = a' ++ c :: b') :
    a = a' ∧ b = b' := by
  have hother : ∀ {u : Text}, c ∉ u → ∀ d ∈ u, (d != c) = true := fun hu => by
    simpa [List.forall_mem_ne'] using hu
  obtain ⟨hfront, hback⟩ := Text.append_inj_of_run (hother ha) (hother ha') (by simp) (by simp) h
  exact ⟨hfront, (List.cons.inj hback).2⟩

-- A name with its namespace is divided at the same bar.
theorem spans_typeName_eq {w r : Text} (h : Veils Encloses w r) (hun : w.Unescaped) {t t' : Cursor Field}
    (ht : t ∈ (nsBar ++ name).outcomes (.start w)) (hend : t.rest = [])
    (ht' : t' ∈ (nsBar ++ name).outcomes (.start r)) (hend' : t'.rest = []) : t.spans = t'.spans := by
  have hlength := h.length_eq
  obtain ⟨units, _, hunits, hw⟩ := spans_of_typeName ht hend
  obtain ⟨units', _, hunits', hr⟩ := spans_of_typeName ht' hend'
  rcases hw with ⟨hw, hspans⟩ | ⟨ns, hns, hw, hspans⟩
  · have hbar : '|' ∉ w := notMem_of_isRun (hw ▸ isRun_flatten (hw ▸ hun) hunits) (by decide)
    rcases hr with ⟨_, hspans'⟩ | ⟨ns', hns', rfl, _⟩
    · rw [hspans, hspans', hlength]
    · obtain ⟨a, b, rfl, _⟩ := h.exists_bar hun hns'
      simp at hbar
  · have hnsbar := notMem_bar (hns.eq_or_isRun (hw ▸ hun).of_append_left)
    rcases hr with ⟨rfl, _⟩ | ⟨ns', hns', rfl, hspans'⟩
    · have hrun := h.isRun_of_units hun hunits'
      exact absurd (hw ▸ by simp) (notMem_of_isRun hrun (c := '|') (by decide))
    · obtain ⟨a, b, hab, ha, hacases, _⟩ := h.exists_bar hun hns'
      have hsame := (eq_of_append_cons (notMem_bar hacases) hnsbar (hab.symm.trans hw)).1
      rw [hspans, hspans', hlength, ← ha, hsame]

-- The name of a pseudo-class or pseudo-element ends at the same paren.
theorem spans_pseudo_eq {base : Pattern Field} {n : Nat}
    (hbase : ∀ s, ∀ u ∈ base.outcomes s, s.rest = List.replicate n ':' ++ u.rest ∧ u = s.skip n) {w r : Text}
    (h : Veils Encloses w r) (hun : w.Unescaped) {t t' : Cursor Field}
    (ht : t ∈ ((base ++ name) ++ parens coveredArgument).outcomes (.start w)) (hend : t.rest = [])
    (ht' : t' ∈ ((base ++ name) ++ parens plainArgument).outcomes (.start r)) (hend' : t'.rest = []) :
    t.spans = t'.spans := by
  have hlength := h.length_eq
  have hcovered : coveredArgument.Fieldless := ⟨trivial, trivial⟩
  have hplain : plainArgument.Fieldless := ⟨trivial, trivial⟩
  obtain ⟨units, hunits, hw⟩ := spans_of_pseudo hcovered hbase ht hend
  obtain ⟨units', hunits', hr⟩ := spans_of_pseudo hplain hbase ht' hend'
  have hparen : isNameChar '(' = false := by decide
  have hrun : IsRun units.flatten := by
    refine isRun_flatten ?_ hunits
    rcases hw with ⟨hw, _⟩ | ⟨body, hw, _⟩
    · exact (hw ▸ hun).of_append_right
    · exact (hw ▸ hun).of_append_right.of_append_left
  rcases hr with ⟨rfl, hspans'⟩ | ⟨body', rfl, hspans'⟩
  · obtain ⟨more, rfl, hmore⟩ := h.eq_replicate
    have hmorerun := hmore.isRun_of_units hun.of_append_right hunits'
    rcases hw with ⟨_, hspans⟩ | ⟨body, hw, _⟩
    · rw [hspans, hspans', hlength]
    · rw [List.append_cancel_left hw] at hmorerun
      exact absurd (by simp) (notMem_of_isRun hmorerun hparen)
  · obtain ⟨more, rfl, hmore⟩ := h.eq_replicate
    obtain ⟨run, rest, rfl, hrun', hrunlength, hrest⟩ := hmore.exists_run hun.of_append_right hunits'
    obtain ⟨rest, rfl⟩ := hrest.exists_cons (by decide)
    rcases hw with ⟨hw, _⟩ | ⟨body, hw, hspans⟩
    · rw [← List.append_cancel_left hw] at hrun
      exact absurd (by simp) (notMem_of_isRun hrun hparen)
    · have hsame := (eq_of_append_cons (notMem_of_isRun hrun' hparen) (notMem_of_isRun hrun hparen)
        (List.append_cancel_left hw)).1
      rw [hspans, hspans', hlength, ← hrunlength, hsame]

-- Whatever its fields, a token other than an attribute has them in its source where it has them
-- while its escapes and arguments are covered.
theorem spans_eq_of_veils {tag : Tag} (hattr : tag ≠ .attr) {w r : Text} (h : Veils Encloses w r) (hun : w.Unescaped)
    {t t' : Cursor Field} (ht : t ∈ (pattern coveredArgument tag).outcomes (.start w)) (hend : t.rest = [])
    (ht' : t' ∈ (pattern plainArgument tag).outcomes (.start r)) (hend' : t'.rest = []) : t.spans = t'.spans := by
  have hlength := h.length_eq
  cases tag with
  | attr => exact absurd rfl hattr
  | id | className => rw [spans_of_sign ht hend, spans_of_sign ht' hend', hlength]
  | comma =>
    have hnone : (blanks ++ lit ',' ++ blanks).Fieldless := ⟨⟨trivial, trivial⟩, trivial⟩
    rw [hnone.spans_eq ht, hnone.spans_eq ht']
    rfl
  | combinator =>
    have hnone : (blanks ++ .char (fun c => isBlank c || c ∈ ['>', '+', '~']) ++ blanks).Fieldless :=
      ⟨⟨trivial, trivial⟩, trivial⟩
    rw [hnone.spans_eq ht, hnone.spans_eq ht']
    rfl
  | universal =>
    rcases spans_of_universal ht hend with ⟨hw, hspans⟩ | ⟨n, hw, hspans⟩ <;>
      rcases spans_of_universal ht' hend' with ⟨hr, hspans'⟩ | ⟨n', hr, hspans'⟩
    · rw [hspans, hspans']
    · omega
    · omega
    · obtain rfl : n = n' := by omega
      rw [hspans, hspans']
  | typeName => exact spans_typeName_eq h hun ht hend ht' hend'
  | pseudoClass =>
    have hbase : ∀ s, ∀ u ∈ (lit ':' : Pattern Field).outcomes s, s.rest = List.replicate 1 ':' ++ u.rest ∧ u = s.skip 1 :=
      fun s u hu => exists_of_mem_lit hu
    exact spans_pseudo_eq hbase h hun ht hend ht' hend'
  | pseudoElement =>
    have hbase : ∀ s, ∀ u ∈ (lit ':' ++ lit ':' : Pattern Field).outcomes s,
        s.rest = List.replicate 2 ':' ++ u.rest ∧ u = s.skip 2 := by
      intro s u hu
      obtain ⟨v, hv, hu⟩ := List.mem_flatMap.mp hu
      obtain ⟨hfirst, rfl⟩ := exists_of_mem_lit hv
      obtain ⟨hsecond, rfl⟩ := exists_of_mem_lit hu
      exact ⟨by rw [hfirst, hsecond]; rfl, Cursor.skip_skip s 1 1⟩
    exact spans_pseudo_eq hbase h hun ht hend ht' hend'

end Grammar

end CssSelectors
