import CssSelectors.Proofs.Grammar.Attribute
import CssSelectors.Proofs.Grammar.Veiled
import CssSelectors.Proofs.Pattern.Whole
import Mathlib.Data.List.Forall2

namespace CssSelectors

open Unicode Pattern Grammar Text

namespace Grammar

def isFlag (c : Char) : Bool := c ∈ ['i', 'I', 's', 'S']

theorem isFlag_iff {c : Char} : isFlag c = true ↔ c = 'i' ∨ c = 'I' ∨ c = 's' ∨ c = 'S' := by simp [isFlag]

theorem isBlank_of_isFlag {c : Char} (h : isFlag c = true) : isBlank c = false := by
  rcases isFlag_iff.mp h with rfl | rfl | rfl | rfl <;> decide

-- What the end of an attribute is made of.
theorem mem_closing {x : Text} (h : closing.Matches x) : ∀ c ∈ x, isBlank c = true ∨ isFlag c = true ∨ c = ']' := by
  obtain ⟨before, _, rfl, hbefore, flag, _, rfl, hflag, after, _, rfl, hafter, hbracket⟩ := h
  obtain rfl := matches_lit.mp hbracket
  intro c hc
  simp only [List.mem_append, List.mem_singleton] at hc
  rcases hc with hc | hc | hc | hc
  · exact .inl (matches_blanks.mp hbefore c hc)
  · rcases matches_perhaps.mp hflag with ⟨_, _, rfl, ⟨b, hb, rfl⟩, d, hd, rfl⟩ | rfl
    · rcases List.mem_cons.mp hc with rfl | hc
      · exact .inl hb
      · obtain rfl := List.mem_singleton.mp hc
        exact .inr (.inl hd)
    · simp at hc
  · exact .inl (matches_blanks.mp hafter c hc)
  · exact .inr (.inr hc)

-- Nothing in it is hidden or could begin or end what is hidden.
theorem plain_of_matches_closing {x : Text} (h : closing.Matches x) :
    ∀ c ∈ x, isCover c = false ∧ c ≠ '\\' ∧ ¬Encloses c ∧ c ≠ ')' := by
  intro c hc
  rcases mem_closing h c hc with hblank | hflag | rfl
  · refine ⟨?_, ?_, not_encloses_of_isBlank hblank, ?_⟩
    · rw [Bool.eq_false_iff]
      intro hcover
      rcases isCover_iff.mp hcover with rfl | rfl | rfl <;> revert hblank <;> decide
    all_goals
      rintro rfl
      revert hblank
      decide
  · rcases isFlag_iff.mp hflag with rfl | rfl | rfl | rfl <;> exact ⟨by decide, by decide, by decide, by decide⟩
  · exact ⟨by decide, by decide, by decide, by decide⟩

-- Without its first character the end of an attribute is an end, too, or the flag is left.
theorem matches_closing_cons {c : Char} {x : Text} (h : closing.Matches (c :: x)) :
    c = ']' ∧ x = [] ∨ isBlank c = true ∧ (closing.Matches x ∨
      ∃ d y, x = d :: y ∧ isFlag d = true ∧ closing.Matches y ∧ ∀ e ∈ y, isFlag e = false) := by
  obtain ⟨before, _, htext, hbefore, flag, _, rfl, hflag, after, _, rfl, hafter, hbracket⟩ := h
  obtain rfl := matches_lit.mp hbracket
  have hnone : blanks.Matches [] := matches_blanks.mpr (by simp [IsBlank])
  have hend : ∀ {after : Text}, blanks.Matches after → closing.Matches (after ++ [']']) := fun hafter =>
    ⟨_, [']'], rfl, hafter, [], [']'], rfl, .inr rfl, [], [']'], rfl, hnone, matches_lit.mpr rfl⟩
  cases before with
  | cons d before =>
    obtain ⟨rfl, rfl⟩ := List.cons.inj htext
    obtain ⟨hc, hmore⟩ := List.forall_mem_cons.mp (matches_blanks.mp hbefore)
    exact .inr ⟨hc, .inl ⟨before, _, rfl, matches_blanks.mpr hmore, flag, _, rfl, hflag, after, _, rfl, hafter,
      matches_lit.mpr rfl⟩⟩
  | nil =>
    rcases matches_perhaps.mp hflag with ⟨_, _, rfl, ⟨b, hb, rfl⟩, d, hd, rfl⟩ | rfl
    · obtain ⟨rfl, rfl⟩ := List.cons.inj htext
      refine .inr ⟨hb, .inr ⟨d, after ++ [']'], rfl, hd, hend hafter, fun e he => ?_⟩⟩
      rw [Bool.eq_false_iff]
      intro hflag
      rcases List.mem_append.mp he with he | he
      · have hblank := matches_blanks.mp hafter e he
        rw [isBlank_of_isFlag hflag] at hblank
        cases hblank
      · rw [List.mem_singleton.mp he] at hflag
        revert hflag
        decide
    · cases after with
      | nil =>
        obtain ⟨rfl, rfl⟩ := List.cons.inj htext
        exact .inl ⟨rfl, rfl⟩
      | cons d after =>
        obtain ⟨rfl, rfl⟩ := List.cons.inj htext
        obtain ⟨hc, hmore⟩ := List.forall_mem_cons.mp (matches_blanks.mp hafter)
        exact .inr ⟨hc, .inl (hend (matches_blanks.mpr hmore))⟩

-- Conversely, blanks may be put before an end, and a flag before one without a flag.
theorem matches_closing_of_blank {b : Char} {x : Text} (hb : isBlank b = true) (h : closing.Matches x) :
    closing.Matches (b :: x) := by
  obtain ⟨before, more, rfl, hbefore, hmore⟩ := h
  exact ⟨b :: before, more, rfl, matches_blanks.mpr (List.forall_mem_cons.mpr ⟨hb, matches_blanks.mp hbefore⟩), hmore⟩

theorem matches_closing_of_flag {b c : Char} {x : Text} (hb : isBlank b = true) (hc : isFlag c = true)
    (h : (blanks ++ lit ']').Matches x) : closing.Matches (b :: c :: x) :=
  ⟨[], _, rfl, matches_blanks.mpr (by simp [IsBlank]), [b, c], x, rfl, .inl ⟨[b], [c], rfl, ⟨b, hb, rfl⟩, c, hc, rfl⟩, h⟩

-- Where no flag is seen, there is none.
theorem matches_of_unflagged {s t : Cursor Field} (h : closing.finish? s = some t)
    (hnone : ∀ span, (.caseFlag, span) ∉ t.spans) : (blanks ++ lit ']').Matches s.rest := by
  obtain ⟨hmem, hend⟩ := mem_of_finish? h
  obtain ⟨u, hbefore, hmore⟩ := List.mem_flatMap.mp hmem
  obtain ⟨v, hflag, hafter⟩ := List.mem_flatMap.mp hmore
  obtain ⟨before, hrest, _, hblank⟩ := takesIn_of_mem_outcomes hbefore
  rcases List.mem_append.mp hflag with hflag | hflag
  · obtain ⟨w, _, hflag⟩ := List.mem_flatMap.mp hflag
    obtain ⟨span, hspan⟩ := (seen_of_mem_field hflag).of_mem_outcomes hafter
    exact absurd hspan (hnone span)
  · obtain rfl := List.mem_singleton.mp hflag
    obtain ⟨taken, hrest', _, gap, _, rfl, hgap, hbracket⟩ := takesIn_of_mem_outcomes hafter
    refine ⟨before ++ gap, [']'], ?_, ?_, matches_lit.mpr rfl⟩
    · rw [hrest, hrest', hend, matches_lit.mp hbracket]
      simp
    · rw [matches_blanks] at hblank hgap ⊢
      exact fun c hc => (List.mem_append.mp hc).elim (hblank c) (hgap c)

-- Where there is no letter for it, no flag is seen.
theorem spans_of_mem_closing {s t : Cursor Field} (h : t ∈ closing.outcomes s) (hnone : ∀ c ∈ s.rest, isFlag c = false) :
    t.spans = s.spans := by
  obtain ⟨u, hbefore, hmore⟩ := List.mem_flatMap.mp h
  obtain ⟨v, hflag, hafter⟩ := List.mem_flatMap.mp hmore
  have hfieldless : (blanks ++ lit ']').Fieldless := ⟨trivial, trivial⟩
  obtain ⟨before, hrest, _, rfl⟩ := Fieldless.exists_skip (p := blanks) trivial hbefore
  rw [hfieldless.spans_eq hafter]
  rcases List.mem_append.mp hflag with hflag | hflag
  · obtain ⟨w, hblank, hflag⟩ := List.mem_flatMap.mp hflag
    obtain ⟨_, hrest', _, rfl⟩ := Fieldless.exists_skip (p := .char isBlank) trivial hblank
    obtain ⟨_, hrest'', ⟨c, hc, rfl⟩, _⟩ := exists_note_of_mem_field (by trivial) hflag
    have hflag : isFlag c = true := hc
    rw [hnone c (by rw [hrest, hrest', hrest'']; simp)] at hflag
    cases hflag
  · rw [List.mem_singleton.mp hflag]
    rfl

end Grammar

namespace Veils

variable {w r : Text}

-- Every character is either in sight or covered.
theorem forall₂ (h : Veils Encloses w r) : List.Forall₂ (fun c d => c = d ∨ isCover c = true) w r := by
  induction h with
  | nil => exact .nil
  | seen c _ ih => exact .cons (.inl rfl) ih
  | escape d _ ih => exact .cons (.inr (isCover_char .escape)) (.cons (.inr (isCover_char .escape)) ih)
  | @enclosed opening hidden body w r _ hhidden hlength _ ih =>
    refine .cons (.inl rfl) ?_
    induction hidden generalizing body with
    | nil =>
      obtain rfl := List.length_eq_zero_iff.mp hlength.symm
      exact .cons (.inl rfl) ih
    | cons c hidden ihhidden =>
      obtain ⟨d, body, rfl⟩ := List.exists_cons_of_length_eq_add_one hlength.symm
      obtain ⟨hc, hmore⟩ := List.forall_mem_cons.mp hhidden
      exact .cons (.inr hc) (ihhidden hmore (by simpa using hlength))

-- What has no cover at the end is in sight.
theorem exists_append {a x : Text} (h : Veils Encloses (a ++ x) r) (hx : ∀ c ∈ x, isCover c = false) :
    ∃ b, r = b ++ x ∧ b.length = a.length := by
  have hlength := h.length_eq
  rw [List.length_append] at hlength
  have hdrop := List.forall₂_drop a.length h.forall₂
  rw [List.drop_left] at hdrop
  have hsame : x = r.drop a.length := by
    rw [← List.forall₂_eq_eq_eq]
    refine ((List.forall₂_and_left x _).mpr ⟨hx, hdrop⟩).imp fun c d hcd => hcd.2.resolve_right ?_
    simp [hcd.1]
  refine ⟨r.take a.length, by rw [hsame, List.take_append_drop], ?_⟩
  rw [List.length_take]
  omega

-- Line feeds in sight are there.
theorem notMem_of_take {n : Nat} (h : Veils Encloses w r) (hr : '\n' ∉ r.take n) : '\n' ∉ w.take n := by
  intro hmem
  obtain ⟨i, hi⟩ := List.mem_iff_get.mp hmem
  have htake := List.forall₂_take n h.forall₂
  have hlength := htake.length_eq
  have hlt : i.val < (r.take n).length := by
    have hlt := i.isLt
    omega
  rcases htake.get i.isLt hlt with hsame | hcover
  · rw [hi] at hsame
    exact hr (hsame ▸ List.get_mem _ _)
  · rw [hi] at hcover
    revert hcover
    decide

end Veils

namespace Grammar

-- What an end in plain sight loses where a backslash before it escapes its first blank: that
-- blank, and with it the flag that follows.
def Lost (lost x : Text) : Prop :=
  (∃ b, isBlank b = true ∧ lost = [b]) ∨
    ∃ b c, isBlank b = true ∧ isFlag c = true ∧ lost = [b, c] ∧ ∀ e ∈ x, isFlag e = false

end Grammar

namespace Veils

variable {w r : Text}

-- Such an end is an end, too, while its first character may be hidden, but it may begin later.
theorem exists_closing {a y : Text} (h : Veils Encloses w (a ++ y)) (hend : ∃ u, w = u ++ [']']) (hy : closing.Matches y) :
    ∃ b x lost, w = b ++ x ∧ closing.Matches x ∧ y = lost ++ x ∧ b.length = a.length + lost.length ∧
      (lost = [] ∨ (∃ a', a = a' ++ ['\\']) ∧ Lost lost x) ∧ ('\n' ∉ a → '\n' ∉ b) := by
  have hline : ∀ b x : Text, w = b ++ x → b.length = a.length → '\n' ∉ a → '\n' ∉ b := by
    rintro b x rfl hlength hline
    have hnot := h.notMem_of_take (n := a.length) (by simpa using hline)
    rwa [← hlength, List.take_left] at hnot
  obtain ⟨b, x, hw, hlength, hx⟩ := h.eq_suffix_of_plain fun c hc => (plain_of_matches_closing hy c hc).2
  rcases hx with rfl | ⟨a', d, z, ha, rfl, rfl⟩
  · exact ⟨b, x, [], hw, hy, rfl, hlength, .inl rfl, hline b x hw hlength⟩
  · have hcover : Cover.escape.char ≠ '\n' := by decide
    rcases matches_closing_cons hy with ⟨rfl, rfl⟩ | ⟨hd, hz | ⟨c, x, rfl, hc, hx, hnone⟩⟩
    · obtain ⟨u, hu⟩ := hend
      rw [hw] at hu
      exact absurd (List.append_inj' hu rfl).2 (by decide)
    · refine ⟨b ++ [Cover.escape.char], z, [d], by rw [hw]; simp, hz, rfl, by simp [hlength], ?_, fun ha => ?_⟩
      · exact .inr ⟨⟨a', ha⟩, .inl ⟨d, hd, rfl⟩⟩
      · simp [hline b _ hw hlength ha, hcover.symm]
    · refine ⟨b ++ [Cover.escape.char, c], x, [d, c], by rw [hw]; simp, hx, rfl, by simp [hlength], ?_, fun ha => ?_⟩
      · exact .inr ⟨⟨a', ha⟩, .inr ⟨d, c, hd, hc, rfl, hnone⟩⟩
      · have hfeed : '\n' ≠ c := by
          rintro rfl
          revert hc
          decide
        simp [hline b _ hw hlength ha, hcover.symm, hfeed]

end Veils

end CssSelectors
