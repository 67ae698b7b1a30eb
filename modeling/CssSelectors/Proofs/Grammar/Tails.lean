import CssSelectors.Proofs.Grammar.Attribute

namespace CssSelectors

open Unicode Pattern Grammar Text

namespace Grammar

-- What may stand after the name of an attribute.
def tail : Pattern Field := blanks ++ ending

theorem matches_tail_cons {c : Char} {x : Text} (h : tail.Matches (c :: x)) :
    c = ']' ∨ c = '=' ∨ (isBlank c = true ∨ ∃ y, x = '=' :: y) ∧ tail.Matches x := by
  obtain ⟨before, rest, htext, hbefore, hending⟩ := h
  cases before with
  | cons d before =>
    obtain ⟨rfl, rfl⟩ := List.cons.inj htext
    obtain ⟨hc, hmore⟩ := List.forall_mem_cons.mp (matches_blanks.mp hbefore)
    exact .inr (.inr ⟨.inl hc, before, rest, rfl, matches_blanks.mpr hmore, hending⟩)
  | nil =>
    obtain ⟨_, _, rfl, hcompared, hbracket⟩ := hending
    obtain rfl := matches_lit.mp hbracket
    rcases matches_perhaps.mp hcompared with hcompared | rfl
    · obtain ⟨_, after, rfl, ⟨_, flag, rfl, ⟨_, gap, rfl, ⟨_, v, rfl, ⟨_, lead, rfl, hop, hlead⟩, hv⟩, hgap⟩, hflag⟩, hafter⟩ :=
        hcompared
      obtain ⟨sign, _, rfl, hsign, hequals⟩ := hop
      obtain rfl := matches_lit.mp hequals
      rcases matches_perhaps.mp hsign with ⟨d, _, rfl⟩ | rfl
      · obtain ⟨rfl, rfl⟩ := List.cons.inj htext
        have hop : operator.Matches ['='] := ⟨[], ['='], rfl, .inr rfl, matches_lit.mpr rfl⟩
        have hcompared : comparison.Matches (['='] ++ lead ++ v ++ gap ++ flag ++ after) :=
          ⟨_, after, rfl, ⟨_, flag, rfl, ⟨_, gap, rfl, ⟨_, v, rfl, ⟨['='], lead, rfl, hop, hlead⟩, hv⟩, hgap⟩, hflag⟩, hafter⟩
        refine .inr (.inr ⟨.inr ⟨_, rfl⟩, [], _, rfl, matches_blanks.mpr (by simp [IsBlank]), ?_⟩)
        exact ⟨_, [']'], rfl, .inl hcompared, hbracket⟩
      · exact .inr (.inl (List.cons.inj htext).1)
    · exact .inl (List.cons.inj htext).1

-- So it may begin later, as long as its equals sign or bracket is still to come.
theorem matches_tail_of_append {u x : Text} (h : tail.Matches (u ++ x)) (hu : ∀ c ∈ u, c ≠ '=' ∧ c ≠ ']') :
    tail.Matches x := by
  induction u with
  | nil => exact h
  | cons c u ih =>
    obtain ⟨⟨hequals, hbracket⟩, hmore⟩ := List.forall_mem_cons.mp hu
    exact ih (((matches_tail_cons h).resolve_left hbracket).resolve_left hequals).2 hmore

theorem exists_of_matches_tail_bar {x : Text} (h : tail.Matches ('|' :: x)) : ∃ y, x = '=' :: y := by
  rcases matches_tail_cons h with h | h | ⟨h | h, _⟩
  · simp at h
  · simp at h
  · exact absurd h (by decide)
  · exact h

theorem matches_ending_of_tail {x : Text} (h : tail.Matches x) (hx : ∀ c ∈ x.head?, isBlank c = false) :
    ending.Matches x := by
  obtain ⟨before, rest, rfl, hbefore, hending⟩ := h
  cases before with
  | nil => exact hending
  | cons d before =>
    have hblank := matches_blanks.mp hbefore d List.mem_cons_self
    simp [hx d rfl] at hblank

-- The characters before the end of an attribute.
theorem IsNs.avoids {ns : Text} (h : IsNs ns) : ∀ c ∈ ns, c ≠ '=' ∧ c ≠ ']' := by
  intro c hc
  have hholds := h.holds c hc
  constructor <;> rintro rfl <;> revert hholds <;> decide

theorem avoids_of_isRun {run : Text} (h : IsRun run) : ∀ c ∈ run, c ≠ '=' ∧ c ≠ ']' := by
  intro c hc
  have hname := h c hc
  constructor <;> rintro rfl <;> revert hname <;> decide

theorem avoids_of_isBlank {before : Text} (h : IsBlank before) : ∀ c ∈ before, c ≠ '=' ∧ c ≠ ']' := by
  intro c hc
  have hblank := h c hc
  constructor <;> rintro rfl <;> revert hblank <;> decide

-- An attribute after its bracket and the blanks there. Its name may begin with blanks, namely
-- those beyond ASCII.
def named : Pattern Field := nsBar ++ (name ++ tail)

-- It may begin after blanks, too, if a name stands there.
theorem matches_named_of_blanks {before y u z : Text} (hun : Text.Unescaped (before ++ y)) (hbefore : IsBlank before)
    (h : named.Matches (before ++ y)) (hy : y = u ++ z) (hu : (nsBar ++ name).Matches u) : named.Matches y := by
  have huny : y.Unescaped := hun.of_append_right
  -- If the name that was matched ends among the blanks, the name that stands there may be passed over.
  have hlater : ∀ v, IsBlank v → tail.Matches (v ++ y) → named.Matches y := by
    intro v hv htail
    obtain ⟨ns, run, rfl, hns, hrun⟩ := hu
    have hy' : y = ns ++ (run ++ z) := by rw [hy, List.append_assoc]
    refine ⟨ns, run ++ z, hy', hns, run, z, rfl, hrun, ?_⟩
    have hmore := matches_tail_of_append htail (avoids_of_isBlank hv)
    rw [hy'] at hmore huny
    have hnsmore := matches_tail_of_append hmore ((matches_nsBar huny.of_append_left).mp hns).avoids
    exact matches_tail_of_append hnsmore
      (avoids_of_isRun ((matches_name huny.of_append_right.of_append_left).mp hrun).2)
  obtain ⟨ns, _, htext, hns, run, x, rfl, hrun, hx⟩ := h
  have hunall : Text.Unescaped (ns ++ (run ++ x)) := htext ▸ hun
  obtain ⟨hne, hrunall⟩ := (matches_name hunall.of_append_right.of_append_left).mp hrun
  rcases (matches_nsBar hunall.of_append_left).mp hns with rfl | ⟨ns, hnsname, rfl⟩
  · rw [List.nil_append] at htext
    rcases List.append_eq_append_iff.mp htext with ⟨run', rfl, rfl⟩ | ⟨v, rfl, rfl⟩
    · by_cases hnil : run' = []
      · subst hnil
        exact hlater [] (by simp [IsBlank]) hx
      · have hrun' : name.Matches run' :=
          (matches_name huny.of_append_left).mpr ⟨hnil, fun c hc => hrunall c (List.mem_append_right _ hc)⟩
        exact ⟨[], run' ++ x, rfl, .inr rfl, run', x, rfl, hrun', hx⟩
    · exact hlater v (fun c hc => hbefore c (List.mem_append_right _ hc)) hx
  · -- A namespace goes on after the blanks, since its bar is none of them.
    have hbar : ∀ v, before ≠ ns ++ '|' :: v := by
      rintro v rfl
      exact absurd (hbefore '|' (by simp)) (by decide)
    have hfront : ∃ ns', (ns' = ['*'] ∨ IsRun ns') ∧ y = (ns' ++ ['|']) ++ (run ++ x) := by
      rw [List.append_assoc, List.singleton_append] at htext
      rcases List.append_eq_append_iff.mp htext with ⟨ns', rfl, rfl⟩ | ⟨v, rfl, hv⟩
      · refine ⟨ns', ?_, by simp⟩
        cases before with
        | nil => exact hnsname
        | cons c before =>
          refine .inr fun d hd => (hnsname.resolve_left ?_) d (List.mem_append_right _ hd)
          intro hstar
          obtain ⟨rfl, _⟩ := List.cons.inj hstar
          exact absurd (hbefore '*' List.mem_cons_self) (by decide)
      · cases v with
        | nil => exact ⟨[], .inr (by simp [IsRun]), hv.symm⟩
        | cons c v =>
          obtain ⟨rfl, _⟩ := List.cons.inj hv
          exact absurd rfl (hbar v)
    obtain ⟨ns', hns', rfl⟩ := hfront
    exact ⟨ns' ++ ['|'], run ++ x, rfl, (matches_nsBar huny.of_append_left).mpr (.inr ⟨ns', hns', rfl⟩), run, x, rfl, hrun, hx⟩

end Grammar

end CssSelectors
