import CssSelectors.Text.Basic

namespace CssSelectors.Text

-- No backslash has a character after it, so none can mark one. Texts are like this once their
-- escapes are hidden.
def Unescaped (text : Text) : Prop := ∀ before after, text = before ++ '\\' :: after → after = []

theorem unescaped_nil : Unescaped [] := by
  intro before after h
  simp at h

theorem Unescaped.of_append_right {u v : Text} (h : Unescaped (u ++ v)) : Unescaped v := by
  rintro before after rfl
  exact h (u ++ before) after (by simp)

theorem Unescaped.of_append_left {u v : Text} (h : Unescaped (u ++ v)) : Unescaped u := by
  rintro before after rfl
  exact (List.append_eq_nil_iff.mp (h before (after ++ v) (by simp))).1

theorem Unescaped.drop {text : Text} (h : Unescaped text) (n : Nat) : Unescaped (text.drop n) :=
  Unescaped.of_append_right (u := text.take n) (by rwa [List.take_append_drop])

theorem Unescaped.of_cons {c : Char} {rest : Text} (h : Unescaped (c :: rest)) : Unescaped rest :=
  Unescaped.of_append_right (u := [c]) h

-- A backslash at the front is all there is.
theorem Unescaped.eq_nil_of_backslash {rest : Text} (h : Unescaped ('\\' :: rest)) : rest = [] :=
  h [] rest rfl

theorem Unescaped.append {u v : Text} (hu : '\\' ∉ u) (hv : v.Unescaped) : (u ++ v).Unescaped := by
  intro before after h
  rcases List.append_eq_append_iff.mp h with ⟨w, rfl, hw⟩ | ⟨w, rfl, hw⟩
  · exact hv w after hw
  · cases w with
    | nil => exact hv [] after (by simpa using hw.symm)
    | cons c w =>
      obtain ⟨rfl, _⟩ := List.cons.inj hw
      simp at hu

theorem Unescaped.cons {c : Char} {v : Text} (hc : c ≠ '\\') (hv : v.Unescaped) : Unescaped (c :: v) :=
  Unescaped.append (u := [c]) (by simpa using hc.symm) hv

-- What follows a text does not matter, but whether anything does.
theorem Unescaped.append_congr {u v v' : Text} (h : Unescaped (u ++ v)) (hv' : Unescaped v') (hnil : v = [] → v' = []) :
    Unescaped (u ++ v') := by
  by_cases hv : v = []
  · rwa [hnil hv, ← hv]
  · refine .append (fun hmem => ?_) hv'
    obtain ⟨before, after, rfl⟩ := List.append_of_mem hmem
    exact hv (List.append_eq_nil_iff.mp (h before (after ++ v) (by simp))).2

theorem unescaped_singleton (c : Char) : Unescaped [c] := by
  intro before after h
  cases before with
  | nil => exact (List.cons.inj h).2.symm
  | cons d before => simp at h

end CssSelectors.Text
