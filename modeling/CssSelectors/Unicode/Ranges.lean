namespace CssSelectors.Unicode

-- Membership in a set of code points given by its ranges, both ends included, in
-- ascending order. The search stops at the first range that lies above the code point:
-- all later ones lie higher still.
def inRanges : List (Nat × Nat) → Nat → Bool
  | [], _ => false
  | (low, high) :: more, n =>
    if n < low then false else n ≤ high || inRanges more n

-- What a found code point owes to the table: one of the ranges holds it.
theorem exists_mem_of_inRanges {table : List (Nat × Nat)} {n : Nat}
    (h : inRanges table n = true) : ∃ r ∈ table, r.1 ≤ n ∧ n ≤ r.2 := by
  induction table with
  | nil => simp [inRanges] at h
  | cons r more ih =>
    obtain ⟨low, high⟩ := r
    unfold inRanges at h
    split at h
    case isTrue => simp at h
    case isFalse hlow =>
      cases Nat.lt_or_ge high n with
      | inl hhigh =>
        have hmore : inRanges more n = true := by simpa [Nat.not_le.mpr hhigh] using h
        obtain ⟨s, hs, hn⟩ := ih hmore
        exact ⟨s, List.mem_cons_of_mem _ hs, hn⟩
      | inr hhigh => exact ⟨(low, high), List.mem_cons_self, by omega, hhigh⟩

end CssSelectors.Unicode
