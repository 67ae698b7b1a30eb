import CssSelectors.Unicode.Ranges

namespace CssSelectors.Unicode

-- The code points with the property White_Space: the blank, the five ASCII controls that move
-- the print position, and the spaces and line ends beyond ASCII.
def blankRanges : List (Nat × Nat) :=
  [(0x9, 0xD), (0x20, 0x20), (0x85, 0x85), (0xA0, 0xA0), (0x1680, 0x1680), (0x2000, 0x200A),
   (0x2028, 0x2029), (0x202F, 0x202F), (0x205F, 0x205F), (0x3000, 0x3000)]

-- A character that separates without being read.
def isBlank (c : Char) : Bool := inRanges blankRanges c.toNat

-- Every character that the core library counts as white space is blank here, too.
theorem isBlank_of_isWhitespace {c : Char} (h : c.isWhitespace = true) : isBlank c = true := by
  simp only [Char.isWhitespace, Bool.or_eq_true, decide_eq_true_eq] at h
  rcases h with ((rfl | rfl) | rfl) | rfl <;> decide

end CssSelectors.Unicode
