import CssSelectors.Unicode.Blank

namespace CssSelectors

-- Texts are lists of characters. All offsets of this library count characters, and a list is
-- cut at such an offset by `take` and `drop`.
abbrev Text := List Char

namespace Text

open Unicode

-- The part of a text from one offset up to another.
def slice (text : Text) (start stop : Nat) : Text :=
  (text.drop start).take (stop - start)

-- A text without the blanks at its two ends.
def trim (text : Text) : Text :=
  ((text.dropWhile isBlank).reverse.dropWhile isBlank).reverse

-- The number of bytes that a text takes in UTF-8.
def utf8Size (text : Text) : Nat :=
  text.foldr (fun c size => c.utf8Size + size) 0

-- The part before an offset, the part between and the part after make up the text.
theorem take_append_slice_append_drop (text : Text) {start stop : Nat} (h : start ≤ stop) :
    text.take start ++ text.slice start stop ++ text.drop stop = text := by
  have hstop : stop = start + (stop - start) := by omega
  rw [slice, List.append_assoc]
  conv => lhs; rhs; rhs; rw [hstop, ← List.drop_drop]
  rw [List.take_append_drop, List.take_append_drop]

theorem slice_middle (before middle after : Text) :
    slice (before ++ middle ++ after) before.length (before.length + middle.length) = middle := by
  simp [slice]

theorem length_slice (text : Text) (start stop : Nat) :
    (text.slice start stop).length = min (stop - start) (text.length - start) := by
  simp [slice]

end Text

end CssSelectors
