import CssSelectors.Proofs.Fragment.Passes
import CssSelectors.Proofs.Grammar.Attribute
import CssSelectors.Proofs.Masking.Visible
import CssSelectors.Proofs.Token.Delimiters

namespace CssSelectors

open Unicode Grammar Text

namespace Word

-- The word with the text that its token has for content.
def narrow (word : Word) : Word := ⟨word.kind, Token.normalize word.kind word.text⟩

def narrowAll (words : List Word) : List Word := words.map narrow

@[simp] theorem narrowAll_nil : narrowAll [] = [] := rfl

@[simp] theorem narrowAll_cons (word : Word) (words : List Word) :
    narrowAll (word :: words) = word.narrow :: narrowAll words := rfl

@[simp] theorem narrowAll_append (us vs : List Word) : narrowAll (us ++ vs) = narrowAll us ++ narrowAll vs :=
  List.map_append

@[simp] theorem tag_narrow (word : Word) : word.narrow.tag = word.tag := rfl

theorem narrow_eq_self {word : Word} (h : word.tag.delimits = false) : word.narrow = word := by
  rw [narrow, Token.normalize_of_not_delimits h]

theorem narrowAll_eq_self {words : List Word} (h : ∀ word ∈ words, word.tag.delimits = false) :
    narrowAll words = words := by
  rw [narrowAll, List.map_congr_left fun word hword => narrow_eq_self (h word hword), List.map_id']

theorem text_narrow_comma {word : Word} (htag : word.tag = .comma) (h : word.tag.Shape word.text) :
    word.narrow.text = [','] := by
  rw [htag] at h
  obtain ⟨kind, text⟩ := word
  cases kind <;> simp only [tag, Kind.tag, reduceCtorEq] at htag
  exact Token.bare_of_comma h

theorem text_narrow_combinator {word : Word} (htag : word.tag = .combinator) (h : word.tag.Shape word.text) :
    word.text.IsBlank ∧ word.narrow.text = [' '] ∨
      ∃ before c after, IsBlank before ∧ isSymbol c = true ∧ IsBlank after ∧ word.text = before ++ c :: after ∧
        word.narrow.text = [c] := by
  rw [htag] at h
  obtain ⟨kind, text⟩ := word
  cases kind <;> simp only [tag, Kind.tag, reduceCtorEq] at htag
  exact Token.bare_of_combinator h

-- A narrowed delimiter is a character of the delimiter or a blank for blanks.
theorem narrow_of_delimits {word : Word} (hdelimits : word.tag.delimits = true) (h : word.tag.Shape word.text) :
    ∃ c, word.narrow.text = [c] ∧ word.tag.opens c = true ∧ isNameChar c = false ∧
      (c ∈ word.text ∧ isBlank c = false ∨ c = ' ' ∧ word.text.IsBlank) := by
  cases htag : word.tag <;> simp only [htag, Tag.delimits, Bool.false_eq_true] at hdelimits
  case comma =>
    refine ⟨',', text_narrow_comma htag h, rfl, by decide, .inl ⟨?_, by decide⟩⟩
    rw [htag] at h
    obtain ⟨before, after, _, _, htext⟩ := h
    simp [htext]
  case combinator =>
    rcases text_narrow_combinator htag h with ⟨hblank, hnarrow⟩ | ⟨before, c, after, _, hc, _, htext, hnarrow⟩
    · exact ⟨' ', hnarrow, rfl, by decide, .inr ⟨rfl, hblank⟩⟩
    · refine ⟨c, hnarrow, by simp [Tag.opens, hc], ?_, .inl ⟨by simp [htext], Token.isBlank_of_isSymbol hc⟩⟩
      rcases isSymbol_iff.mp hc with rfl | rfl | rfl <;> decide

-- Narrowing keeps the shape of a word,
theorem shape_narrow {word : Word} (h : word.tag.Shape word.text) : word.tag.Shape word.narrow.text := by
  cases hdelimits : word.tag.delimits with
  | false => rwa [narrow_eq_self hdelimits]
  | true =>
    obtain ⟨c, hnarrow, hopens, _, _⟩ := narrow_of_delimits hdelimits h
    rw [hnarrow]
    cases htag : word.tag <;> simp only [htag, Tag.delimits, Bool.false_eq_true] at hdelimits
    case comma =>
      rw [text_narrow_comma htag h] at hnarrow
      obtain rfl : ',' = c := by simpa using hnarrow
      exact ⟨[], [], by simp [IsBlank], by simp [IsBlank], rfl⟩
    case combinator =>
      rw [htag] at hopens
      exact ⟨[], c, [], by simp [IsBlank], hopens, by simp [IsBlank], rfl⟩

-- brings nothing into it but a blank,
theorem mem_of_mem_narrow {word : Word} (h : word.tag.Shape word.text) {c : Char} (hc : c ∈ word.narrow.text) :
    c ∈ word.text ∨ c = ' ' := by
  cases hdelimits : word.tag.delimits with
  | false =>
    rw [narrow_eq_self hdelimits] at hc
    exact .inl hc
  | true =>
    obtain ⟨d, hnarrow, _, _, hd⟩ := narrow_of_delimits hdelimits h
    rw [hnarrow] at hc
    obtain rfl := List.mem_singleton.mp hc
    exact hd.imp And.left And.left

-- A blank goes first only in a delimiter, and the first character is kept where it is no blank.
theorem head?_narrow {word : Word} (h : word.tag.Shape word.text) (hblank : ∀ c ∈ word.text.head?, isBlank c = false) :
    word.narrow.text.head? = word.text.head? := by
  have hfirst : ∀ before c after, IsBlank before → word.text = before ++ c :: after → word.text.head? = some c := by
    intro before c after hbefore htext
    cases before with
    | nil => rw [htext]; rfl
    | cons b before =>
      have hb : isBlank b = false := hblank b (by rw [htext]; rfl)
      simp [hbefore b List.mem_cons_self] at hb
  by_cases hcomma : word.tag = .comma
  · rw [text_narrow_comma hcomma h]
    rw [hcomma] at h
    obtain ⟨before, after, hbefore, _, htext⟩ := h
    rw [hfirst before ',' after hbefore htext]
    rfl
  · by_cases hcombinator : word.tag = .combinator
    · rcases text_narrow_combinator hcombinator h with ⟨hall, _⟩ | ⟨before, c, after, hbefore, _, _, htext, hnarrow⟩
      · obtain ⟨c, text, htext⟩ := List.exists_cons_of_ne_nil h.ne_nil
        have hc := hblank c (by rw [htext]; rfl)
        simp [hall c (by rw [htext]; exact List.mem_cons_self)] at hc
      · rw [hnarrow, hfirst before c after hbefore htext]
        rfl
    · have hdelimits : word.tag.delimits = false := by
        revert hcomma hcombinator
        cases word.tag <;> decide
      rw [narrow_eq_self hdelimits]

theorem head?_narrow_of_named {word : Word} (h : word.tag.Shape word.text)
    (hname : ∀ c ∈ word.text.head?, isNameChar c = false) : ∀ c ∈ word.narrow.text.head?, isNameChar c = false := by
  intro c hc
  cases hdelimits : word.tag.delimits with
  | false =>
    rw [narrow_eq_self hdelimits] at hc
    exact hname c hc
  | true =>
    obtain ⟨d, hnarrow, _, hd, _⟩ := narrow_of_delimits hdelimits h
    rw [hnarrow] at hc
    obtain rfl : d = c := Option.some.inj hc
    exact hd

-- The same for the text of several words.
theorem head?_textOf {words : List Word} (h : ∀ word ∈ words, word.tag.Shape word.text) :
    (textOf words).head? = words.head?.bind fun word => word.text.head? := by
  cases words with
  | nil => rfl
  | cons word words =>
    obtain ⟨c, text, htext⟩ := List.exists_cons_of_ne_nil (h word List.mem_cons_self).ne_nil
    simp [htext]

theorem textOf_ne_nil {words : List Word} (h : ∀ word ∈ words, word.tag.Shape word.text) (hne : words ≠ []) :
    textOf words ≠ [] := by
  obtain ⟨word, words, rfl⟩ := List.exists_cons_of_ne_nil hne
  rw [textOf_cons]
  exact List.append_ne_nil_of_left_ne_nil (h word List.mem_cons_self).ne_nil _

theorem shape_narrowAll {words : List Word} (h : ∀ word ∈ words, word.tag.Shape word.text) :
    ∀ word ∈ narrowAll words, word.tag.Shape word.text := by
  intro word hword
  obtain ⟨wide, hwide, rfl⟩ := List.mem_map.mp hword
  exact shape_narrow (h wide hwide)

theorem head?_textOf_narrowAll {words : List Word} (h : ∀ word ∈ words, word.tag.Shape word.text)
    (hblank : ∀ c ∈ (textOf words).head?, isBlank c = false) :
    (textOf (narrowAll words)).head? = (textOf words).head? := by
  rw [head?_textOf (shape_narrowAll h), head?_textOf h] at *
  cases words with
  | nil => rfl
  | cons word words => exact head?_narrow (h word List.mem_cons_self) hblank

theorem head?_textOf_narrowAll_of_named {words : List Word} (h : ∀ word ∈ words, word.tag.Shape word.text)
    (hname : ∀ c ∈ (textOf words).head?, isNameChar c = false) :
    ∀ c ∈ (textOf (narrowAll words)).head?, isNameChar c = false := by
  rw [head?_textOf h] at hname
  rw [head?_textOf (shape_narrowAll h)]
  cases words with
  | nil => simp
  | cons word words => exact head?_narrow_of_named (h word List.mem_cons_self) hname

theorem mem_of_mem_textOf_narrowAll {words : List Word} (h : ∀ word ∈ words, word.tag.Shape word.text) {c : Char}
    (hc : c ∈ textOf (narrowAll words)) : c ∈ textOf words ∨ c = ' ' := by
  obtain ⟨_, hnarrow, hc⟩ := List.mem_flatMap.mp hc
  obtain ⟨word, hword, rfl⟩ := List.mem_map.mp hnarrow
  refine (mem_of_mem_narrow (h word hword) hc).imp_left fun hmem => ?_
  exact List.mem_flatMap.mpr ⟨word, hword, hmem⟩

-- No token begins with an equals sign.
theorem head?_textOf_ne_equals {words : List Word} (h : ∀ word ∈ words, word.tag.Shape word.text) :
    (textOf words).head? ≠ some '=' := by
  rw [head?_textOf h]
  cases words with
  | nil => simp
  | cons word words =>
    intro hequals
    exact (Tag.of_opens ((h word List.mem_cons_self).opens '=' hequals)).2.2.1 rfl

theorem unescaped_narrowAll {words : List Word} (h : ∀ word ∈ words, word.tag.Shape word.text)
    (hun : (textOf words).Unescaped) : (textOf (narrowAll words)).Unescaped := by
  induction words with
  | nil => exact unescaped_nil
  | cons word words ih =>
    obtain ⟨hword, hwords⟩ := List.forall_mem_cons.mp h
    rw [textOf_cons] at hun
    have hrest := ih hwords hun.of_append_right
    rw [narrowAll_cons, textOf_cons]
    cases hdelimits : word.tag.delimits with
    | true =>
      obtain ⟨c, hnarrow, hopens, _⟩ := narrow_of_delimits hdelimits hword
      have hc : c ≠ '\\' := by
        rintro rfl
        revert hopens
        cases word.tag <;> decide
      rw [hnarrow]
      exact .cons hc hrest
    | false =>
      rw [narrow_eq_self hdelimits]
      refine hun.append_congr hrest fun hnil => ?_
      cases words with
      | nil => rfl
      | cons next words => exact absurd (List.append_eq_nil_iff.mp hnil).1 (hwords next List.mem_cons_self).ne_nil

end Word

end CssSelectors
