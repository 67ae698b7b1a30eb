import CssSelectors.Proofs.Masking.Visible

namespace CssSelectors

open Text

-- A text that may follow in place of another: it is empty if that one is, and it brings no quotes.
structure Follows (V W : Text) : Prop where
  nil : V = [] → W = []
  quote : ∀ c, isQuote c = true → c ∈ W → c ∈ V

namespace Masked

variable {M : Hidden} {V W : Text}

-- Escapes are found again before another text, if no backslash that was left alone gets a character to escape.
theorem sweep_escapeAt_congr_of_open
    (hopen : ∀ before after, M = before ++ .loose '\\' :: after → after.flatMap Swept.source ++ V = [] →
      after.flatMap Swept.source ++ W = [])
    (h : sweep escapeAt (M.flatMap Swept.source ++ V) = M ++ sweep escapeAt V) :
    sweep escapeAt (M.flatMap Swept.source ++ W) = M ++ sweep escapeAt W := by
  refine sweep_append_congr ?_ ?_ ?_ h
  · intro c rest item more hoffer
    obtain ⟨_, hne, _, rfl⟩ := escapeAt_eq_some.mp hoffer
    exact List.length_pos_iff.mpr hne
  · intro before c after hsplit hoffer
    rw [escapeAt_eq_none] at hoffer ⊢
    rintro rfl
    exact hopen before after hsplit (hoffer rfl)
  · intro c rest item more hle hoffer
    obtain ⟨hc, _, hitem, rfl⟩ := escapeAt_eq_some.mp hoffer
    have hpos : rest ≠ [] := List.length_pos_iff.mp hle
    exact escapeAt_eq_some.mpr ⟨hc, List.append_ne_nil_of_left_ne_nil hpos W, hitem, rfl⟩

theorem sweep_escapeAt_congr (hnil : V = [] → W = [])
    (h : sweep escapeAt (M.flatMap Swept.source ++ V) = M ++ sweep escapeAt V) :
    sweep escapeAt (M.flatMap Swept.source ++ W) = M ++ sweep escapeAt W := by
  refine sweep_escapeAt_congr_of_open (fun before after _ hempty => ?_) h
  obtain ⟨hafter, hV⟩ := List.append_eq_nil_iff.mp hempty
  rw [hafter, hnil hV, List.append_nil]

theorem stringBody?_append {quote : Char} {body : Text} (hquote : quote ∉ body) (hline : '\n' ∉ body)
    (hslash : '\\' ∉ body) (more : Text) : stringBody? quote (body ++ quote :: more) = some body := by
  induction body with
  | nil => simp [stringBody?]
  | cons c body ih =>
    simp only [List.mem_cons, not_or] at hquote hline hslash
    rw [List.cons_append, stringBody?, if_neg (Ne.symm hquote.1), if_neg, ih hquote.2 hline.2 hslash.2]
    · rfl
    · simp [Ne.symm hline.1, Ne.symm hslash.1]

-- A string is left open where a line ends or a backslash stands before every quote of its kind.
theorem stringBody?_eq_none_iff {quote : Char} {rest : Text} :
    stringBody? quote rest = none ↔ ∀ body more, rest = body ++ quote :: more → '\n' ∈ body ∨ '\\' ∈ body := by
  constructor
  · rintro h body more rfl
    induction body with
    | nil => simp [stringBody?] at h
    | cons c body ih =>
      rw [List.cons_append, stringBody?] at h
      split at h
      case isTrue => cases h
      case isFalse =>
        split at h
        case isTrue hc =>
          simp only [Bool.or_eq_true, decide_eq_true_eq] at hc
          rcases hc with rfl | rfl <;> simp
        case isFalse =>
          exact (ih (Option.map_eq_none_iff.mp h)).imp (List.mem_cons_of_mem c) (List.mem_cons_of_mem c)
  · intro h
    rw [Option.eq_none_iff_forall_ne_some]
    intro body hbody
    obtain ⟨⟨more, hrest⟩, _, hline, hslash⟩ := stringBody?_eq_some hbody
    exact (h body more hrest).elim hline hslash

-- On one line with no escape in sight a string is closed by the next quote of its kind.
theorem notMem_of_stringBody? {quote : Char} {rest : Text} (hun : rest.Unescaped)
    (hline : '\n' ∉ rest) (h : stringBody? quote rest = none) : quote ∉ rest := by
  intro hmem
  obtain ⟨body, more, rfl⟩ := List.append_of_mem hmem
  rcases stringBody?_eq_none_iff.mp h body more rfl with hfeed | hslash
  · exact hline (List.mem_append_left _ hfeed)
  · obtain ⟨before, after, rfl⟩ := List.append_of_mem hslash
    have hnil := hun before (after ++ quote :: more) (by simp)
    simp at hnil

theorem stringBody?_eq_none_of_notMem {quote : Char} {rest : Text} (h : quote ∉ rest) :
    stringBody? quote rest = none := by
  refine stringBody?_eq_none_iff.mpr ?_
  rintro body more rfl
  simp at h

-- On one line a quote that is left open stays open if what follows is replaced.
theorem stringBody?_eq_none_of_follows {quote : Char} {rest : Text} (hV : Follows V W)
    (hun : Text.Unescaped (rest ++ V)) (hline : '\n' ∉ rest ++ V) (hquote : isQuote quote = true)
    (h : stringBody? quote (rest ++ V) = none) : stringBody? quote (rest ++ W) = none := by
  have hnot := notMem_of_stringBody? hun hline h
  refine stringBody?_eq_none_of_notMem fun hmem => ?_
  rcases List.mem_append.mp hmem with hmem | hmem
  · exact hnot (List.mem_append_left _ hmem)
  · exact hnot (List.mem_append_right _ (hV.quote quote hquote hmem))

theorem stringBody?_eq_none_of_append {quote : Char} {rest V : Text} (h : stringBody? quote (rest ++ V) = none) :
    stringBody? quote rest = none := by
  refine stringBody?_eq_none_iff.mpr ?_
  rintro body more rfl
  exact stringBody?_eq_none_iff.mp h body (more ++ V) (by simp)

-- What is found in a text and what follows it, but ends in the text, is found in the text.
private theorem exists_of_append_eq {c : Char} {rest body after : Text} (h : rest ++ V = body ++ c :: after)
    (hle : body.length + 1 ≤ rest.length) : ∃ tail, rest = body ++ c :: tail := by
  rcases List.append_eq_append_iff.mp h with ⟨x, rfl, _⟩ | ⟨x, rfl, hx⟩
  · rw [List.length_append] at hle
    omega
  · cases x with
    | nil =>
      rw [List.append_nil] at hle
      omega
    | cons d x =>
      obtain ⟨rfl, _⟩ := List.cons.inj hx
      exact ⟨x, rfl⟩

-- Whatever stands before a text, a quote that the text leaves open stays open if another one does.
theorem stringBody?_append_congr {quote : Char} {rest : Text} (h : stringBody? quote (rest ++ V) = none)
    (hmore : '\n' ∉ rest → stringBody? quote V = none → stringBody? quote W = none) :
    stringBody? quote (rest ++ W) = none := by
  rw [stringBody?_eq_none_iff] at h ⊢
  intro body more hbody
  by_cases hle : body.length + 1 ≤ rest.length
  · obtain ⟨tail, rfl⟩ := exists_of_append_eq hbody hle
    exact h body (tail ++ V) (by simp)
  obtain ⟨x, rfl⟩ : rest <+: body :=
    List.prefix_of_prefix_length_le (List.prefix_append rest W) (hbody ▸ List.prefix_append body _) (by omega)
  by_cases hline : '\n' ∈ rest
  · exact .inl (List.mem_append_left x hline)
  by_cases hslash : '\\' ∈ rest
  · exact .inr (List.mem_append_left x hslash)
  have hV : stringBody? quote V = none := by
    refine stringBody?_eq_none_iff.mpr ?_
    rintro inner after rfl
    simpa [hline, hslash] using h (rest ++ inner) after (by simp)
  rw [List.append_assoc] at hbody
  exact (stringBody?_eq_none_iff.mp (hmore hline hV) x more (List.append_cancel_left hbody)).imp
    (List.mem_append_right rest) (List.mem_append_right rest)

-- A quote that a text does not close is closed by none that follows it, if there is no such quote.
theorem stringBody?_eq_none_append {quote : Char} {rest more : Text} (h : stringBody? quote rest = none)
    (hmore : quote ∉ more) : stringBody? quote (rest ++ more) = none := by
  rw [← List.append_nil rest] at h
  exact stringBody?_append_congr h fun _ _ => stringBody?_eq_none_of_notMem hmore

-- Strings are found again before another text, if no quote that was left alone is closed by it.
theorem sweep_stringAt_congr
    (hopen : ∀ before c after, M = before ++ .loose c :: after → isQuote c = true →
      stringBody? c (after.flatMap Swept.source ++ V) = none → stringBody? c (after.flatMap Swept.source ++ W) = none)
    (h : sweep stringAt (M.flatMap Swept.source ++ V) = M ++ sweep stringAt V) :
    sweep stringAt (M.flatMap Swept.source ++ W) = M ++ sweep stringAt W := by
  refine sweep_append_congr ?_ ?_ ?_ h
  · intro c rest item more hoffer
    obtain ⟨_, body, hbody, _, rfl⟩ := stringAt_eq_some.mp hoffer
    obtain ⟨⟨after, rfl⟩, _⟩ := stringBody?_eq_some hbody
    simp
  · intro before c after hsplit hoffer
    rw [stringAt_eq_none] at hoffer ⊢
    exact fun hquote => hopen before c after hsplit hquote (hoffer hquote)
  · intro c rest item more hle hoffer
    obtain ⟨hquote, body, hbody, hitem, rfl⟩ := stringAt_eq_some.mp hoffer
    obtain ⟨⟨after, hafter⟩, hnot, hline, hslash⟩ := stringBody?_eq_some hbody
    obtain ⟨tail, htail⟩ : ∃ tail, rest = body ++ c :: tail := exists_of_append_eq hafter hle
    refine stringAt_eq_some.mpr ⟨hquote, body, ?_, hitem, rfl⟩
    rw [htail, List.append_assoc]
    exact stringBody?_append hnot hline hslash (tail ++ W)

-- So are groups, if no paren that was left open is closed by it.
theorem sweep_groupAt_congr_of_open
    (hopen : ∀ before after, M = before ++ .loose '(' :: after → groupBody? 0 (after.flatMap Swept.source ++ V) = none →
      groupBody? 0 (after.flatMap Swept.source ++ W) = none)
    (h : sweep groupAt (M.flatMap Swept.source ++ V) = M ++ sweep groupAt V) :
    sweep groupAt (M.flatMap Swept.source ++ W) = M ++ sweep groupAt W := by
  refine sweep_append_congr ?_ ?_ ?_ h
  · intro c rest item more hoffer
    obtain ⟨_, body, hbody, _, rfl⟩ := groupAt_eq_some.mp hoffer
    obtain ⟨⟨after, rfl⟩, _⟩ := groupBody?_eq_some hbody
    simp
  · intro before c after hsplit hoffer
    rw [groupAt_eq_none] at hoffer ⊢
    rintro rfl
    exact hopen before after hsplit (hoffer rfl)
  · intro c rest item more hle hoffer
    obtain ⟨rfl, body, hbody, hitem, rfl⟩ := groupAt_eq_some.mp hoffer
    obtain ⟨⟨after, hafter⟩, hagain⟩ := groupBody?_eq_some hbody
    obtain ⟨tail, htail⟩ := exists_of_append_eq hafter hle
    refine groupAt_eq_some.mpr ⟨rfl, body, ?_, hitem, rfl⟩
    rw [htail, List.append_assoc]
    exact hagain (tail ++ W)

theorem sweep_groupAt_congr (hbalanced : ∀ c, .loose c ∈ M → c ≠ '(')
    (h : sweep groupAt (M.flatMap Swept.source ++ V) = M ++ sweep groupAt V) :
    sweep groupAt (M.flatMap Swept.source ++ W) = M ++ sweep groupAt W := by
  refine sweep_groupAt_congr_of_open (fun before after hsplit => ?_) h
  exact absurd rfl (hbalanced '(' (by simp [hsplit]))

end Masked

end CssSelectors
