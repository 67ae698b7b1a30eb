import CssSelectors.Masked
import CssSelectors.Proofs.Text.Sweeping
import CssSelectors.Proofs.Text.Unescaped

namespace CssSelectors

def isCover (c : Char) : Bool := c ∈ [Cover.escape.char, Cover.string.char, Cover.group.char]

def isQuote (c : Char) : Bool := c ∈ ['\x22', '\x27']

-- Two neighbours in a masked text that no token parts: both are covers, the first one opens a
-- string or a group, or the second one closes it.
def Tied (a b : Char) : Prop :=
  (isCover a = true ∧ isCover b = true) ∨ a = '(' ∨ isQuote a = true ∨ b = ')' ∨ isQuote b = true

-- Two texts whose neighbouring ends are tied.
def TiedAt (u v : Text) : Prop := ∃ a ∈ u.getLast?, ∃ b ∈ v.head?, Tied a b

theorem isCover_char (cover : Cover) : isCover cover.char = true := by
  cases cover <;> decide

theorem isCover_iff {c : Char} : isCover c = true ↔ c = '\ue000' ∨ c = '\ue001' ∨ c = '\ue002' := by
  simp [isCover, Cover.char]

theorem isQuote_iff {c : Char} : isQuote c = true ↔ c = '\x22' ∨ c = '\x27' := by
  simp [isQuote]

theorem isCover_of_isQuote {c : Char} (h : isQuote c = true) : isCover c = false := by
  rcases isQuote_iff.mp h with rfl | rfl
  · rfl
  · rfl

theorem ne_of_isQuote {c : Char} (h : isQuote c = true) : c ≠ '\n' ∧ c ≠ '\\' ∧ c ≠ '(' ∧ c ≠ ')' := by
  rcases isQuote_iff.mp h with rfl | rfl <;> decide

namespace Swept

-- What stands in place of a part after a sweep that hides.
def shown : Swept (Option Text) → Text
  | taken (some cover) _ => cover
  | part => part.source

-- A part that is hidden by a stretch of the same length, which no token divides.
structure Fits (part : Swept (Option Text)) : Prop where
  source_ne_nil : part.source ≠ []
  length_shown : part.shown.length = part.source.length
  tied : ∀ u v, part.shown = u ++ v → u ≠ [] → v ≠ [] → TiedAt u v

-- A part whose ends stay in sight.
structure KeepsEnds (part : Swept (Option Text)) : Prop where
  head : part.shown.head? = part.source.head?
  last : part.shown.getLast? = part.source.getLast?

theorem fits_loose (c : Char) : Fits (loose c) where
  source_ne_nil := by simp [source]
  length_shown := rfl
  tied u v h hu hv := by
    have hlength := congrArg List.length h
    have hu := List.length_pos_iff.mpr hu
    have hv := List.length_pos_iff.mpr hv
    simp only [shown, source, List.length_singleton, List.length_append] at hlength
    omega

theorem keepsEnds_loose (c : Char) : KeepsEnds (loose c) := ⟨rfl, rfl⟩

end Swept

namespace Masked

theorem shown_eq_flatMap (parts : Hidden) : shown parts = parts.flatMap Swept.shown := by
  unfold shown
  congr 1

@[simp] theorem shown_nil : shown [] = [] := rfl

@[simp] theorem shown_append (P Q : Hidden) : shown (P ++ Q) = shown P ++ shown Q := by
  simp [shown_eq_flatMap]

theorem shown_cons (part : Swept (Option Text)) (parts : Hidden) :
    shown (part :: parts) = part.shown ++ shown parts := by
  simp [shown_eq_flatMap]

-- Between the two characters around it, a stretch of covers is tied throughout.
theorem tied_inside {opening closing : Char} {cover : Cover} {n : Nat} {u v : Text}
    (hopening : opening = '(' ∨ isQuote opening = true) (hclosing : closing = ')' ∨ isQuote closing = true)
    (h : opening :: List.replicate n cover.char ++ [closing] = u ++ v) (hu : u ≠ []) (hv : v ≠ []) :
    TiedAt u v := by
  obtain ⟨v, b, rfl⟩ := (List.eq_nil_or_concat v).resolve_left hv
  rw [List.concat_eq_append] at h ⊢
  rw [← List.append_assoc] at h
  obtain ⟨hfront, hb⟩ := List.append_inj' h rfl
  obtain rfl : closing = b := by simpa using hb
  obtain ⟨a, u, rfl⟩ := List.exists_cons_of_ne_nil hu
  rw [List.cons_append] at hfront
  obtain ⟨rfl, hcovers⟩ := List.cons.inj hfront
  have hcover : ∀ c ∈ u ++ v, isCover c = true := by
    intro c hc
    rw [← hcovers] at hc
    rw [List.eq_of_mem_replicate hc]
    exact isCover_char cover
  obtain ⟨d, hd⟩ : ∃ d, (v ++ [closing]).head? = some d := by cases v <;> simp
  refine ⟨(opening :: u).getLast (by simp), List.getLast?_eq_some_getLast _, d, hd, ?_⟩
  have hfirst : (opening :: u).getLast (by simp) = opening ∨ isCover ((opening :: u).getLast (by simp)) = true := by
    rcases List.mem_cons.mp (List.getLast_mem (l := opening :: u) (by simp)) with h | h
    · exact .inl h
    · exact .inr (hcover _ (List.mem_append_left _ h))
  have hsecond : d = closing ∨ isCover d = true := by
    cases v with
    | nil => simp_all
    | cons c v =>
      obtain rfl : c = d := by simpa using hd
      exact .inr (hcover _ (by simp))
  rcases hfirst with hfirst | hfirst
  · rw [hfirst]
    exact .inr (hopening.imp_right .inl)
  · rcases hsecond with rfl | hsecond
    · exact .inr (.inr (.inr hclosing))
    · exact .inl ⟨hfirst, hsecond⟩

theorem stringBody?_eq_some {quote : Char} {rest body : Text} (h : stringBody? quote rest = some body) :
    (∃ more, rest = body ++ quote :: more) ∧ quote ∉ body ∧ '\n' ∉ body ∧ '\\' ∉ body := by
  induction rest generalizing body with
  | nil => simp [stringBody?] at h
  | cons c rest ih =>
    rw [stringBody?] at h
    split at h
    case isTrue hc =>
      obtain rfl : [] = body := by simpa using h
      exact ⟨⟨rest, by simp [hc]⟩, by simp⟩
    case isFalse hc =>
      split at h
      case isTrue => simp at h
      case isFalse hother =>
        obtain ⟨tail, htail, rfl⟩ := Option.map_eq_some_iff.mp h
        obtain ⟨⟨more, rfl⟩, hquote, hline, hslash⟩ := ih htail
        simp only [Bool.or_eq_true, decide_eq_true_eq, not_or] at hother
        refine ⟨⟨more, rfl⟩, ?_, ?_, ?_⟩ <;> simp_all [eq_comm]

-- What a character does to the number of further parens that are open. The last closing paren ends them all.
inductive Shifts : Nat → Char → Nat → Prop
  | opening (depth : Nat) : Shifts depth '(' (depth + 1)
  | closing (depth : Nat) : Shifts (depth + 1) ')' depth
  | other (depth : Nat) {c : Char} (hopen : c ≠ '(') (hclose : c ≠ ')') : Shifts depth c depth

theorem shifts_or_last (depth : Nat) (c : Char) : (∃ next, Shifts depth c next) ∨ depth = 0 ∧ c = ')' := by
  by_cases hopen : c = '('
  · subst hopen
    exact .inl ⟨depth + 1, .opening depth⟩
  by_cases hclose : c = ')'
  · subst hclose
    cases depth with
    | zero => exact .inr ⟨rfl, rfl⟩
    | succ depth => exact .inl ⟨depth, .closing depth⟩
  · exact .inl ⟨depth, .other depth hopen hclose⟩

-- The same holds with more parens open around.
theorem Shifts.add {depth next : Nat} {c : Char} (h : Shifts depth c next) (outer : Nat) :
    Shifts (depth + outer) c (next + outer) := by
  cases h with
  | opening =>
    rw [Nat.add_right_comm]
    exact .opening _
  | closing =>
    rw [Nat.add_right_comm]
    exact .closing _
  | other _ hopen hclose => exact .other _ hopen hclose

theorem Shifts.groupBody?_cons {depth next : Nat} {c : Char} (h : Shifts depth c next) (rest : Text) :
    groupBody? depth (c :: rest) = (groupBody? next rest).map (c :: ·) := by
  cases h with
  | opening => simp [groupBody?]
  | closing => simp [groupBody?]
  | other _ hopen hclose => simp [groupBody?, hopen, hclose]

theorem groupBody?_last (rest : Text) : groupBody? 0 (')' :: rest) = some [] := by
  simp [groupBody?]

theorem groupBody?_eq_some {depth : Nat} {rest body : Text} (h : groupBody? depth rest = some body) :
    (∃ more, rest = body ++ ')' :: more) ∧ ∀ more, groupBody? depth (body ++ ')' :: more) = some body := by
  induction rest generalizing depth body with
  | nil => simp [groupBody?] at h
  | cons c rest ih =>
    rcases shifts_or_last depth c with ⟨next, hshifts⟩ | ⟨rfl, rfl⟩
    · rw [hshifts.groupBody?_cons] at h
      obtain ⟨tail, htail, rfl⟩ := Option.map_eq_some_iff.mp h
      obtain ⟨⟨more, rfl⟩, hagain⟩ := ih htail
      refine ⟨⟨more, rfl⟩, fun more => ?_⟩
      rw [List.cons_append, hshifts.groupBody?_cons, hagain, Option.map_some]
    · rw [groupBody?_last] at h
      obtain rfl := Option.some.inj h
      exact ⟨⟨rest, rfl⟩, groupBody?_last⟩

end Masked

end CssSelectors
