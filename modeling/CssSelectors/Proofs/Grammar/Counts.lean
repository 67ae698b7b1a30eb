import CssSelectors.Argument
import CssSelectors.Proofs.Grammar.Names
import CssSelectors.Proofs.Pattern.Spans
import CssSelectors.Proofs.Text.Trimming

namespace CssSelectors

open Unicode Pattern Text

namespace Unicode

-- No digit is blank.
theorem isDigit_of_isBlank {c : Char} (h : isBlank c = true) : isDigit c = false := by
  obtain ⟨blank, hblank, hlow, hhigh⟩ := exists_mem_of_inRanges h
  rw [Bool.eq_false_iff]
  intro hdigit
  unfold isDigit at hdigit
  split at hdigit
  case isTrue =>
    have hapart : ∀ r ∈ blankRanges, r.2 < 0x30 ∨ 0x39 < r.1 := by decide
    have hbounds : 0x30 ≤ c.toNat ∧ c.toNat ≤ 0x39 := by
      simpa [Char.isDigit, UInt32.le_iff_toNat_le] using hdigit
    have := hapart blank hblank
    omega
  case isFalse =>
    obtain ⟨digit, hmem, hlow', hhigh'⟩ := exists_mem_of_inRanges hdigit
    have hapart : ∀ r ∈ blankRanges, ∀ s ∈ digitRanges, r.2 < s.1 ∨ s.2 < r.1 := by decide
    have := hapart blank hblank digit hmem
    omega

end Unicode

-- A letter that is read in either case.
theorem Unicode.eq_of_toLower_eq {c lower : Char} (upper : Char) (hcase : upper.toNat + 32 = lower.toNat)
    (h : c.toLower = lower) : c = lower ∨ c = upper := by
  unfold Char.toLower at h
  split at h
  case isTrue hupper =>
    right
    have hval := congrArg Char.toNat h
    have hle : c.val.toNat ≤ 90 := UInt32.le_iff_toNat_le.mp hupper.2
    have hshift : ('a'.val - 'A'.val).toNat = 32 := rfl
    rw [← hcase] at hval
    simp only [Char.toNat, UInt32.toNat_add] at hval
    exact Char.ext (UInt32.toNat_inj.mp (by omega))
  case isFalse => exact .inl h

namespace Grammar

-- The characters of a count that is not written as a word.
def isCountChar (c : Char) : Bool := c ∈ ['-', '+', 'n', 'N'] || isDigit c || isBlank c

-- Texts that write a count: one of two words, or a form such as "2n + 1", of which only the
-- characters and the two ends are looked at.
def IsCount (index : Text) : Prop :=
  index = "even".toList ∨ index = "odd".toList ∨
    (∀ c ∈ index, c ∈ ['-', '+', 'n'] ∨ isDigit c = true ∨ isBlank c = true) ∧
      (∀ c ∈ index.head?, isBlank c = false) ∧ ∃ c ∈ index.getLast?, c = 'n' ∨ isDigit c = true

theorem isCountChar_eq_false {c : Char} (h : c.toLower = 'e' ∨ c.toLower = 'o') : isCountChar c = false := by
  rcases h with h | h
  · rcases eq_of_toLower_eq 'E' rfl h with rfl | rfl <;> decide
  · rcases eq_of_toLower_eq 'O' rfl h with rfl | rfl <;> decide

theorem isBlank_eq_false {c : Char} (h : c.toLower = 'e' ∨ c.toLower = 'o') : isBlank c = false := by
  have hcount := isCountChar_eq_false h
  simp only [isCountChar, Bool.or_eq_false_iff] at hcount
  exact hcount.2

theorem matches_letter {c : Char} {text : Text} : (letter c).Matches text ↔ ∃ d, d.toLower = c ∧ text = [d] := by
  simp [letter]

-- What the pattern of a count says about a text.
theorem matches_count {index : Text} : count.Matches index ↔
    (∃ a b c d, a.toLower = 'e' ∧ b.toLower = 'v' ∧ c.toLower = 'e' ∧ d.toLower = 'n' ∧ index = [a, b, c, d]) ∨
    (∃ a b c, a.toLower = 'o' ∧ b.toLower = 'd' ∧ c.toLower = 'd' ∧ index = [a, b, c]) ∨
    ∃ front last, (∀ c ∈ front, isCountChar c = true) ∧ (last ∈ ['n', 'N'] ∨ isDigit last = true) ∧
      index = front ++ [last] := by
  rw [count, matches_orElse, matches_orElse]
  refine or_congr ?_ (or_congr ?_ ?_)
  · simp only [matches_append, matches_letter]
    constructor
    · rintro ⟨_, _, rfl, ⟨_, _, rfl, ⟨_, _, rfl, ⟨a, ha, rfl⟩, b, hb, rfl⟩, c, hc, rfl⟩, d, hd, rfl⟩
      exact ⟨a, b, c, d, ha, hb, hc, hd, rfl⟩
    · rintro ⟨a, b, c, d, ha, hb, hc, hd, rfl⟩
      exact ⟨[a, b, c], [d], rfl, ⟨[a, b], [c], rfl, ⟨[a], [b], rfl, ⟨a, ha, rfl⟩, b, hb, rfl⟩, c, hc, rfl⟩, d, hd, rfl⟩
  · simp only [matches_append, matches_letter]
    constructor
    · rintro ⟨_, _, rfl, ⟨_, _, rfl, ⟨a, ha, rfl⟩, b, hb, rfl⟩, c, hc, rfl⟩
      exact ⟨a, b, c, ha, hb, hc, rfl⟩
    · rintro ⟨a, b, c, ha, hb, hc, rfl⟩
      exact ⟨[a, b], [c], rfl, ⟨[a], [b], rfl, ⟨a, ha, rfl⟩, b, hb, rfl⟩, c, hc, rfl⟩
  · simp only [matches_append, matches_many_char, matches_char]
    constructor
    · rintro ⟨front, _, rfl, hfront, last, hlast, rfl⟩
      exact ⟨front, last, hfront, by simpa using hlast, rfl⟩
    · rintro ⟨front, last, hfront, hlast, rfl⟩
      exact ⟨front, [last], rfl, hfront, last, by simpa using hlast, rfl⟩

theorem isCountChar_of_last {c : Char} (h : c ∈ ['n', 'N'] ∨ isDigit c = true) : isCountChar c = true := by
  rcases h with h | h
  · simp only [List.mem_cons, List.not_mem_nil, or_false] at h
    rcases h with rfl | rfl <;> decide
  · simp [isCountChar, h]

theorem isBlank_of_last {c : Char} (h : c ∈ ['n', 'N'] ∨ isDigit c = true) : isBlank c = false := by
  rw [Bool.eq_false_iff]
  intro hblank
  rcases h with h | h
  · simp only [List.mem_cons, List.not_mem_nil, or_false] at h
    rcases h with rfl | rfl <;> revert hblank <;> decide
  · simp [isDigit_of_isBlank hblank] at h

theorem IsCount.matches {index : Text} (h : IsCount index) : count.Matches index := by
  rw [matches_count]
  rcases h with rfl | rfl | ⟨hall, _, last, hlast, hend⟩
  · exact .inl ⟨'e', 'v', 'e', 'n', by decide, by decide, by decide, by decide, rfl⟩
  · exact .inr (.inl ⟨'o', 'd', 'd', by decide, by decide, by decide, rfl⟩)
  · refine .inr (.inr ⟨index.dropLast, last, fun c hc => ?_, ?_, (List.dropLast_append_getLast? last hlast).symm⟩)
    · rcases hall c (List.dropLast_subset index hc) with hc | hc | hc
      · simp only [List.mem_cons, List.not_mem_nil, or_false] at hc
        rcases hc with rfl | rfl | rfl <;> decide
      · simp [isCountChar, hc]
      · simp [isCountChar, hc]
    · exact hend.imp_left fun hn => by simp [hn]

theorem IsCount.exists_cons {index : Text} (h : IsCount index) : ∃ c more, index = c :: more ∧ isBlank c = false := by
  rcases h with rfl | rfl | ⟨_, hhead, last, hlast, _⟩
  · exact ⟨'e', _, rfl, by decide⟩
  · exact ⟨'o', _, rfl, by decide⟩
  · cases index with
    | nil => simp at hlast
    | cons c more => exact ⟨c, more, rfl, hhead c rfl⟩

-- A count is a word, which its first letter tells the length of, or a run that ends with no blank.
private def IsWord (index : Text) : Prop :=
  ∃ c more, index = c :: more ∧ (c.toLower = 'e' ∧ more.length = 3 ∨ c.toLower = 'o' ∧ more.length = 2)

private def IsRunOfCount (index : Text) : Prop :=
  (∀ c ∈ index, isCountChar c = true) ∧ ∃ front last, index = front ++ [last] ∧ isBlank last = false

private theorem isWord_or_isRunOfCount {index : Text} (h : count.Matches index) : IsWord index ∨ IsRunOfCount index := by
  rcases matches_count.mp h with ⟨a, b, c, d, ha, _, _, _, rfl⟩ | ⟨a, b, c, ha, _, _, rfl⟩ | ⟨front, last, hfront, hlast, rfl⟩
  · exact .inl ⟨a, [b, c, d], rfl, .inl ⟨ha, rfl⟩⟩
  · exact .inl ⟨a, [b, c], rfl, .inr ⟨ha, rfl⟩⟩
  · refine .inr ⟨?_, front, last, rfl, isBlank_of_last hlast⟩
    simp only [List.forall_mem_append, List.forall_mem_singleton]
    exact ⟨hfront, isCountChar_of_last hlast⟩

private theorem not_isRunOfCount_of_isWord {index index' z z' : Text} (h : IsWord index) (heq : index ++ z = index' ++ z') :
    ¬IsRunOfCount index' := by
  rintro ⟨hall, front, last, hfront, _⟩
  obtain ⟨c, more, rfl, hword⟩ := h
  have hc : isCountChar c = false := isCountChar_eq_false (hword.imp And.left And.left)
  cases index' with
  | nil => simp at hfront
  | cons d index' =>
    obtain ⟨rfl, _⟩ := List.cons.inj heq
    simp [hall c List.mem_cons_self] at hc

private theorem eq_of_isWord {index index' z z' : Text} (h : IsWord index) (h' : IsWord index')
    (heq : index ++ z = index' ++ z') : index = index' := by
  obtain ⟨c, more, rfl, hword⟩ := h
  obtain ⟨c', more', rfl, hword'⟩ := h'
  obtain ⟨rfl, _⟩ := List.cons.inj heq
  refine (List.append_inj heq ?_).1
  rcases hword with ⟨hc, hlength⟩ | ⟨hc, hlength⟩ <;> rcases hword' with ⟨hc', hlength'⟩ | ⟨hc', hlength'⟩ <;>
    simp_all

-- Without the blanks after it a run that ends with no blank is what is left.
private theorem eq_of_isRunOfCount {index index' gap gap' : Text} (h : IsRunOfCount index) (h' : IsRunOfCount index')
    (hgap : gap.IsBlank) (hgap' : gap'.IsBlank) (heq : index ++ gap = index' ++ gap') : index = index' := by
  have hstrip : ∀ {index gap : Text}, IsRunOfCount index → gap.IsBlank → (index ++ gap).rdropWhile isBlank = index := by
    rintro _ gap ⟨_, front, last, rfl, hlast⟩ hgap
    have hgap : ∀ c ∈ gap.reverse, isBlank c = true := fun c hc => hgap c (List.mem_reverse.mp hc)
    simp [List.rdropWhile, List.dropWhile_append_of_pos hgap, List.dropWhile_cons_of_neg, hlast]
  rw [← hstrip h hgap, heq, hstrip h' hgap']

-- Blanks and a letter after a count show where it ends.
theorem eq_of_matches_count {index index' gap gap' rest rest' : Text} {o o' : Char} (h : count.Matches index)
    (h' : count.Matches index') (hgap : gap.IsBlank) (hgap' : gap'.IsBlank) (ho : o.toLower = 'o') (ho' : o'.toLower = 'o')
    (heq : index ++ (gap ++ o :: rest) = index' ++ (gap' ++ o' :: rest')) :
    index = index' ∧ gap = gap' ∧ o :: rest = o' :: rest' := by
  have hindex : index = index' := by
    rcases isWord_or_isRunOfCount h with hword | hrun <;> rcases isWord_or_isRunOfCount h' with hword' | hrun'
    · exact eq_of_isWord hword hword' heq
    · exact absurd hrun' (not_isRunOfCount_of_isWord hword heq)
    · exact absurd hrun (not_isRunOfCount_of_isWord hword' heq.symm)
    · have hall : ∀ {index gap : Text}, IsRunOfCount index → gap.IsBlank → ∀ c ∈ index ++ gap, isCountChar c = true := by
        rintro index gap ⟨hall, _⟩ hgap c hc
        rcases List.mem_append.mp hc with hc | hc
        · exact hall c hc
        · simp [isCountChar, hgap c hc]
      rw [← List.append_assoc, ← List.append_assoc] at heq
      have hruns := (Text.append_inj_of_run (hall hrun hgap) (hall hrun' hgap') (isCountChar_eq_false (.inr ho))
        (isCountChar_eq_false (.inr ho')) heq).1
      exact eq_of_isRunOfCount hrun hrun' hgap hgap' hruns
  subst hindex
  exact ⟨rfl, Text.append_inj_of_run hgap hgap' (isBlank_eq_false (.inr ho)) (isBlank_eq_false (.inr ho'))
    (List.append_cancel_left heq)⟩

-- The parts of an argument with a count, and where its fields stand.
theorem exists_of_mem_countOf {argument : Text} {t : Cursor Field} (h : t ∈ countOf.outcomes (.start argument))
    (hend : t.rest = []) : ∃ (before index gap : Text) (o f : Char) (gap' selector after : Text),
      argument = before ++ (index ++ (gap ++ o :: f :: (gap' ++ (selector ++ after)))) ∧
      (before.IsBlank ∧ count.Matches index ∧ gap.IsBlank ∧ o.toLower = 'o' ∧ f.toLower = 'f' ∧ gap'.IsBlank ∧
        after.IsBlank) ∧
      (t.span? .index).map (·.of argument) = some index ∧ (t.span? .selector).map (·.of argument) = some selector := by
  have hrun : ∀ {appetite}, (oneOrMore appetite (.char isBlank) : Pattern Field).Fieldless := ⟨trivial, trivial⟩
  have hcount : count.Fieldless :=
    ⟨⟨⟨⟨trivial, trivial⟩, trivial⟩, trivial⟩, ⟨⟨trivial, trivial⟩, trivial⟩, trivial, trivial⟩
  obtain ⟨u₇, h, hafter⟩ := List.mem_flatMap.mp h
  obtain ⟨u₆, h, hselector⟩ := List.mem_flatMap.mp h
  obtain ⟨u₅, h, hgap'⟩ := List.mem_flatMap.mp h
  obtain ⟨u₄, h, hf⟩ := List.mem_flatMap.mp h
  obtain ⟨u₃, h, ho⟩ := List.mem_flatMap.mp h
  obtain ⟨u₂, h, hgap⟩ := List.mem_flatMap.mp h
  obtain ⟨u₁, hbefore, hindex⟩ := List.mem_flatMap.mp h
  obtain ⟨before, hbefore, hbeforeblank, rfl⟩ := Fieldless.exists_skip (p := blanks) trivial hbefore
  obtain ⟨index, hindex, hmatches, rfl⟩ := exists_note_of_mem_field hcount hindex
  obtain ⟨gap, hgap, hgapblank, rfl⟩ := hrun.exists_skip hgap
  obtain ⟨_, ho, ⟨o, holetter, rfl⟩, rfl⟩ := Fieldless.exists_skip (p := letter 'o') trivial ho
  obtain ⟨_, hf, ⟨f, hfletter, rfl⟩, rfl⟩ := Fieldless.exists_skip (p := letter 'f') trivial hf
  obtain ⟨gap', hgap', hgapblank', rfl⟩ := hrun.exists_skip hgap'
  obtain ⟨selector, hselector, _, rfl⟩ := exists_note_of_mem_field
    (by exact ⟨trivial, trivial⟩) hselector
  obtain ⟨after, hafter, hafterblank, rfl⟩ := Fieldless.exists_skip (p := blanks) trivial hafter
  have hargument : argument = before ++ (index ++ (gap ++ o :: f :: (gap' ++ (selector ++ after)))) := by
    refine hbefore.trans ?_
    rw [hindex, hgap, ho, hf, hgap', hselector, hafter, hend]
    simp
  refine ⟨before, index, gap, o, f, gap', selector, after, hargument, ⟨?_, hmatches, ?_, ?_, ?_, ?_, ?_⟩, ?_, ?_⟩
  · exact matches_many_char.mp hbeforeblank
  · exact (matches_oneOrMore_char.mp hgapblank).2
  · simpa using holetter
  · simpa using hfletter
  · exact (matches_oneOrMore_char.mp hgapblank').2
  · exact matches_many_char.mp hafterblank
  · have hspan := Span.of_append before index (gap ++ o :: f :: (gap' ++ (selector ++ after)))
    rw [List.append_assoc, ← hargument] at hspan
    simp [Cursor.span?_note_of_ne, Cursor.start, hspan]
  · let front : Text := before ++ (index ++ (gap ++ o :: f :: gap'))
    have hspan := Span.of_append front selector after
    have hfront : front ++ selector ++ after = argument := by simp [front, hargument]
    rw [hfront] at hspan
    have hlength : front.length = before.length + index.length + gap.length + 1 + 1 + gap'.length := by
      simp [front]
      omega
    rw [hlength] at hspan
    simpa [Cursor.start, Nat.add_assoc] using hspan

end Grammar

-- A whole match holds both the count and the selector.
theorem splitCount?_isSome_iff {argument : Text} :
    (splitCount? argument).isSome = true ↔ Grammar.countOf.Matches argument := by
  rw [← whole?_isSome_iff]
  cases hwhole : Grammar.countOf.whole? argument with
  | none => simp [splitCount?, hwhole]
  | some reached =>
    rw [whole?_eq_find?] at hwhole
    have hmem := List.mem_of_find?_eq_some hwhole
    have hindex : Seen Field.index reached := by
      refine seen_of_mem_append_left ?_ hmem
      iterate 5 refine fun s t => seen_of_mem_append_left ?_
      exact fun s t => seen_of_mem_append_right fun s t => seen_of_mem_field
    have hselector : Seen Field.selector reached :=
      seen_of_mem_append_left (fun s t => seen_of_mem_append_right fun s t => seen_of_mem_field) hmem
    obtain ⟨index, hindex⟩ := Option.isSome_iff_exists.mp hindex.span?_isSome
    obtain ⟨selector, hselector⟩ := Option.isSome_iff_exists.mp hselector.span?_isSome
    rw [← whole?_eq_find?] at hwhole
    simp [splitCount?, hwhole, hindex, hselector]

-- The parts of an argument that is split into a count and a selector.
theorem exists_of_splitCount? {argument index selector : Text} (h : splitCount? argument = some (index, selector)) :
    ∃ (before gap : Text) (o f : Char) (gap' after : Text),
      argument = before ++ (index ++ (gap ++ o :: f :: (gap' ++ (selector ++ after)))) ∧
      before.IsBlank ∧ Grammar.count.Matches index ∧ gap.IsBlank ∧ o.toLower = 'o' ∧ f.toLower = 'f' ∧
        gap'.IsBlank ∧ after.IsBlank := by
  obtain ⟨t, hwhole, h⟩ := Option.bind_eq_some_iff.mp h
  obtain ⟨indexspan, hindexspan, h⟩ := Option.bind_eq_some_iff.mp h
  obtain ⟨selectorspan, hselectorspan, h⟩ := Option.bind_eq_some_iff.mp h
  obtain ⟨rfl, rfl⟩ := Prod.mk.inj (Option.some.inj h)
  rw [whole?_eq_find?] at hwhole
  obtain ⟨before, index, gap, o, f, gap', selector, after, hsplit, hparts, hindex, hselector⟩ :=
    Grammar.exists_of_mem_countOf (List.mem_of_find?_eq_some hwhole)
      (List.isEmpty_iff.mp (by simpa using List.find?_some hwhole))
  rw [hindexspan] at hindex
  rw [hselectorspan] at hselector
  obtain rfl := Option.some.inj hindex
  obtain rfl := Option.some.inj hselector
  exact ⟨before, gap, o, f, gap', after, hsplit, hparts⟩

-- An argument made of a count, the word "of" and a selector is split there and nowhere else. The
-- selector comes without the blanks around it.
theorem splitCount?_of_count {index text : Text} (hindex : Grammar.IsCount index) (htext : text.trim ≠ []) :
    ∃ selector, splitCount? (index ++ " of ".toList ++ text) = some (index, selector) ∧
      Text.trim selector = text.trim := by
  have hmatches : Grammar.countOf.Matches (index ++ " of ".toList ++ text) := by
    have hne : text ≠ [] := by
      rintro rfl
      exact htext rfl
    have hblank : (oneOrMore .greedy (.char isBlank) : Pattern Field).Matches [' '] :=
      matches_oneOrMore_char.mpr ⟨by simp, List.forall_mem_singleton.mpr rfl⟩
    refine ⟨_, [], (List.append_nil _).symm, ⟨_, text, rfl, ⟨index ++ [' ', 'o', 'f'], [' '], by simp,
      ⟨index ++ [' ', 'o'], ['f'], by simp, ⟨index ++ [' '], ['o'], by simp, ⟨index, [' '], rfl,
      ⟨[], index, rfl, ?_, hindex.matches⟩, hblank⟩, ?_⟩, ?_⟩, hblank⟩, ?_⟩, ?_⟩
    · exact matches_many_char.mpr (by simp)
    · exact Grammar.matches_letter.mpr ⟨'o', by decide, rfl⟩
    · exact Grammar.matches_letter.mpr ⟨'f', by decide, rfl⟩
    · exact matches_oneOrMore_char.mpr ⟨hne, fun _ _ => rfl⟩
    · exact matches_many_char.mpr (by simp)
  obtain ⟨⟨index', selector⟩, hsplitted⟩ := Option.isSome_iff_exists.mp (splitCount?_isSome_iff.mpr hmatches)
  obtain ⟨before, gap, o, f, gap', after, hsplit, hbefore, hcount, hgap, ho, -, hgap', hafter⟩ :=
    exists_of_splitCount? hsplitted
  have hnil : before = [] := by
    obtain ⟨c, more, rfl, hc⟩ := hindex.exists_cons
    cases before with
    | nil => rfl
    | cons b before =>
      obtain ⟨rfl, _⟩ := List.cons.inj hsplit
      simp [hbefore c List.mem_cons_self] at hc
  subst hnil
  have hspace : IsBlank [' '] := by simp [IsBlank]; decide
  have heq : index ++ ([' '] ++ 'o' :: ('f' :: ' ' :: text)) = index' ++ (gap ++ o :: f :: (gap' ++ (selector ++ after))) := by
    simpa using hsplit
  obtain ⟨rfl, rfl, hrest⟩ :=
    Grammar.eq_of_matches_count hindex.matches hcount hspace hgap (by decide) ho heq
  have hselector : ' ' :: text = gap' ++ (selector ++ after) := (List.cons.inj (List.cons.inj hrest).2).2
  refine ⟨selector, hsplitted, ?_⟩
  calc Text.trim selector = Text.trim (gap' ++ (selector ++ after)) := by
        rw [trim_append_left hgap', trim_append_right selector hafter]
    _ = Text.trim ([' '] ++ text) := by rw [← hselector, List.singleton_append]
    _ = text.trim := trim_append_left hspace text

-- The selector in an argument is a stretch of it.
theorem infix_of_selectorIn? {name argument text : Text} {count : Option Text}
    (h : selectorIn? name argument = some (count, text)) : text <:+: argument := by
  rw [selectorIn?] at h
  split at h
  case isTrue =>
    obtain ⟨⟨index, selector⟩, hsplit, heq⟩ := Option.map_eq_some_iff.mp h
    obtain rfl := (Prod.mk.inj heq).2
    obtain ⟨before, gap, o, f, gap', after, rfl, -⟩ := exists_of_splitCount? hsplit
    exact ⟨before ++ (index ++ (gap ++ o :: f :: gap')), after, by simp⟩
  case isFalse =>
    split at h
    case isTrue =>
      obtain rfl := (Prod.mk.inj (Option.some.inj h)).2
      exact List.infix_rfl
    case isFalse => cases h

end CssSelectors
