import CssSelectors.Proofs.Grammar.Namespaces
import CssSelectors.Proofs.Grammar.Uncovering
import CssSelectors.Proofs.Masking.Joining

namespace CssSelectors

open Unicode Pattern Grammar Text Masked

namespace Grammar

theorem matches_nameUnit_iff {unit : Text} :
    nameUnit.Matches unit ↔ (∃ c, isNameChar c = true ∧ unit = [c]) ∨ ∃ c, c ≠ '\n' ∧ unit = ['\\', c] := by
  constructor
  · rintro (hchar | ⟨_, _, rfl, hslash, c, hc, rfl⟩)
    · exact .inl hchar
    · obtain rfl := matches_lit.mp hslash
      exact .inr ⟨c, by simpa using hc, rfl⟩
  · rintro (hchar | ⟨c, hc, rfl⟩)
    · exact .inl hchar
    · exact .inr ⟨['\\'], [c], rfl, matches_lit.mpr rfl, c, by simpa using hc, rfl⟩

-- One unit of a name is not the beginning of another.
theorem nameUnit_append_inj {u v x y : Text} (hu : nameUnit.Matches u) (hv : nameUnit.Matches v) (h : u ++ x = v ++ y) :
    u = v ∧ x = y := by
  have hslash : isNameChar '\\' = false := by decide
  rcases matches_nameUnit_iff.mp hu with ⟨c, hc, rfl⟩ | ⟨c, _, rfl⟩ <;>
    rcases matches_nameUnit_iff.mp hv with ⟨d, hd, rfl⟩ | ⟨d, _, rfl⟩
  · simpa using h
  · obtain ⟨rfl, _⟩ := List.cons.inj h
    simp [hslash] at hc
  · obtain ⟨rfl, _⟩ := List.cons.inj h
    simp [hslash] at hd
  · simpa using h

-- A text at which no further unit of a name stands.
def StopsName (rest : Text) : Prop := ∀ u v, rest = u ++ v → ¬nameUnit.Matches u

theorem stopsName_nil : StopsName [] := by
  intro u v huv
  obtain ⟨rfl, -⟩ := List.append_eq_nil_iff.mp huv.symm
  exact not_matches_nameUnit_nil

theorem stopsName_cons {c : Char} (hname : isNameChar c = false) (hslash : c ≠ '\\') (rest : Text) : StopsName (c :: rest) :=
  fun _ _ => not_matches_nameUnit hname hslash

-- A backslash without a character after it is part of no name.
theorem stopsName_backslash : StopsName ['\\'] := by
  intro u v huv hu
  rcases matches_nameUnit_iff.mp hu with ⟨c, hc, rfl⟩ | ⟨c, _, rfl⟩
  · obtain ⟨rfl, _⟩ := List.cons.inj huv
    revert hc
    decide
  · cases (List.cons.inj huv).2

-- So a text falls into units and what stops them in one way only.
theorem append_inj_of_units {us vs : List Text} {x y : Text} (hus : ∀ unit ∈ us, nameUnit.Matches unit)
    (hvs : ∀ unit ∈ vs, nameUnit.Matches unit) (hx : StopsName x) (hy : StopsName y)
    (h : us.flatten ++ x = vs.flatten ++ y) : us = vs ∧ x = y := by
  induction us generalizing vs with
  | nil =>
    cases vs with
    | nil => exact ⟨rfl, h⟩
    | cons v vs =>
      rw [List.flatten_nil, List.nil_append, List.flatten_cons, List.append_assoc] at h
      exact absurd (hvs v List.mem_cons_self) (hx v _ h)
  | cons u us ih =>
    obtain ⟨hu, hus⟩ := List.forall_mem_cons.mp hus
    rw [List.flatten_cons, List.append_assoc] at h
    cases vs with
    | nil => exact absurd hu (hy u _ h.symm)
    | cons v vs =>
      obtain ⟨hv, hmore⟩ := List.forall_mem_cons.mp hvs
      rw [List.flatten_cons, List.append_assoc] at h
      obtain ⟨rfl, hrest⟩ := nameUnit_append_inj hu hv h
      obtain ⟨rfl, rfl⟩ := ih hus hmore hrest
      exact ⟨rfl, rfl⟩

-- A bar that is taken for the end of a namespace stands right after the name before it.
theorem rest_of_mem_bar {n rest : Text} (hn : name.Matches n) (hstop : StopsName rest) {s t : Cursor Field}
    (hrest : s.rest = n ++ rest) (ht : t ∈ bar.outcomes s) : rest = '|' :: t.rest := by
  obtain ⟨unit, _, rfl, hunit, units, rfl, hunits⟩ := hn
  have hall := List.forall_mem_cons.mpr ⟨hunit, hunits⟩
  obtain ⟨ns, hns, hbar, -⟩ := exists_of_mem_bar ht
  have hsplit : (unit :: units).flatten ++ rest = ns ++ '|' :: t.rest := hrest.symm.trans hbar
  have hstopbar : StopsName ('|' :: t.rest) := stopsName_cons (by decide) (by decide) t.rest
  rcases hns with rfl | ⟨others, hothers, rfl⟩
  · rw [List.flatten_cons, List.append_assoc] at hsplit
    exact absurd hunit (stopsName_cons (by decide) (by decide) _ unit _ hsplit.symm)
  · exact (append_inj_of_units hall hothers hstop hstopbar hsplit).2

-- So a name is read without a namespace, unless a bar and another name follow.
theorem head?_outcomes_nsBar_name {n rest : Text} (hn : name.Matches n) (hstop : StopsName rest)
    (hbar : ∀ more, rest = '|' :: more → StopsName more) {s : Cursor Field} (hrest : s.rest = n ++ rest) :
    ((nsBar ++ name).outcomes s).head? = some ((s.skip n.length).note .name s.offset) := by
  have hnone : (bar ++ name).outcomes s = [] := by
    refine List.eq_nil_iff_forall_not_mem.mpr fun u hu => ?_
    obtain ⟨t, ht, hu⟩ := List.mem_flatMap.mp hu
    obtain ⟨units, hne, hunits, hnamed, -⟩ := exists_of_mem_name hu
    obtain ⟨unit, units, rfl⟩ := List.exists_cons_of_ne_nil hne
    rw [List.flatten_cons, List.append_assoc] at hnamed
    exact hbar _ (rest_of_mem_bar hn hstop hrest ht) unit _ hnamed (hunits unit List.mem_cons_self)
  have hsplit : (nsBar ++ name).outcomes s = (bar ++ name).outcomes s ++ name.outcomes s := by
    change (bar.outcomes s ++ [s]).flatMap name.outcomes = _
    rw [List.flatMap_append, List.flatMap_singleton]
    rfl
  rw [hsplit, hnone, List.nil_append, head?_outcomes_name_of_matches hn hstop hrest]

-- Where no paren opens there is no argument.
theorem head?_outcomes_parens_of_ne {s : Cursor Field} (hparen : s.rest.head? ≠ some '(') (argument : Pattern Field) :
    ((parens argument).outcomes s).head? = some s := by
  have hnone : (lit '(').outcomes s = [] := by
    refine List.eq_nil_iff_forall_not_mem.mpr fun t ht => hparen ?_
    rw [(exists_of_mem_lit ht).1]
    rfl
  rw [parens, perhaps, outcomes, outcomes_append, outcomes_append, hnone]
  rfl

-- Text that is made of name characters and of what backslashes let into a name is one.
theorem matches_name_of_madeOf {n : Text} (h : n.MadeOf (isNameChar · = true) (· ≠ '\n')) (hne : n ≠ []) : name.Matches n := by
  have hunits : ∃ units : List Text, (∀ unit ∈ units, nameUnit.Matches unit) ∧ n = units.flatten := by
    clear hne
    induction h with
    | nil => exact ⟨[], by simp, rfl⟩
    | @single c rest hc _ _ ih =>
      obtain ⟨units, hunits, rfl⟩ := ih
      have hunit : nameUnit.Matches [c] := matches_nameUnit_iff.mpr (.inl ⟨c, hc, rfl⟩)
      exact ⟨[c] :: units, List.forall_mem_cons.mpr ⟨hunit, hunits⟩, rfl⟩
    | @escape c rest hc _ ih =>
      obtain ⟨units, hunits, rfl⟩ := ih
      have hunit : nameUnit.Matches ['\\', c] := matches_nameUnit_iff.mpr (.inr ⟨c, hc, rfl⟩)
      exact ⟨['\\', c] :: units, List.forall_mem_cons.mpr ⟨hunit, hunits⟩, rfl⟩
  obtain ⟨units, hunits, rfl⟩ := hunits
  refine matches_name_of_units ?_ hunits
  rintro rfl
  exact hne rfl

-- A name in which anything but a line feed may be escaped, blanks too. What is not escaped is a name character and no blank.
def IsFreeName (text : Text) : Prop := text.MadeOf (fun c => isNameChar c = true ∧ isBlank c = false) (· ≠ '\n')

theorem IsFreeName.matches_name {n : Text} (h : IsFreeName n) (hne : n ≠ []) : name.Matches n :=
  matches_name_of_madeOf (h.mono (fun _ hc => hc.1) fun _ hc => hc) hne

theorem isFreeName_of_forall {run : Text} (h : ∀ c ∈ run, isNameChar c = true ∧ isBlank c = false) : IsFreeName run := by
  induction run with
  | nil => exact .nil
  | cons c run ih =>
    obtain ⟨hc, hrun⟩ := List.forall_mem_cons.mp h
    refine .single hc ?_ (ih hrun)
    rintro rfl
    revert hc
    decide

-- The name after what a token begins with is read as far as it goes.
theorem head?_outcomes_append_name {lead : Pattern Field} {u n rest : Text}
    (hlead : (lead.outcomes (.start (u ++ (n ++ rest)))).head? = some ⟨u.length, n ++ rest, []⟩) (hn : name.Matches n)
    (hstop : StopsName rest) : ((lead ++ name).outcomes (.start (u ++ (n ++ rest)))).head? =
      some ⟨u.length + n.length, rest, [(.name, ⟨u.length, u.length + n.length⟩)]⟩ := by
  rw [head?_append_of_head? hlead (head?_outcomes_name_of_matches hn hstop rfl)]
  simp [Cursor.note, Cursor.skip]

end Grammar

-- A span is what stands behind as much text as its start says.
theorem Span.of_eq {text after : Text} (before middle : Text) {start stop : Nat} (h : text = before ++ middle ++ after)
    (hstart : start = before.length) (hstop : stop = start + middle.length) : Span.of ⟨start, stop⟩ text = middle := by
  rw [h, hstop, hstart, Span.of, slice_middle]

namespace Tag

-- What stands before the name in the text of a token that begins with nothing else.
def lead? : Tag → Option Text
  | id => some ['#']
  | className => some ['.']
  | pseudoElement => some [':', ':']
  | pseudoClass => some [':']
  | typeName => some []
  | _ => none

-- What may have an argument after its name.
def takesArgument : Tag → Bool
  | pseudoElement | pseudoClass => true
  | _ => false

-- What a token says that has a name and at most an argument.
def named? (tag : Tag) (n : Text) (argument : Option Text) : Option (Kind Selector) :=
  tag.kind? fun
    | .name => some n
    | .argument => argument
    | _ => none

theorem all_eq_take (tag : Tag) : all = all.take tag.priority ++ tag :: all.drop (tag.priority + 1) := by
  cases tag <;> rfl

theorem priority_lt_of_mem_take {tag other : Tag} (h : other ∈ all.take tag.priority) : other.priority < tag.priority := by
  revert h
  cases tag <;> cases other <;> decide

theorem kindAt?_name (tag : Tag) (u n rest : Text) (offset : Nat) (left : Text) :
    tag.kindAt? (u ++ (n ++ rest)) ⟨offset, left, [(.name, ⟨u.length, u.length + n.length⟩)]⟩ = tag.named? n none := by
  refine congrArg tag.kind? (funext fun field => ?_)
  cases field with
  | name => simp [Cursor.span?, Span.of, slice]
  | _ => rfl

section

variable {tag : Tag} {lead n rest : Text} (hlead : tag.lead? = some lead)
include hlead

-- The parens of what may have an argument stand right after its name.
theorem exists_pattern_eq_parens (htakes : tag.takesArgument = true) : ∃ base : Pattern Field,
    (∀ argument, pattern argument tag = base ++ parens argument) ∧ ∀ {n rest : Text}, name.Matches n → StopsName rest →
      (base.outcomes (.start (lead ++ (n ++ rest)))).head? =
        some ⟨lead.length + n.length, rest, [(.name, ⟨lead.length, lead.length + n.length⟩)]⟩ := by
  cases tag with
  | attr | comma | combinator | universal | id | className | typeName => cases htakes
  | pseudoClass =>
    obtain rfl := Option.some.inj hlead
    exact ⟨lit ':' ++ name, fun _ => rfl, head?_outcomes_append_name (head?_outcomes_lit rfl)⟩
  | pseudoElement =>
    obtain rfl := Option.some.inj hlead
    exact ⟨lit ':' ++ lit ':' ++ name, fun _ => rfl,
      head?_outcomes_append_name (head?_append_of_head? (head?_outcomes_lit rfl) (head?_outcomes_lit rfl))⟩

-- Before a name no other kind of token, and no argument, is read.
theorem head?_outcomes_named (argument : Pattern Field) (hn : name.Matches n) (hstop : StopsName rest)
    (hparen : rest.head? ≠ some '(') (hbar : rest.head? ≠ some '|') :
    ((pattern argument tag).outcomes (.start (lead ++ (n ++ rest)))).head? =
      some ⟨lead.length + n.length, rest, [(.name, ⟨lead.length, lead.length + n.length⟩)]⟩ := by
  by_cases htakes : tag.takesArgument = true
  · obtain ⟨base, hpattern, hbase⟩ := exists_pattern_eq_parens hlead htakes
    rw [hpattern]
    exact head?_append_of_head? (hbase hn hstop) (head?_outcomes_parens_of_ne hparen argument)
  · cases tag with
    | attr | comma | combinator | universal => cases hlead
    | pseudoClass | pseudoElement => exact absurd rfl htakes
    | id | className =>
      obtain rfl := Option.some.inj hlead
      exact head?_outcomes_append_name (head?_outcomes_lit rfl) hn hstop
    | typeName =>
      obtain rfl := Option.some.inj hlead
      have hnone : ∀ more, rest = '|' :: more → StopsName more := by
        rintro more rfl
        exact absurd rfl hbar
      rw [pattern, head?_outcomes_nsBar_name hn hstop hnone rfl]
      simp [Cursor.start, Cursor.note, Cursor.skip]

theorem front?_named (hn : name.Matches n) (hstop : StopsName rest) (hparen : rest.head? ≠ some '(')
    (hbar : rest.head? ≠ some '|') :
    tag.front? (lead ++ n ++ rest) = (tag.named? n none).map (·, (lead ++ n).length) := by
  rw [List.append_assoc, front?_of_head? (head?_outcomes_named hlead _ hn hstop hparen hbar), kindAt?_name,
    List.length_append]

private theorem opens_eq_false_of_lead {other : Tag} (hother : other.priority < tag.priority)
    (hcolon : ¬(other = pseudoElement ∧ tag = pseudoClass)) : ∀ c ∈ lead, other.opens c = false := by
  have hall : lead.all (!other.opens ·) = true := by
    cases tag <;> cases hlead <;> cases other <;> revert hother hcolon <;> decide
  simpa only [List.all_eq_true, Bool.not_eq_true'] using hall

-- Where only names, parens and what else begins no token stand after that, nothing is found that is looked for before.
theorem front?_eq_none_of_lead {other : Tag} (hother : other.priority < tag.priority) {w : Text}
    (hun : Text.Unescaped (lead ++ w)) (hw : ∀ c ∈ w, c ∉ signs ∧ isBlank c = false ∧ c ≠ '*') {a b : Text}
    (hab : lead ++ w = a ++ b) (hb : b ≠ []) : other.front? b = none := by
  have hstar : '*' ∉ lead ++ w := by
    rw [List.mem_append, not_or]
    refine ⟨?_, fun hmem => (hw _ hmem).2.2 rfl⟩
    cases tag <;> cases hlead <;> decide
  by_cases huniversal : other = universal
  · subst huniversal
    exact front?_universal_eq_none fun hmem => hstar (hab ▸ List.mem_append_right a hmem)
  have htype : other ≠ typeName := by
    rintro rfl
    revert hother
    cases tag <;> decide
  have hopens : ∀ c ∈ w, other.opens c = false := fun c hc => opens_eq_false huniversal htype (hw c hc).2.1 (hw c hc).1
  by_cases helement : other = pseudoElement ∧ tag = pseudoClass
  · -- One colon is no pseudo-element.
    obtain ⟨rfl, rfl⟩ := helement
    obtain rfl := Option.some.inj hlead
    cases a with
    | cons c a => exact front?_eq_none_of_forall_opens hun.of_cons hopens (List.cons.inj hab).2 hb
    | nil =>
      rw [List.nil_append] at hab
      subst hab
      rw [Option.eq_none_iff_forall_ne_some]
      rintro ⟨kind, width⟩ hfront
      obtain ⟨taken, rest, htaken, _, ⟨run, group, _, _, _, rfl⟩, _⟩ := exists_shape_of_front? hun hfront
      obtain rfl : w = ':' :: (run ++ group ++ rest) := by simpa using htaken
      exact absurd (by decide) (hw ':' List.mem_cons_self).1
  · exact front?_eq_none_of_forall_opens hun
      (List.forall_mem_append.mpr ⟨opens_eq_false_of_lead hlead hother helement, hopens⟩) hab hb

end

end Tag

namespace Layers

section

variable {n : Text} {escaped : Char → Prop} (h : n.MadeOf (fun c => isNameChar c = true ∧ isBlank c = false) escaped)
include h

-- While its escapes are hidden a name is a run of name characters,
private theorem forall_mem_shown_name : ∀ c ∈ shown (n.sweep escapeAt), isNameChar c = true ∧ isBlank c = false := by
  intro c hc
  rcases h.forall_mem_shown c hc with rfl | ⟨hsingle, _⟩
  · decide
  · exact hsingle

private theorem idle_shown_name : Idle (shown (n.sweep escapeAt)) :=
  idle_of_forall (by decide) fun c hc => (forall_mem_shown_name h c hc).1

theorem selfContained_name : SelfContained n := selfContained_of_idle (idle_shown_name h)

-- and nothing else of it is hidden.
theorem forall_mem_text_name : ∀ c ∈ (ofText n).text, isNameChar c = true ∧ isBlank c = false := by
  rw [text_ofText_of_idle (idle_shown_name h)]
  exact forall_mem_shown_name h

theorem matches_name_text (hne : n ≠ []) : name.Matches (ofText n).text := by
  refine (matches_name (unescaped_text_ofText n)).mpr ⟨?_, fun c hc => (forall_mem_text_name h c hc).1⟩
  rw [← List.length_pos_iff, length_text_ofText]
  exact List.length_pos_iff.mpr hne

end

end Layers

namespace Tag

variable {tag : Tag} {lead : Text} (hlead : tag.lead? = some lead)
include hlead

theorem idle_lead : Idle lead := by
  have hall : lead.all ['#', '.', ':'].contains = true := by cases tag <;> cases hlead <;> decide
  exact idle_of_forall (by decide) (List.all_eq_true.mp hall)

theorem named?_isSome (n : Text) (argument : Option Text) : (tag.named? n argument).isSome := by
  cases tag <;> cases hlead <;> rfl

theorem not_delimits_of_lead? : tag.delimits = false := by
  cases tag <;> cases hlead <;> rfl

-- What stands before a name stays as it is in the masked text.
theorem text_ofText_append_name (n : Text) : (Layers.ofText (lead ++ n)).text = lead ++ (Layers.ofText n).text := by
  rw [(Layers.selfContained_idle (idle_lead hlead)).text_append, Layers.text_ofText_idle (idle_lead hlead)]

section

variable {n : Text} (hn : IsFreeName n)
include hn

theorem isBlank_eq_false_of_head? : ∀ c ∈ (lead ++ n).head?, isBlank c = false := by
  have hfirst : ∀ c ∈ n.head?, isBlank c = false := by
    cases hn with
    | nil => simp
    | single hsingle => simpa using hsingle.2
    | escape => simpa using (by decide : isBlank '\\' = false)
  have hbefore : lead.all (!isBlank ·) = true := by cases tag <;> cases hlead <;> decide
  simp only [List.all_eq_true, Bool.not_eq_true'] at hbefore
  intro c hc
  rw [List.head?_append, Option.mem_def, Option.or_eq_some_iff] at hc
  rcases hc with hc | ⟨_, hc⟩
  · exact hbefore c (List.mem_of_head? hc)
  · exact hfirst c hc

theorem selfContained_append_name : Layers.SelfContained (lead ++ n) :=
  (Layers.selfContained_idle (idle_lead hlead)).append (Layers.selfContained_name hn)

-- No kind of token is found there that is looked for before.
theorem front?_eq_none_of_name (last : Text) (hlast : ∀ c ∈ last, c ∉ signs ∧ isBlank c = false ∧ c ≠ '*')
    (hun : Text.Unescaped (lead ++ ((Layers.ofText n).text ++ last))) : ∀ other ∈ all.take tag.priority, ∀ a b,
      lead ++ ((Layers.ofText n).text ++ last) = a ++ b → b ≠ [] → other.front? b = none := by
  intro other hother a b
  refine front?_eq_none_of_lead hlead (priority_lt_of_mem_take hother) hun ?_
  refine List.forall_mem_append.mpr ⟨fun c hc => ?_, hlast⟩
  obtain ⟨hname, hblank⟩ := Layers.forall_mem_text_name hn c hc
  refine ⟨notMem_signs_of_isNameChar hname, hblank, ?_⟩
  rintro rfl
  revert hname
  decide

end

end Tag

end CssSelectors
