import CssSelectors.Proofs.Grammar.Rereading
import CssSelectors.Proofs.Grammar.Spelling

namespace CssSelectors

open Unicode Pattern Grammar Text Masked

namespace Grammar

theorem stopsName_paren (rest : Text) : StopsName ('(' :: rest) := stopsName_cons (by decide) (by decide) rest

-- A hidden argument is taken with the parens around it.
theorem head?_parens_covered {s : Cursor Field} {k : Nat} (hk : 0 < k)
    (hrest : s.rest = '(' :: List.replicate k Cover.group.char ++ [')']) :
    ((parens coveredArgument).outcomes s).head? =
      some ((((s.skip 1).skip k).note .argument (s.skip 1).offset).skip 1) := by
  have hskip : (s.skip 1).rest = List.replicate k Cover.group.char ++ [')'] := by simp [hrest]
  have hrun : (s.skip 1).rest.takeWhile (· == Cover.group.char) = List.replicate k Cover.group.char := by
    rw [hskip, List.takeWhile_append_of_pos (by simp)]
    simp [Cover.char]
  have hopening : (lit '(').outcomes s = [s.skip 1] := by simp [lit, outcomes_char_cons hrest]
  obtain ⟨shorter, hargument⟩ : ∃ shorter, coveredArgument.outcomes (s.skip 1) = (s.skip 1).skip k :: shorter := by
    rw [← List.head?_eq_some_iff, coveredArgument, lit, head?_outcomes_oneOrMore_greedy, hrun, if_neg (by simp; omega),
      List.length_replicate]
  have hlast : (((s.skip 1).skip k).note Field.argument (s.skip 1).offset).rest = [')'] := by
    rw [Cursor.note_rest, Cursor.skip_rest, hskip]
    simp
  have hclosing : (lit ')').outcomes (((s.skip 1).skip k).note Field.argument (s.skip 1).offset) =
      [(((s.skip 1).skip k).note .argument (s.skip 1).offset).skip 1] := by
    rw [lit, outcomes_char_cons hlast]
    rfl
  rw [parens, perhaps, outcomes, List.head?_append, outcomes_append, outcomes_append, hopening, List.flatMap_singleton,
    outcomes.eq_6, hargument, List.map_cons, List.flatMap_cons, hclosing]
  rfl

end Grammar

namespace Tag

section

variable {tag : Tag} {lead n : Text} (hlead : tag.lead? = some lead) (htakes : tag.takesArgument = true) (hn : name.Matches n)
include hlead htakes hn

-- A name with a hidden argument is found with all of it.
theorem exists_front?_argument {k : Nat} (hk : 0 < k) : ∃ kind,
    tag.front? (lead ++ (n ++ ('(' :: List.replicate k Cover.group.char ++ [')']))) =
      some (kind, lead.length + n.length + k + 2) := by
  obtain ⟨base, hpattern, hbase⟩ := exists_pattern_eq_parens hlead htakes
  have hbase := hbase hn (stopsName_paren (List.replicate k Cover.group.char ++ [')']))
  rw [← List.cons_append] at hbase
  generalize htext : lead ++ (n ++ ('(' :: List.replicate k Cover.group.char ++ [')'])) = text at hbase ⊢
  obtain ⟨t, hfront, hoffset⟩ : ∃ t, (pattern coveredArgument tag).front? text = some t ∧
      t.offset = lead.length + n.length + k + 2 := by
    rw [front?_eq_head?, hpattern, head?_append_of_total (parens_ne_nil _), hbase, Option.bind_some,
      head?_parens_covered hk rfl]
    refine ⟨_, rfl, ?_⟩
    simp only [Cursor.skip_offset, Cursor.note_offset]
    omega
  have hsome : (tag.kindAt? text t).isSome := kindAt?_isSome (mem_outcomes_of_front? hfront)
  obtain ⟨kind, hkind⟩ := Option.isSome_iff_exists.mp hsome
  exact ⟨kind, front?_eq_some_iff.mpr ⟨t, hfront, hkind, hoffset⟩⟩

-- With its argument in plain sight it reads as written.
theorem read?_argument {body : Text} (hbody : body ≠ []) :
    tag.read? (lead ++ (n ++ ('(' :: body ++ [')']))) = tag.named? n (some body) := by
  obtain ⟨base, hpattern, hbase⟩ := exists_pattern_eq_parens hlead htakes
  have hhead := hbase hn (stopsName_paren (body ++ [')']))
  rw [← List.cons_append] at hhead
  obtain ⟨others, houtcomes⟩ := List.head?_eq_some_iff.mp hhead
  let start : Nat := lead.length + n.length + 1
  let reached : Cursor Field := ⟨start + body.length + 1, [],
    [(.argument, ⟨start, start + body.length⟩), (.name, ⟨lead.length, lead.length + n.length⟩)]⟩
  have hwhole : (pattern plainArgument tag).whole? (lead ++ (n ++ ('(' :: body ++ [')']))) = some reached := by
    rw [whole?_eq_find?, hpattern, outcomes_append, houtcomes, List.flatMap_cons, List.find?_append,
      plainArgument, find?_parens _ rfl hbody fun _ _ => rfl, Option.some_or]
    simp [reached, start, Cursor.note, Cursor.skip]
  rw [read?, hwhole]
  change tag.kindAt? _ reached = _
  refine congrArg tag.kind? (funext fun field => ?_)
  cases field with
  | name => exact congrArg some (Span.of_eq lead n (List.append_assoc _ _ _).symm rfl rfl)
  | argument =>
    have hsplit : lead ++ (n ++ ('(' :: body ++ [')'])) = (lead ++ n ++ ['(']) ++ body ++ [')'] := by simp
    have hstart : start = (lead ++ n ++ ['(']).length := by
      simp [start]
      omega
    exact congrArg some (Span.of_eq _ body hsplit hstart rfl)
  | _ => rfl

end

end Tag

end CssSelectors
