import CssSelectors.Proofs.Grammar.Attribute
import CssSelectors.Proofs.Grammar.Recapture

namespace CssSelectors

open Unicode Pattern Grammar Text

namespace Grammar

-- Before a bar, units do not look like an asterisk.
theorem head?_units_ne_star {units : List Text} (hunits : ∀ unit ∈ units, nameUnit.Matches unit) (rest : Text) :
    (units.flatten ++ '|' :: rest).head? ≠ some '*' := by
  cases units with
  | nil => simp
  | cons unit units =>
    rcases hunits unit List.mem_cons_self with ⟨c, hc, rfl⟩ | ⟨_, _, rfl, hslash, _⟩
    · suffices c ≠ '*' by simpa
      rintro rfl
      revert hc
      decide
    · simp [matches_lit.mp hslash]

variable {ns n rest : Text} {s : Cursor Field}

-- What stands before a bar is taken for a namespace, and all of it.
theorem head?_outcomes_nsBar (hns : IsNsName ns) (hrest : s.rest = ns ++ '|' :: rest) :
    (nsBar.outcomes s).head? = some (((s.skip ns.length).note .ns s.offset).skip 1) := by
  have hbody : ((lit '*' <|> .many .greedy nameUnit : Pattern Field).outcomes s).head? = some (s.skip ns.length) := by
    rw [outcomes_orElse, List.head?_append]
    rcases hns with rfl | ⟨units, hunits, rfl⟩
    · rw [head?_outcomes_lit hrest]
      rfl
    · have hnone : (lit '*').outcomes s = [] := by
        refine List.eq_nil_iff_forall_not_mem.mpr fun t ht => head?_units_ne_star hunits rest ?_
        rw [← hrest, (exists_of_mem_lit ht).1]
        rfl
      have hstop : ∀ u v, '|' :: rest = u ++ v → ¬nameUnit.Matches u :=
        fun u v => not_matches_nameUnit (by decide) (by decide)
      rw [hnone, head?_outcomes_many_nameUnit hunits hstop hrest]
      rfl
  have hfield : ((Pattern.field .ns (lit '*' <|> .many .greedy nameUnit) : Pattern Field).outcomes s).head? =
      some ((s.skip ns.length).note .ns s.offset) := by
    rw [outcomes, List.head?_map, hbody]
    rfl
  have hbar : ((s.skip ns.length).note Field.ns s.offset).rest = '|' :: rest := by simp [hrest]
  rw [nsBar, perhaps, outcomes, List.head?_append, head?_append_of_head? hfield (head?_outcomes_lit hbar), Option.some_or]

-- With blanks nowhere in sight none are taken.
theorem outcomes_blanks_of_head? (h : ∀ c ∈ s.rest.head?, isBlank c = false) : blanks.outcomes s = [s] := by
  have hrun : s.rest.takeWhile isBlank = [] := by
    cases hrest : s.rest with
    | nil => rfl
    | cons c rest => simp [h c (by simp [hrest])]
  rw [blanks, outcomes_many_greedy, hrun]
  simp

theorem head?_outcomes_blanks (h : ∀ c ∈ s.rest.head?, isBlank c = false) : (blanks.outcomes s).head? = some s := by
  rw [outcomes_blanks_of_head? h]
  rfl

-- No comparison begins with the bracket that ends an attribute.
theorem outcomes_ending_bracket (hrest : s.rest = [']']) : ending.outcomes s = [s.skip 1] := by
  have hoperator : operator.outcomes s = [] := by
    refine List.eq_nil_iff_forall_not_mem.mpr fun t ht => ?_
    obtain ⟨_, htaken, _, sign, _, rfl, hsign, hequals⟩ := takesIn_of_mem_outcomes ht
    obtain rfl := matches_lit.mp hequals
    rw [hrest] at htaken
    rcases matches_perhaps.mp hsign with ⟨c, _, rfl⟩ | rfl <;> simp at htaken
  rw [outcomes_ending, outcomes_append, outcomes_append, hoperator, lit, outcomes_char_cons hrest]
  rfl

section

variable (hns : IsNsName ns)
include hns

-- So a name is read with its namespace,
theorem head?_outcomes_typeName (hn : name.Matches n) (argument : Pattern Field) :
    ((pattern argument .typeName).outcomes (.start (ns ++ '|' :: n))).head? =
      some ⟨ns.length + n.length + 1, [], [(.name, ⟨ns.length + 1, ns.length + n.length + 1⟩), (.ns, ⟨0, ns.length⟩)]⟩ := by
  have hstop : ∀ u v, ([] : Text) = u ++ v → ¬nameUnit.Matches u := by
    intro u v huv
    obtain ⟨rfl, -⟩ := List.append_eq_nil_iff.mp huv.symm
    exact not_matches_nameUnit_nil
  have hname : (((Cursor.start (ns ++ '|' :: n)).skip ns.length |>.note Field.ns 0).skip 1).rest = n ++ [] := by
    simp [Cursor.start]
  rw [pattern, head?_append_of_head? (head?_outcomes_nsBar hns rfl) (head?_outcomes_name_of_matches hn hstop hname)]
  simp [Cursor.start, Cursor.note, Cursor.skip, Nat.add_right_comm]

-- an asterisk with its own,
theorem head?_outcomes_universal (argument : Pattern Field) :
    ((pattern argument .universal).outcomes (.start (ns ++ ['|', '*']))).head? =
      some ⟨ns.length + 2, [], [(.ns, ⟨0, ns.length⟩)]⟩ := by
  have hstar : (((Cursor.start (ns ++ ['|', '*'])).skip ns.length |>.note Field.ns 0).skip 1).rest = ['*'] := by
    simp [Cursor.start]
  rw [pattern, head?_append_of_head? (head?_outcomes_nsBar hns rfl) (head?_outcomes_lit hstar)]
  simp [Cursor.start, Cursor.note, Cursor.skip]

-- and the name of an attribute, too.
theorem head?_outcomes_attr (hblank : ∀ c ∈ ns.head?, isBlank c = false) (hn : name.Matches n)
    (argument : Pattern Field) : ((pattern argument .attr).outcomes (.start ('[' :: ns ++ '|' :: n ++ [']']))).head? =
      some ⟨ns.length + n.length + 3, [],
        [(.name, ⟨ns.length + 2, ns.length + n.length + 2⟩), (.ns, ⟨1, ns.length + 1⟩)]⟩ := by
  generalize htext : '[' :: ns ++ '|' :: n ++ [']'] = text
  let inside : Cursor Field := (Cursor.start text).skip 1
  let named : Cursor Field := ((inside.skip ns.length).note .ns inside.offset).skip 1
  let ended : Cursor Field := (named.skip n.length).note .name named.offset
  have hinside : inside.rest = ns ++ '|' :: (n ++ [']']) := by simp [inside, Cursor.start, ← htext]
  have hnamed : named.rest = n ++ [']'] := by simp [named, hinside]
  have hended : ended.rest = [']'] := by simp [ended, hnamed]
  have hbracket : ((lit '[').outcomes (.start text)).head? = some inside :=
    head?_outcomes_lit (show (Cursor.start text).rest = '[' :: (ns ++ '|' :: n ++ [']']) from htext.symm)
  have hbefore : (blanks.outcomes inside).head? = some inside := by
    refine head?_outcomes_blanks fun c hc => ?_
    cases ns with
    | nil =>
      obtain rfl : '|' = c := by simpa [hinside] using hc
      decide
    | cons d ns => exact hblank c (by simpa [hinside] using hc)
  have hafter : (blanks.outcomes ended).head? = some ended := by
    refine head?_outcomes_blanks fun c hc => ?_
    obtain rfl : ']' = c := by simpa [hended] using hc
    decide
  have hstop : ∀ u v, [']'] = u ++ v → ¬nameUnit.Matches u := fun u v => not_matches_nameUnit (by decide) (by decide)
  have hopening : (opening.outcomes (.start text)).head? = some ended :=
    head?_append_of_head? (head?_append_of_head? (head?_append_of_head? (head?_append_of_head? hbracket hbefore)
      (head?_outcomes_nsBar hns hinside)) (head?_outcomes_name_of_matches hn hstop hnamed)) hafter
  have hending : (ending.outcomes ended).head? = some (ended.skip 1) := by
    rw [outcomes_ending_bracket hended]
    rfl
  rw [outcomes_attr, head?_append_of_head? hopening hending]
  simp [ended, named, inside, Cursor.start, Cursor.note, Cursor.skip, ← htext]
  omega

end

-- An asterisk before a bar is no namespace of an asterisk, unless there is one after the bar.
theorem head?_outcomes_star {text : Text} (h : text.head? ≠ some '*') (argument : Pattern Field) :
    ((pattern argument .universal).outcomes (.start ('*' :: '|' :: text))).head? = some ⟨1, '|' :: text, []⟩ := by
  have hnone : (bar ++ lit '*').outcomes (.start ('*' :: '|' :: text)) = [] := by
    refine List.eq_nil_iff_forall_not_mem.mpr fun t ht => ?_
    obtain ⟨u, hu, hstar⟩ := List.mem_flatMap.mp ht
    obtain ⟨ns, hns, hrest, -⟩ := exists_of_mem_bar hu
    have hrest : '*' :: '|' :: text = ns ++ '|' :: u.rest := hrest
    rcases hns with rfl | ⟨units, hunits, rfl⟩
    · obtain rfl : text = u.rest := by simpa using hrest
      rw [(exists_of_mem_lit hstar).1] at h
      exact h rfl
    · exact head?_units_ne_star hunits u.rest (by rw [← hrest]; rfl)
  have hsplit : (pattern argument .universal).outcomes (.start ('*' :: '|' :: text)) =
      (bar ++ lit '*').outcomes (.start ('*' :: '|' :: text)) ++ (lit '*').outcomes (.start ('*' :: '|' :: text)) := by
    rw [pattern, outcomes_append, nsBar, perhaps, outcomes, List.flatMap_append]
    simp [outcomes, bar]
  rw [hsplit, hnone, List.nil_append, head?_outcomes_lit rfl]
  rfl

end Grammar

namespace Tag

variable {ns n : Text}

theorem front?_of_head? {tag : Tag} {text : Text} {reached : Cursor Field}
    (h : ((pattern coveredArgument tag).outcomes (.start text)).head? = some reached) :
    tag.front? text = (tag.kindAt? text reached).map (·, reached.offset) := by
  rw [front?_eq, front?_eq_head?, h]
  cases hkind : tag.kindAt? text reached <;> simp [hkind]

-- What is found over a whole text is read there.
theorem read?_of_front?_whole {tag : Tag} {text : Text} {kind : Kind Selector}
    (h : tag.front? text = some (kind, text.length)) : tag.read? text = some kind := by
  refine read?_of_front? (z := []) ?_
  rwa [List.append_nil]

-- A name that was noted after its namespace is read with it.
private theorem span?_named {a b c d offset : Nat} {rest : Text} :
    Cursor.span? ⟨offset, rest, [(Field.name, ⟨a, b⟩), (.ns, ⟨c, d⟩)]⟩ .name = some ⟨a, b⟩ ∧
      Cursor.span? ⟨offset, rest, [(Field.name, ⟨a, b⟩), (.ns, ⟨c, d⟩)]⟩ .ns = some ⟨c, d⟩ := ⟨rfl, rfl⟩

theorem front?_typeName (hns : IsNsName ns) (hn : name.Matches n) :
    typeName.front? (ns ++ '|' :: n) = some (.typeName (some ns) n, (ns ++ '|' :: n).length) := by
  rw [front?_of_head? (head?_outcomes_typeName hns hn _)]
  simp [kindAt?, kind?, span?_named, Span.of, slice]
  omega

theorem front?_universal (hns : IsNsName ns) :
    universal.front? (ns ++ ['|', '*']) = some (.universal (some ns), (ns ++ ['|', '*']).length) := by
  rw [front?_of_head? (head?_outcomes_universal hns _)]
  simp [kindAt?, kind?, Cursor.span?, Span.of, slice]

theorem front?_universal_eq_none {text : Text} (h : '*' ∉ text) : universal.front? text = none := by
  rw [front?_eq, front?_eq_none_of_sign rfl h]
  rfl

theorem front?_star {text : Text} (h : text.head? ≠ some '*') :
    universal.front? ('*' :: '|' :: text) = some (.universal none, 1) := by
  rw [front?_of_head? (head?_outcomes_star h _)]
  rfl

theorem front?_attr (hns : IsNsName ns) (hblank : ∀ c ∈ ns.head?, isBlank c = false) (hn : name.Matches n) :
    attr.front? ('[' :: ns ++ '|' :: n ++ [']']) =
      some (.attr (some ns) n none none none, ('[' :: ns ++ '|' :: n ++ [']']).length) := by
  rw [front?_of_head? (head?_outcomes_attr hns hblank hn _)]
  simp [kindAt?, kind?, span?_named, Span.of, slice]
  exact ⟨⟨rfl, rfl, rfl⟩, by omega⟩

end Tag

end CssSelectors
