import CssSelectors.Proofs.Grammar.Refilling
import CssSelectors.Proofs.Grammar.Spelling

namespace CssSelectors

open Unicode Pattern Grammar Text Masked

namespace Grammar

variable {s : Cursor Field}

theorem finish?_bracket (hrest : s.rest = [']']) : (blanks ++ lit ']').finish? s = some (s.skip 1) := by
  have hblanks : blanks.outcomes s = [s] := outcomes_blanks_of_head? fun c hc => by
    obtain rfl : ']' = c := by simpa [hrest] using hc
    decide
  rw [finish?_append, hblanks, List.findSome?_singleton, finish?, lit, outcomes_char_cons hrest]
  simp [hrest]

-- What ends an attribute: the bracket, perhaps with a blank and a letter for the flag before it.
def ended : Option (Char × Char) → Text
  | none => [']']
  | some (blank, letter) => [blank, letter, ']']

-- The flag that is noted there.
def endedSpans (offset : Nat) : Option (Char × Char) → List (Field × Span)
  | none => []
  | some _ => [(.caseFlag, ⟨offset + 1, offset + 2⟩)]

private theorem head?_outcomes_caseFlag_bracket (hrest : s.rest = [']']) : (caseFlag.outcomes s).head? = some s := by
  have hblank : (char isBlank).outcomes s = [] := by
    rw [outcomes_char_cons hrest, if_neg (by decide)]
  rw [caseFlag, perhaps, outcomes, outcomes_append, hblank]
  rfl

private theorem head?_outcomes_caseFlag {blank letter : Char} (hblank : isBlank blank = true) (hletter : isFlag letter = true)
    (hrest : s.rest = [blank, letter, ']']) :
    (caseFlag.outcomes s).head? = some ((s.skip 2).note .caseFlag (s.offset + 1)) := by
  have hnext : (s.skip 1).rest = letter :: [']'] := by simp [hrest]
  have hletter : letter ∈ ['i', 'I', 's', 'S'] := by simpa [isFlag] using hletter
  rw [caseFlag, perhaps, outcomes, outcomes_append, outcomes_char_cons hrest, if_pos hblank, List.flatMap_singleton,
    outcomes.eq_6, outcomes_char_cons hnext, if_pos (by simpa using hletter)]
  simp

-- The blank before a flag is only left to it once it has been tried as one of the blanks before.
theorem finish?_closing_ended {flag : Option (Char × Char)} (hflag : ∀ p ∈ flag, isBlank p.1 = true ∧ isFlag p.2 = true)
    (hrest : s.rest = ended flag) :
    closing.finish? s = some ⟨s.offset + (ended flag).length, [], endedSpans s.offset flag ++ s.spans⟩ := by
  cases flag with
  | none =>
    have hrest : s.rest = [']'] := hrest
    have hhead : ∀ c ∈ s.rest.head?, isBlank c = false := by
      rw [hrest]
      simp
      decide
    have hbracket := finish?_bracket hrest
    rw [closing, finish?_append, outcomes_blanks_of_head? hhead, List.findSome?_singleton,
      finish?_append_of_head? (head?_outcomes_caseFlag_bracket hrest) (matches_of_finish? hbracket), hbracket]
    simp [Cursor.skip, hrest, ended, endedSpans]
  | some p =>
    obtain ⟨blank, letter⟩ := p
    obtain ⟨hblank, hletter⟩ : isBlank blank = true ∧ isFlag letter = true := hflag _ rfl
    have hrest : s.rest = [blank, letter, ']'] := hrest
    have hnot : isBlank letter = false := isBlank_of_isFlag hletter
    have hblanks : blanks.outcomes s = [s.skip 1, s] := by
      rw [blanks, outcomes_many_greedy, hrest]
      simp [hblank, hnot, List.range_succ]
    have hearly : (caseFlag ++ (blanks ++ lit ']')).finish? (s.skip 1) = none := by
      refine finish?_eq_none_iff.mpr fun hmatches => ?_
      have hclosing : closing.Matches [letter, ']'] :=
        ⟨[], _, rfl, matches_blanks.mpr (by simp [IsBlank]), by simpa [hrest] using hmatches⟩
      rcases matches_closing_cons hclosing with ⟨rfl, _⟩ | ⟨hblank, _⟩
      · revert hletter
        decide
      · rw [hnot] at hblank
        cases hblank
    have hnoted := head?_outcomes_caseFlag hblank hletter hrest
    have hbracket := finish?_bracket (s := (s.skip 2).note .caseFlag (s.offset + 1)) (by simp [hrest])
    rw [closing, finish?_append, hblanks, List.findSome?_cons, hearly, List.findSome?_singleton,
      finish?_append_of_head? hnoted (matches_of_finish? hbracket), hbracket]
    simp [Cursor.skip, Cursor.note, hrest, ended, endedSpans]

-- The operators that compare an attribute with a value.
def operators : List Text := [['='], ['~', '='], ['|', '='], ['^', '='], ['$', '='], ['*', '=']]

variable {op rest : Text} (hop : op ∈ operators)
include hop

-- No name goes on in one, not even behind the bar of a namespace.
theorem stopsName_operator (rest : Text) :
    StopsName (op ++ rest) ∧ ∀ more, op ++ rest = '|' :: more → StopsName more := by
  simp only [operators, List.mem_cons, List.not_mem_nil, or_false] at hop
  constructor
  · rcases hop with rfl | rfl | rfl | rfl | rfl | rfl <;> exact stopsName_cons (by decide) (by decide) _
  · intro more hmore
    rcases hop with rfl | rfl | rfl | rfl | rfl | rfl <;> simp at hmore
    subst hmore
    exact stopsName_cons (by decide) (by decide) rest

theorem isBlank_eq_false_of_operator : ∀ c ∈ (op ++ rest).head?, isBlank c = false := by
  simp only [operators, List.mem_cons, List.not_mem_nil, or_false] at hop
  rcases hop with rfl | rfl | rfl | rfl | rfl | rfl <;> simp <;> decide

-- It is read whole.
theorem head?_outcomes_operator (hnext : rest.head? ≠ some '=') (hrest : s.rest = op ++ rest) :
    (operator.outcomes s).head? = some ((s.skip op.length).note .operator s.offset) := by
  simp only [operators, List.mem_cons, List.not_mem_nil, or_false] at hop
  have hshort : s.rest = '=' :: rest → ((perhaps (char fun c => !isWord c) ++ lit '=' : Pattern Field).outcomes s).head? =
      some (s.skip 1) := by
    intro hrest
    have hnone : (lit '=').outcomes (s.skip 1) = [] := by
      refine List.eq_nil_iff_forall_not_mem.mpr fun t ht => hnext ?_
      have hequals := (exists_of_mem_lit ht).1
      rw [Cursor.skip_rest, hrest, List.drop_one, List.tail_cons] at hequals
      rw [hequals]
      rfl
    have hsign : (char fun c => !isWord c : Pattern Field).outcomes s = [s.skip 1] := by
      rw [outcomes_char_cons hrest, if_pos (by decide)]
    rw [outcomes_append, perhaps, outcomes, hsign, List.flatMap_append, List.flatMap_singleton, hnone, List.nil_append]
    change ([s].flatMap (lit '=').outcomes).head? = _
    rw [List.flatMap_singleton, head?_outcomes_lit hrest]
  have hlong : ∀ c, isWord c = false → s.rest = c :: '=' :: rest →
      ((perhaps (char fun c => !isWord c) ++ lit '=' : Pattern Field).outcomes s).head? = some (s.skip 2) := by
    intro c hc hrest
    have hsign : ((perhaps (char fun c => !isWord c) : Pattern Field).outcomes s).head? = some (s.skip 1) := by
      rw [perhaps, outcomes, outcomes_char_cons hrest, if_pos (by simp [hc])]
      rfl
    have hequals : (s.skip 1).rest = '=' :: rest := by simp [hrest]
    rw [head?_append_of_head? hsign (head?_outcomes_lit hequals), Cursor.skip_skip]
  have hbody : ((perhaps (char fun c => !isWord c) ++ lit '=' : Pattern Field).outcomes s).head? =
      some (s.skip op.length) := by
    rcases hop with rfl | rfl | rfl | rfl | rfl | rfl
    · exact hshort hrest
    all_goals exact hlong _ (by decide) hrest
  rw [operator, outcomes, List.head?_map, hbody]
  rfl

omit hop

-- What an attribute begins with is its name, where no namespace can be read in it.
theorem head?_outcomes_opening {n rest : Text} (hn : name.Matches n) (hfirst : ∀ c ∈ n.head?, isBlank c = false)
    (hstop : StopsName rest) (hbar : ∀ more, rest = '|' :: more → StopsName more)
    (hnext : ∀ c ∈ rest.head?, isBlank c = false) :
    (opening.outcomes (.start ('[' :: (n ++ rest)))).head? =
      some ⟨n.length + 1, rest, [(.name, ⟨1, n.length + 1⟩)]⟩ := by
  let inside : Cursor Field := (Cursor.start ('[' :: (n ++ rest))).skip 1
  let named : Cursor Field := (inside.skip n.length).note .name inside.offset
  have hinside : inside.rest = n ++ rest := rfl
  have hnamed : named.rest = rest := by simp [named, hinside]
  have hassoc : opening.outcomes (.start ('[' :: (n ++ rest))) =
      (((lit '[' ++ blanks) ++ (nsBar ++ name)) ++ blanks).outcomes (.start ('[' :: (n ++ rest))) := by
    simp only [opening, outcomes_append, List.flatMap_assoc]
  have hbefore : (blanks.outcomes inside).head? = some inside := by
    refine head?_outcomes_blanks fun c hc => ?_
    rw [hinside, List.head?_append, Option.mem_def, Option.or_eq_some_iff] at hc
    exact hc.elim (hfirst c) fun hc => hnext c hc.2
  have hafter : (blanks.outcomes named).head? = some named := head?_outcomes_blanks (hnamed ▸ hnext)
  have hopened : ((lit '[' ++ blanks).outcomes (.start ('[' :: (n ++ rest)))).head? = some inside :=
    head?_append_of_head? (head?_outcomes_lit rfl) hbefore
  rw [hassoc, head?_append_of_head? (head?_append_of_head? hopened (head?_outcomes_nsBar_name hn hstop hbar hinside)) hafter]
  simp [named, inside, Cursor.start, Cursor.note, Cursor.skip, Nat.add_comm]

-- The places that are noted in an attribute whose value is in quotes.
def quotedSpans (n op body : Text) (flag : Option (Char × Char)) : List (Field × Span) :=
  endedSpans (n.length + 1 + op.length + body.length + 2) flag ++
    [(.value, ⟨n.length + 1 + op.length, n.length + 1 + op.length + body.length + 2⟩),
      (.operator, ⟨n.length + 1, n.length + 1 + op.length⟩), (.name, ⟨1, n.length + 1⟩)]

section

variable {quote : Char} {body : Text} {flag : Option (Char × Char)} (hquote : isQuote quote = true) (hline : '\n' ∉ body)
  (hflag : ∀ p ∈ flag, isBlank p.1 = true ∧ isFlag p.2 = true)
include hquote hline hflag

-- A value in quotes goes on to the last of them.
theorem finish?_value_quoted (hrest : s.rest = quote :: body ++ [quote] ++ ended flag) : (value ++ closing).finish? s =
    some ⟨s.offset + body.length + 2 + (ended flag).length, [],
      endedSpans (s.offset + body.length + 2) flag ++ (.value, ⟨s.offset, s.offset + body.length + 2⟩) :: s.spans⟩ := by
  have hfeed : '\n' ≠ quote := by
    rintro rfl
    exact absurd hquote (by decide)
  refine finish?_value_iff.mpr ⟨quote :: body ++ [quote], ended flag, hrest, by simp, by simp [hfeed, hline], ?_, ?_⟩
  · have hlength : (quote :: body ++ [quote]).length = body.length + 2 := by simp
    have hclosing := finish?_closing_ended hflag (s := (s.skip (body.length + 2)).note .value s.offset)
      (by rw [Cursor.note_rest, Cursor.skip_rest, hrest, ← hlength, List.drop_left])
    rw [hlength, hclosing]
    rfl
  · intro v x hsplit _ hless hx
    have hsplit : (quote :: body) ++ quote :: ended flag = v ++ x := by
      rw [← hsplit, hrest, List.append_assoc]
      rfl
    obtain ⟨y, rfl, _⟩ := exists_of_closing hquote hsplit hx
    simp at hless

-- So is the comparison of an attribute with one,
theorem finish?_ending_quoted {op : Text} (hop : op ∈ operators)
    (hrest : s.rest = op ++ (quote :: body ++ [quote] ++ ended flag)) : ending.finish? s =
      some ⟨s.offset + op.length + body.length + 2 + (ended flag).length, [],
        endedSpans (s.offset + op.length + body.length + 2) flag ++
          (.value, ⟨s.offset + op.length, s.offset + op.length + body.length + 2⟩) ::
            (.operator, ⟨s.offset, s.offset + op.length⟩) :: s.spans⟩ := by
  have hequals : quote ≠ '=' := by
    rintro rfl
    exact absurd hquote (by decide)
  let compared : Cursor Field := (s.skip op.length).note .operator s.offset
  have hcompared : compared.rest = quote :: body ++ [quote] ++ ended flag := by
    rw [Cursor.note_rest, Cursor.skip_rest, hrest, List.drop_left]
  have hblank : (blanks.outcomes compared).head? = some compared := by
    refine head?_outcomes_blanks fun c hc => ?_
    obtain rfl : quote = c := by simpa [hcompared] using hc
    exact Bool.eq_false_iff.mpr fun hblank => not_encloses_of_isBlank hblank (.inl hquote)
  have hhead : ((operator ++ blanks).outcomes s).head? = some compared :=
    head?_append_of_head? (head?_outcomes_operator hop (by simpa using hequals) hrest) hblank
  have hvalue := finish?_value_quoted hquote hline hflag hcompared
  rw [finish?_ending, finish?_append_of_head? hhead (matches_of_finish? hvalue), hvalue]
  rfl

-- and so is the attribute.
theorem finish?_attr_quoted (argument : Pattern Field) {n op : Text} (hn : name.Matches n)
    (hfirst : ∀ c ∈ n.head?, isBlank c = false) (hop : op ∈ operators) :
    (pattern argument .attr).finish? (.start ('[' :: (n ++ (op ++ (quote :: body ++ [quote] ++ ended flag))))) =
      some ⟨n.length + 1 + op.length + body.length + 2 + (ended flag).length, [], quotedSpans n op body flag⟩ := by
  obtain ⟨hstop, hbar⟩ := stopsName_operator hop (quote :: body ++ [quote] ++ ended flag)
  have hhead := head?_outcomes_opening hn hfirst hstop hbar (isBlank_eq_false_of_operator hop)
  have hending := finish?_ending_quoted hquote hline hflag hop (s := ⟨n.length + 1, _, [(.name, ⟨1, n.length + 1⟩)]⟩) rfl
  rw [finish?_opening, finish?_append_of_head? hhead (matches_of_finish? hending), hending]
  rfl

end

-- Where the only bracket that closes is the last character, an attribute that is found has that for its end.
theorem head?_outcomes_attr_of_finish? {argument : Pattern Field} {u : Text} {t : Cursor Field} (hu : ']' ∉ u)
    (h : (pattern argument .attr).finish? (.start (u ++ [']'])) = some t) :
    ((pattern argument .attr).outcomes (.start (u ++ [']']))).head? = some t := by
  have hend : ∀ v ∈ (pattern argument .attr).outcomes (.start (u ++ [']'])), v.rest = [] := by
    intro v hv
    obtain ⟨_, hsplit, _, taken, _, rfl, _, hbracket⟩ := takesIn_of_mem_outcomes hv
    obtain rfl := matches_lit.mp hbracket
    have hsplit : u ++ [']'] = taken ++ [']'] ++ v.rest := hsplit
    rcases List.eq_nil_or_concat v.rest with hnil | ⟨more, c, hmore⟩
    · exact hnil
    · rw [hmore, List.concat_eq_append, ← List.append_assoc] at hsplit
      exact absurd ((List.append_inj' hsplit rfl).1 ▸ by simp) hu
  obtain ⟨hmem, _⟩ := mem_of_finish? h
  obtain ⟨v, others, houtcomes⟩ := List.exists_cons_of_ne_nil (List.ne_nil_of_mem hmem)
  have hempty : v.rest.isEmpty = true := by
    rw [hend v (by simp [houtcomes])]
    rfl
  rw [finish?, houtcomes, List.find?_cons, hempty] at h
  rw [houtcomes]
  exact h

end Grammar

namespace Tag

section

variable {n op body : Text} {quote : Char} {flag : Option (Char × Char)} (hn : name.Matches n)
  (hfirst : ∀ c ∈ n.head?, isBlank c = false) (hop : op ∈ operators) (hquote : isQuote quote = true) (hline : '\n' ∉ body)
  (hflag : ∀ p ∈ flag, isBlank p.1 = true ∧ isFlag p.2 = true)

-- What the places mean that are noted in it.
private theorem kindAt?_quoted (offset : Nat) (rest : Text) :
    attr.kindAt? ('[' :: (n ++ (op ++ (quote :: body ++ [quote] ++ ended flag)))) ⟨offset, rest, quotedSpans n op body flag⟩ =
      some (.attr none n (some op) (some (quote :: body ++ [quote])) (flag.map fun p => [p.2])) := by
  generalize htext : '[' :: (n ++ (op ++ (quote :: body ++ [quote] ++ ended flag))) = text
  let reached : Cursor Field := ⟨offset, rest, quotedSpans n op body flag⟩
  have hname : (reached.span? .name).map (·.of text) = some n := by
    have hspan : reached.span? .name = some ⟨1, n.length + 1⟩ := by cases flag <;> rfl
    have hsplit : text = ['['] ++ n ++ (op ++ (quote :: body ++ [quote] ++ ended flag)) := htext.symm
    rw [hspan]
    exact congrArg some (Span.of_eq _ n hsplit rfl (Nat.add_comm _ _))
  have hoperator : (reached.span? .operator).map (·.of text) = some op := by
    have hspan : reached.span? .operator = some ⟨n.length + 1, n.length + 1 + op.length⟩ := by cases flag <;> rfl
    have hsplit : text = '[' :: n ++ op ++ (quote :: body ++ [quote] ++ ended flag) := by simp [← htext]
    rw [hspan]
    exact congrArg some (Span.of_eq _ op hsplit rfl rfl)
  have hvalue : (reached.span? .value).map (·.of text) = some (quote :: body ++ [quote]) := by
    have hspan : reached.span? .value =
        some ⟨n.length + 1 + op.length, n.length + 1 + op.length + body.length + 2⟩ := by cases flag <;> rfl
    have hsplit : text = '[' :: n ++ op ++ (quote :: body ++ [quote]) ++ ended flag := by simp [← htext]
    rw [hspan]
    have hlength : (quote :: body ++ [quote]).length = body.length + 2 := by simp
    refine congrArg some (Span.of_eq _ _ hsplit ?_ (by rw [hlength, Nat.add_assoc]))
    simp
    omega
  have hflag : (reached.span? .caseFlag).map (·.of text) = flag.map fun p => [p.2] := by
    cases flag with
    | none => rfl
    | some p =>
      have hsplit : text = '[' :: n ++ op ++ (quote :: body ++ [quote]) ++ [p.1] ++ [p.2] ++ [']'] := by simp [← htext, ended]
      refine congrArg some (Span.of_eq _ _ hsplit ?_ rfl)
      simp
      omega
  have hns : (reached.span? .ns).map (·.of text) = none := by cases flag <;> rfl
  change (Option.map _ ((reached.span? .name).map (·.of text))) = _
  rw [hname, Option.map_some]
  exact congrArg some (by rw [← hns, ← hoperator, ← hvalue, ← hflag])

include hn hfirst hop hquote hline hflag

-- So it reads as written,
theorem read?_quoted : attr.read? ('[' :: (n ++ (op ++ (quote :: body ++ [quote] ++ ended flag)))) =
    some (.attr none n (some op) (some (quote :: body ++ [quote])) (flag.map fun p => [p.2])) := by
  rw [read?, whole?_eq_finish?, finish?_attr_quoted hquote hline hflag _ hn hfirst hop]
  exact kindAt?_quoted _ _

-- and it is found with all of its text if that has no bracket before its end.
theorem front?_quoted (hname : ']' ∉ n) (hbody : ']' ∉ body) :
    attr.front? ('[' :: (n ++ (op ++ (quote :: body ++ [quote] ++ ended flag)))) =
      some (.attr none n (some op) (some (quote :: body ++ [quote])) (flag.map fun p => [p.2]),
        ('[' :: (n ++ (op ++ (quote :: body ++ [quote] ++ ended flag)))).length) := by
  have hclosing : closing.Matches (ended flag) :=
    matches_of_finish? (finish?_closing_ended hflag (s := .start (ended flag)) rfl)
  obtain ⟨x, hx, hended⟩ := matches_closing hclosing
  have hsplit : '[' :: (n ++ (op ++ (quote :: body ++ [quote] ++ ended flag))) =
      '[' :: (n ++ (op ++ (quote :: body ++ [quote] ++ x))) ++ [']'] := by simp [hended]
  have hbefore : ']' ∉ '[' :: (n ++ (op ++ (quote :: body ++ [quote] ++ x))) := by
    have hoperator : ']' ∉ op := by
      revert hop
      simp only [operators, List.mem_cons, List.not_mem_nil, or_false]
      rintro (rfl | rfl | rfl | rfl | rfl | rfl) <;> decide
    have hne : ']' ≠ quote := by
      rintro rfl
      exact absurd hquote (by decide)
    have hafter : ']' ∉ x := fun hmem => (hx ']' hmem).2 rfl
    simp [hname, hoperator, hne, hbody, hafter]
  have hfinish := finish?_attr_quoted hquote hline hflag coveredArgument hn hfirst hop
  have hhead := head?_outcomes_attr_of_finish? hbefore (hsplit ▸ hfinish)
  rw [← hsplit] at hhead
  rw [front?_of_head? hhead, kindAt?_quoted, Option.map_some]
  simp
  omega

end

end Tag

end CssSelectors
