import CssSelectors.Proofs.Selector.Faults
import CssSelectors.Proofs.Selector.Listing
import Mathlib.Data.List.Chain

namespace CssSelectors.Selector

open Token

variable {tokens group left right rest : List Token} {token comma : Token} {tree : Selector} {error : Error}

-- A group that begins or ends with a combinator, or that has two of them next to each other.
inductive Broken : List Token → Prop
  | first {token : Token} {more : List Token} (htoken : token.isCombinator = true) : Broken (token :: more)
  | last {before : List Token} {token : Token} (htoken : token.isCombinator = true) : Broken (before ++ [token])
  | adjacent {before after : List Token} {token next : Token} (htoken : token.isCombinator = true)
    (hnext : next.isCombinator = true) : Broken (before ++ token :: next :: after)

-- A group that nothing is wrong with.
structure Clean (group : List Token) : Prop where
  ne_nil : group ≠ []
  not_broken : ¬Broken group
  unseparated : ∀ token ∈ group, token.isComma = false

theorem not_broken_iff : ¬Broken tokens ↔ (∀ token ∈ tokens.head?, token.isCombinator = false) ∧
    (∀ token ∈ tokens.getLast?, token.isCombinator = false) ∧
    tokens.IsChain fun token next => ¬(token.isCombinator = true ∧ next.isCombinator = true) := by
  constructor
  · intro h
    refine ⟨fun token hhead => ?_, fun token hlast => ?_, List.isChain_iff_forall_rel_of_append_cons_cons.mpr ?_⟩
    · obtain ⟨more, rfl⟩ := List.head?_eq_some_iff.mp hhead
      exact eq_false_of_ne_true fun htoken => h (.first htoken)
    · obtain ⟨before, rfl⟩ := List.getLast?_eq_some_iff.mp hlast
      exact eq_false_of_ne_true fun htoken => h (.last htoken)
    · rintro token next before after rfl ⟨htoken, hnext⟩
      exact h (.adjacent htoken hnext)
  · rintro ⟨hhead, hlast, hchain⟩ h
    cases h with
    | first htoken => simp [hhead _ rfl] at htoken
    | @last before token htoken =>
      have hnot := hlast token (by simp)
      simp [hnot] at htoken
    | adjacent htoken hnext => exact (List.isChain_append_cons_cons.mp hchain).2.1 ⟨htoken, hnext⟩

theorem not_broken_of_uncombined (h : ∀ token ∈ tokens, token.isCombinator = false) : ¬Broken tokens := by
  refine not_broken_iff.mpr ⟨fun token hhead => h token (List.mem_of_head? hhead),
    fun token hlast => h token (List.mem_of_getLast? hlast), List.isChain_iff_forall_rel_of_append_cons_cons.mpr ?_⟩
  rintro token next before after rfl ⟨htoken, -⟩
  simp [h token (by simp)] at htoken

-- What is wrong on the left of a combinator is wrong with the whole.
theorem Broken.append (h : Broken left) (htoken : token.isCombinator = true) : Broken (left ++ token :: right) := by
  cases h with
  | first hfirst => exact .first hfirst
  | @last before last hlast =>
    rw [List.append_assoc]
    exact .adjacent hlast htoken
  | @adjacent before after last next hlast hnext =>
    rw [List.append_assoc]
    exact .adjacent hlast hnext

theorem clean_of_group (h : Group group) : Clean group := by
  induction h with
  | run hne hrun =>
    exact ⟨hne, not_broken_of_uncombined fun token hmem => isCombinator_eq_false (hrun token hmem),
      fun token hmem => isComma_eq_false (hrun token hmem)⟩
  | @chain group run token _ htoken hne hrun ih =>
    obtain ⟨next, run, rfl⟩ := List.exists_cons_of_ne_nil hne
    obtain ⟨hhead, hlast, hchain⟩ := not_broken_iff.mp ih.not_broken
    obtain ⟨hnext, hrunLast, hrunChain⟩ :=
      not_broken_iff.mp (not_broken_of_uncombined fun token hmem => isCombinator_eq_false (hrun token hmem))
    refine ⟨by simp, not_broken_iff.mpr ⟨?_, ?_, ?_⟩, ?_⟩
    · rwa [List.head?_append_of_ne_nil group ih.ne_nil]
    · rwa [List.getLast?_append_of_ne_nil group (List.cons_ne_nil _ _), List.getLast?_cons_cons]
    · refine List.isChain_append_cons_cons.mpr ⟨List.isChain_append.mpr ⟨hchain, .singleton token, ?_⟩, ?_, hrunChain⟩
      · rintro last hmem - - ⟨hcombinator, -⟩
        simp [hlast last hmem] at hcombinator
      · rintro ⟨-, hcombinator⟩
        simp [hnext next rfl] at hcombinator
    · refine List.forall_mem_append.mpr ⟨ih.unseparated, List.forall_mem_cons.mpr ⟨?_, ?_⟩⟩
      · exact isComma_eq_false_of_isCombinator htoken
      · exact fun token hmem => isComma_eq_false (hrun token hmem)

-- A group is taken apart at its last combinator, and both sides are in order.
theorem group_of_clean (h : Clean tokens) : Group tokens := by
  induction hlength : tokens.length using Nat.strongRecOn generalizing tokens with
  | ind n ih =>
    have hdelimits (token : Token) (hmem : token ∈ tokens) (hnot : token.isCombinator = false) :
        token.delimits = false := by
      rw [delimits, h.unseparated token hmem, hnot]
      rfl
    rcases exists_last_cut isCombinator tokens with hnone | ⟨left, token, right, rfl, htoken, hright⟩
    · exact .run h.ne_nil fun token hmem => hdelimits token hmem (hnone token hmem)
    · have hleftClean : Clean left := by
        refine ⟨?_, fun hbroken => h.not_broken (hbroken.append htoken), ?_⟩
        · rintro rfl
          exact h.not_broken (.first htoken)
        · exact fun token hmem => h.unseparated token (List.mem_append_left _ hmem)
      refine .chain (ih left.length (by simp at hlength; omega) hleftClean rfl) htoken ?_ fun other hmem =>
        hdelimits other (by simp [hmem]) (hright other hmem)
      rintro rfl
      exact h.not_broken (.last htoken)

theorem Broken.ne_nil (h : Broken group) : group ≠ [] := by
  cases h <;> simp

section

variable (hgroup : ∀ token ∈ group, token.isComma = false) (hread : ∀ token ∈ group, token.Readable)
include hgroup hread

theorem exists_ofGroup_iff : (∃ tree, ofGroup group = .ok tree) ↔ Clean group := by
  constructor
  · rintro ⟨tree, htree⟩
    obtain ⟨hchained, hlinear⟩ := chained_of_ofGroup hgroup htree
    exact clean_of_group (group_of_chained hchained hlinear)
  · intro h
    obtain ⟨tree, hchained, hlinear⟩ := exists_chained_of_group (group_of_clean h) hread
    exact ⟨tree, ofGroup_of_linear hchained hlinear⟩

-- Nothing is said of a group but that it is empty, whatever is wrong with it.
theorem ofGroup_eq_error_iff : ofGroup group = .error error ↔ error = .emptyGroup ∧ (group = [] ∨ Broken group) := by
  have hempty {error : Error} (h : ofGroup group = .error error) : error = .emptyGroup := by
    cases fault_of_ofGroup h with
    | emptyGroup => rfl
    | misplacedComma hmem hcomma => simp [hgroup _ hmem] at hcomma
    | trailingComma hmem hcomma => simp [hgroup _ hmem] at hcomma
    | unread hmem hcombinator hunread =>
      obtain ⟨combinator, hcontent⟩ := hread _ hmem hcombinator
      simp [hcontent] at hunread
  constructor
  · intro h
    refine ⟨hempty h, ?_⟩
    by_contra hnot
    push Not at hnot
    obtain ⟨tree, htree⟩ := (exists_ofGroup_iff hgroup hread).mpr ⟨hnot.1, hnot.2, hgroup⟩
    rw [h] at htree
    cases htree
  · rintro ⟨rfl, hwrong⟩
    cases h : ofGroup group with
    | error error => rw [hempty h]
    | ok tree =>
      have hclean := (exists_ofGroup_iff hgroup hread).mp ⟨tree, h⟩
      exact absurd hwrong (not_or.mpr ⟨hclean.ne_nil, hclean.not_broken⟩)

-- The last group is missing or broken,
theorem ofAlternatives_nil_eq_error_iff {before : Nat} : ofAlternatives before group [] = .error error ↔
    group = [] ∧ error = .trailingComma before ∨ Broken group ∧ error = .emptyGroup := by
  rw [ofAlternatives]
  by_cases hempty : group = []
  · have hnot : ¬Broken [] := fun hbroken => hbroken.ne_nil rfl
    subst hempty
    rw [List.isEmpty_nil, if_pos rfl, throw_eq_error]
    simp [hnot, eq_comm]
  · rw [if_neg (by simpa using hempty), bind_eq_error, ofGroup_eq_error_iff hgroup hread]
    simp [hempty, and_comm]

-- and one before is, or it is clean and something is wrong with those that come after its comma.
theorem ofAlternatives_cons_eq_error_iff {before : Nat} {next : List Token} {more : List (Token × List Token)} :
    ofAlternatives before group ((comma, next) :: more) = .error error ↔
      group = [] ∧ error = .misplacedComma comma.start ∨ Broken group ∧ error = .emptyGroup ∨
        Clean group ∧ ofAlternatives comma.start next more = .error error := by
  rw [ofAlternatives]
  by_cases hempty : group = []
  · have hnot : ¬Broken [] := fun hbroken => hbroken.ne_nil rfl
    have hclean : ¬Clean [] := fun hclean => hclean.ne_nil rfl
    subst hempty
    rw [List.isEmpty_nil, if_pos rfl, throw_eq_error]
    simp [hnot, hclean, eq_comm]
  · rw [if_neg (by simpa using hempty), bind_eq_error, ofGroup_eq_error_iff hgroup hread, ← exists_ofGroup_iff hgroup hread]
    simp [hempty, and_comm]

end

-- What is wrong at the front of tokens, given the comma that they come after, if they do. Nothing
-- hangs on what is further on.
inductive Defect (before : Option Token) : List Token → Error → Prop
  | misplaced {comma : Token} {more : List Token} (hcomma : comma.isComma = true) :
    Defect before (comma :: more) (.misplacedComma comma.start)
  | trailing {comma : Token} (hbefore : before = some comma) : Defect before [] (.trailingComma comma.start)
  | missing (hbefore : before = none) : Defect before [] .emptyGroup
  | broken {group more : List Token} (hgroup : ∀ token ∈ group, token.isComma = false) (hbroken : Broken group)
    (hmore : ∀ comma ∈ more.head?, comma.isComma = true) : Defect before (group ++ more) .emptyGroup

-- The tokens of groups with a comma after each of them.
def separated (done : List (List Token × Token)) : List Token := done.flatMap fun (group, comma) => group ++ [comma]

theorem separated_nil : separated [] = [] := rfl

theorem separated_cons (group : List Token) (comma : Token) (done : List (List Token × Token)) :
    separated ((group, comma) :: done) = group ++ comma :: separated done := by
  simp [separated]

-- The last comma is the one before, unless there is a later one.
theorem getLast?_cons_or (comma : Token) (commas : List Token) (before : Option Token) :
    (comma :: commas).getLast?.or before = commas.getLast?.or (some comma) := by
  rw [List.getLast?_cons]
  cases commas.getLast? <;> rfl

variable {done : List (List Token × Token)}

-- The invariant is that all groups so far are clean, and the next one comes after a comma or is not the only one.
theorem exists_defect_of_ofAlternatives (before : Option Token) {more : List (Token × List Token)}
    (hgroup : ∀ token ∈ group, token.isComma = false)
    (hmore : ∀ r ∈ more, r.1.isComma = true ∧ ∀ token ∈ r.2, token.isComma = false)
    (hread : ∀ token ∈ joinRuns group more, token.Readable) (hbefore : before = none → joinRuns group more ≠ [])
    (h : ofAlternatives ((before.map Token.start).getD 0) group more = .error error) :
    ∃ done rest, joinRuns group more = separated done ++ rest ∧ (∀ r ∈ done, Clean r.1 ∧ r.2.isComma = true) ∧
      Defect ((done.map Prod.snd).getLast?.or before) rest error := by
  induction more generalizing before group with
  | nil =>
    have hjoin : joinRuns group [] = group := by simp [joinRuns]
    rw [hjoin] at hread hbefore ⊢
    refine ⟨[], group, rfl, by simp, ?_⟩
    rcases (ofAlternatives_nil_eq_error_iff hgroup hread).mp h with ⟨rfl, rfl⟩ | ⟨hbroken, rfl⟩
    · cases before with
      | none => exact absurd rfl (hbefore rfl)
      | some comma => exact .trailing rfl
    · have hdefect : Defect before (group ++ []) .emptyGroup := .broken hgroup hbroken (by simp)
      rwa [List.append_nil] at hdefect
  | cons r more ih =>
    obtain ⟨comma, next⟩ := r
    obtain ⟨⟨hcomma, hnext⟩, hmore⟩ := List.forall_mem_cons.mp hmore
    rw [joinRuns_cons] at hread ⊢
    obtain ⟨hreadGroup, hreadMore⟩ := List.forall_mem_append.mp hread
    rcases (ofAlternatives_cons_eq_error_iff hgroup hreadGroup).mp h with ⟨rfl, rfl⟩ | ⟨hbroken, rfl⟩ | ⟨hclean, hfails⟩
    · exact ⟨[], _, rfl, by simp, .misplaced hcomma⟩
    · exact ⟨[], _, rfl, by simp, .broken hgroup hbroken (by simpa using hcomma)⟩
    · obtain ⟨done, rest, hjoin, hdone, hdefect⟩ := ih (some comma) hnext hmore
        (List.forall_mem_cons.mp hreadMore).2 (by simp) hfails
      refine ⟨(group, comma) :: done, rest, ?_, List.forall_mem_cons.mpr ⟨⟨hclean, hcomma⟩, hdone⟩, ?_⟩
      · rw [separated_cons, hjoin, List.append_assoc, List.cons_append]
      · rwa [List.map_cons, getLast?_cons_or]

theorem ofAlternatives_of_defect (before : Option Token) (hread : ∀ token ∈ separated done ++ rest, token.Readable)
    (hbefore : before = none → separated done ++ rest ≠ []) (hdone : ∀ r ∈ done, Clean r.1 ∧ r.2.isComma = true)
    (h : Defect ((done.map Prod.snd).getLast?.or before) rest error) :
    ofAlternatives ((before.map Token.start).getD 0) (runs isComma (separated done ++ rest)).1
      (runs isComma (separated done ++ rest)).2 = .error error := by
  induction done generalizing before with
  | nil =>
    rw [separated_nil, List.nil_append] at hread hbefore ⊢
    change Defect before rest error at h
    cases h with
    | @misplaced comma more hcomma =>
      have hruns : runs isComma (comma :: more) = ([], (comma, (runs isComma more).1) :: (runs isComma more).2) :=
        runs_append_cons [] hcomma more
      rw [hruns]
      exact (ofAlternatives_cons_eq_error_iff (List.forall_mem_nil _) (List.forall_mem_nil _)).mpr (.inl ⟨rfl, rfl⟩)
    | trailing hcomma =>
      subst hcomma
      exact (ofAlternatives_nil_eq_error_iff (List.forall_mem_nil _) (List.forall_mem_nil _)).mpr (.inl ⟨rfl, rfl⟩)
    | missing hnone => exact absurd rfl (hbefore hnone)
    | @broken group more hgroup hbroken hmore =>
      have hreadGroup (token : Token) (hmem : token ∈ group) : token.Readable := hread token (List.mem_append_left _ hmem)
      cases more with
      | nil =>
        rw [List.append_nil, runs_eq_self hgroup]
        exact (ofAlternatives_nil_eq_error_iff hgroup hreadGroup).mpr (.inr ⟨hbroken, rfl⟩)
      | cons comma more =>
        rw [runs_append_cons group (hmore comma rfl), runs_eq_self hgroup]
        exact (ofAlternatives_cons_eq_error_iff hgroup hreadGroup).mpr (.inr (.inl ⟨hbroken, rfl⟩))
  | cons r done ih =>
    obtain ⟨group, comma⟩ := r
    obtain ⟨⟨hclean, hcomma⟩, hdone⟩ := List.forall_mem_cons.mp hdone
    rw [separated_cons, List.append_assoc, List.cons_append] at hread ⊢
    obtain ⟨hreadGroup, hreadMore⟩ := List.forall_mem_append.mp hread
    rw [List.map_cons, getLast?_cons_or] at h
    have hfails := ih (some comma) (List.forall_mem_cons.mp hreadMore).2 (by simp) hdone h
    rw [runs_append_cons group hcomma, runs_eq_self hclean.unseparated]
    exact (ofAlternatives_cons_eq_error_iff hclean.unseparated hreadGroup).mpr (.inr (.inr ⟨hclean, hfails⟩))

-- A list fails as its alternatives do, of which there is one where there is no comma.
theorem ofList_eq_error_iff (hne : tokens ≠ []) : ofList tokens = .error error ↔
    ofAlternatives 0 (runs isComma tokens).1 (runs isComma tokens).2 = .error error := by
  have hjoin := joinRuns_runs isComma tokens
  unfold ofList
  rcases hruns : runs isComma tokens with ⟨group, commas⟩
  rw [hruns] at hjoin
  cases commas with
  | nil =>
    obtain rfl : group = tokens := by simpa [joinRuns] using hjoin
    simp [ofAlternatives, hne]
  | cons comma commas => simp

-- Where tokens make up no tree, the leftmost thing that is wrong with them is told, and nothing else: the groups
-- before it and the commas after these are as they should be, and what comes after it does not count.
theorem assemble_eq_error_iff (hcombinator : ∀ token ∈ tokens, token.isCombinator = true →
    token.content ∈ [[' '], ['>'], ['+'], ['~']]) :
    assemble true tokens = .error error ↔ ∃ done rest, tokens = separated done ++ rest ∧
      (∀ r ∈ done, Clean r.1 ∧ r.2.isComma = true) ∧ Defect (done.map Prod.snd).getLast? rest error := by
  have hread (token : Token) (hmem : token ∈ tokens) : token.Readable := readable_of_content (hcombinator token hmem)
  by_cases hne : tokens = []
  · subst hne
    constructor
    · intro h
      obtain rfl := throw_eq_error.mp h
      exact ⟨[], [], rfl, by simp, .missing rfl⟩
    · rintro ⟨done, rest, hsplit, -, hdefect⟩
      obtain ⟨hdone, hrest⟩ := List.append_eq_nil_iff.mp hsplit.symm
      obtain rfl : done = [] := by
        cases done with
        | nil => rfl
        | cons r done => simp [separated] at hdone
      cases hdefect with
      | misplaced => cases hrest
      | trailing hbefore => cases hbefore
      | missing => rfl
      | broken _ hbroken => exact absurd (List.append_eq_nil_iff.mp hrest).1 hbroken.ne_nil
  · refine (ofList_eq_error_iff hne).trans ⟨fun h => ?_, ?_⟩
    · have hjoin := joinRuns_runs isComma tokens
      have hdefect := exists_defect_of_ofAlternatives none (fun token hmem => cuts_of_mem_first hmem)
        (fun r hr => cuts_of_mem_more hr) (by rwa [hjoin]) (fun _ => by rwa [hjoin]) h
      simpa only [hjoin, Option.or_none] using hdefect
    · rintro ⟨done, rest, rfl, hdone, hdefect⟩
      exact ofAlternatives_of_defect none hread (fun _ => hne) hdone (by rwa [Option.or_none])

-- The comma without a group comes before the group that begins with a combinator and before the comma at the end.
theorem assemble_eq_error_iff_misplaced : ∃ tokens done rest, textOf tokens = "a,,>b,".toList ∧
    assemble true tokens = .error (.misplacedComma 2) ∧ tokens = separated done ++ rest ∧
    (∀ r ∈ done, Clean r.1 ∧ r.2.isComma = true) ∧ Defect (done.map Prod.snd).getLast? rest (.misplacedComma 2) := by
  have herror : assemble true [⟨.typeName none ['a'], ['a'], 0, 1⟩, ⟨.comma, [','], 1, 2⟩, ⟨.comma, [','], 2, 3⟩,
      ⟨.combinator, ['>'], 3, 4⟩, ⟨.typeName none ['b'], ['b'], 4, 5⟩, ⟨.comma, [','], 5, 6⟩] =
      .error (.misplacedComma 2) := rfl
  obtain ⟨done, rest, hsplit, hdone, hdefect⟩ := (assemble_eq_error_iff (by decide)).mp herror
  exact ⟨_, done, rest, rfl, herror, hsplit, hdone, hdefect⟩

end CssSelectors.Selector
