import CssSelectors.Proofs.Selector.Imbalance
import CssSelectors.Proofs.Selector.Parts

namespace CssSelectors

open Token

namespace Tree

variable {α β : Type}

-- A tree without a list of alternatives.
def Listless : Tree α → Prop
  | leaf _ => True
  | compound _ => True
  | complex _ left right => left.Listless ∧ right.Listless
  | list _ => False

theorem listless_map (f : α → β) (tree : Tree α) : (tree.map f).Listless ↔ tree.Listless := by
  cases tree with
  | complex combinator left right => exact and_congr (listless_map f left) (listless_map f right)
  | _ => rfl

end Tree

-- The errors of a comma with no alternative on one of its sides.
inductive Error.BlamesComma (offset : Nat) : Error → Prop
  | misplaced : BlamesComma offset (.misplacedComma offset)
  | trailing : BlamesComma offset (.trailingComma offset)

namespace Token

variable {token : Token} {tokens : List Token}

-- Tokens among which there are no commas or no combinators.
def Unmixed (tokens : List Token) : Prop :=
  (∀ token ∈ tokens, token.isComma = false) ∨ ∀ token ∈ tokens, token.isCombinator = false

instance (tokens : List Token) : Decidable (Unmixed tokens) := inferInstanceAs (Decidable (_ ∨ _))

theorem unmixed_iff_of_mem (hmem : token ∈ tokens) (htoken : token.isCombinator = true) :
    Unmixed tokens ↔ ∀ token ∈ tokens, token.isComma = false := by
  refine ⟨fun h => h.resolve_right fun hnone => ?_, .inl⟩
  rw [hnone token hmem] at htoken
  cases htoken

-- To leave out the delimiters is to leave out the combinators, unless there are commas.
theorem filter_delimits_eq_iff : tokens.filter (fun token => !token.delimits) =
    tokens.filter (fun token => !token.isCombinator) ↔ ∀ token ∈ tokens, token.isComma = false := by
  constructor
  · intro h token hmem
    by_contra hcomma
    have hcomma : token.isComma = true := by simpa using hcomma
    have hkept : token ∈ tokens.filter fun token => !token.delimits := by
      rw [h, List.mem_filter, isCombinator_eq_false_of_isComma hcomma]
      exact ⟨hmem, rfl⟩
    simp [delimits, hcomma] at hkept
  · intro h
    exact List.filter_congr fun token hmem => by rw [delimits, h token hmem, Bool.false_or]

end Token

namespace Selector

variable {tree : Selector} {tokens left right : List Token} {token : Token} {text : Text} {error : Error}

theorem Block.listless (h : Block tree) : tree.Listless := by
  cases h with
  | leaf _ => trivial
  | compound _ _ => trivial

theorem Chained.listless (h : Chained tree) : tree.Listless := by
  induction h with
  | block htree => exact htree.listless
  | complex combinator _ hright ih => exact ⟨ih, hright.listless⟩

theorem listless_of_ofRun (h : ofRun tokens = .ok tree) : tree.Listless := by
  match tokens with
  | [] => simp [ofRun] at h
  | [token] =>
    obtain rfl := pure_eq_ok.mp h
    trivial
  | token :: next :: more =>
    obtain rfl := pure_eq_ok.mp h
    trivial

-- What is taken for a list is one if it holds a comma.
theorem listless_iff_of_ofList (h : ofList tokens = .ok tree) :
    tree.Listless ↔ ∀ token ∈ tokens, token.isComma = false := by
  obtain ⟨hshape, hkept⟩ := wellShaped_of_ofList h
  cases hshape with
  | single hchained =>
    refine iff_of_true hchained.listless fun token hmem => ?_
    rw [← isComma_kept]
    exact hchained.isComma_of_mem _ (hkept ▸ List.mem_map_of_mem hmem)
  | @list trees hlength _ =>
    refine iff_of_false id fun hnone => ?_
    match trees, hlength with
    | first :: second :: more, _ =>
      have hmem : separator ∈ tokens.map kept := by
        rw [hkept, linear, linearAll_cons_cons]
        exact List.mem_append_right _ List.mem_cons_self
      obtain ⟨comma, hcomma, hkept⟩ := List.mem_map.mp hmem
      have htrue := kept_eq_separator_iff.mp hkept
      rw [hnone comma hcomma] at htrue
      cases htrue

-- The flag is heeded as long as there is no combinator, since the sides of the last one are taken for lists.
theorem listless_iff_of_assemble (h : assemble false tokens = .ok tree) : tree.Listless ↔ Unmixed tokens := by
  rcases exists_last_cut isCombinator tokens with hnone | ⟨left, token, right, rfl, htoken, hright⟩
  · rw [assemble_of_uncombined hnone] at h
    exact iff_of_true (listless_of_ofRun h) (.inr hnone)
  · obtain ⟨combinator, leftTree, rightTree, -, hleft, hrightTree, rfl⟩ := (assemble_combined_eq_ok_iff htoken hright).mp h
    have hcomma : token.isComma = false := by
      by_contra hcomma
      rw [isCombinator_eq_false_of_isComma (by simpa using hcomma)] at htoken
      cases htoken
    rw [unmixed_iff_of_mem (by simp) htoken, Tree.Listless, listless_iff_of_ofList hleft, listless_iff_of_ofList hrightTree,
      List.forall_mem_append, List.forall_mem_cons]
    simp [hcomma]

theorem delimits_of_combined (htoken : token.isCombinator = true) (hright : ∀ other ∈ right, other.isCombinator = false)
    (h : assemble false (left ++ token :: right) = .ok tree) : ∀ held ∈ tree.tokens, held.delimits = false := by
  obtain ⟨combinator, leftTree, rightTree, -, hleft, hrightTree, rfl⟩ := (assemble_combined_eq_ok_iff htoken hright).mp h
  exact List.forall_mem_append.mpr ⟨(wellShaped_of_ofList hleft).1.delimits_of_mem_tokens,
    (wellShaped_of_ofList hrightTree).1.delimits_of_mem_tokens⟩

-- With a combinator no comma is kept,
theorem tokens_of_combined (hunparsed : ∀ other ∈ left ++ token :: right, other.Unparsed)
    (htoken : token.isCombinator = true) (hright : ∀ other ∈ right, other.isCombinator = false)
    (h : assemble false (left ++ token :: right) = .ok tree) :
    tree.tokens.map erased = (left ++ token :: right).filter fun other => !other.delimits := by
  rw [Tree.tokens_eq_filterMap]
  exact erased_filterMap_held? (becomes_of_assemble hunparsed h)
    fun held hmem => delimits_of_combined htoken hright h held (Tree.mem_tokens_iff.mpr hmem)

-- so all commas are kept only where none was to be split.
theorem tokens_eq_iff_of_assemble (hunparsed : ∀ token ∈ tokens, token.Unparsed) (h : assemble false tokens = .ok tree) :
    tree.tokens.map erased = tokens.filter (fun token => !token.isCombinator) ↔ Unmixed tokens := by
  rcases exists_last_cut isCombinator tokens with hnone | ⟨left, token, right, rfl, htoken, hright⟩
  · refine iff_of_true ?_ (.inr hnone)
    rw [assemble_of_uncombined hnone] at h
    have htokens : tree.tokens = tokens := by
      rw [Tree.tokens_eq_filterMap, parts_of_ofRun h, List.filterMap_map]
      exact List.filterMap_some
    rw [htokens, List.filter_eq_self.mpr fun token hmem => by rw [hnone token hmem]; rfl]
    exact List.map_congr_left (fun token hmem => (hunparsed token hmem).erased_eq) |>.trans (List.map_id tokens)
  · rw [tokens_of_combined hunparsed htoken hright h, filter_delimits_eq_iff, unmixed_iff_of_mem (by simp) htoken]

theorem Fault.exists_comma {offset : Nat} (h : Fault tokens error) (hblame : error.BlamesComma offset) :
    ∃ comma ∈ tokens, comma.isComma = true ∧ comma.start = offset := by
  cases hblame with
  | misplaced =>
    cases h with
    | misplacedComma hmem hcomma => exact ⟨_, hmem, hcomma, rfl⟩
  | trailing =>
    cases h with
    | trailingComma hmem hcomma => exact ⟨_, hmem, hcomma, rfl⟩

-- No comma is out of place where there is nothing to mix it with.
theorem not_unmixed_of_assemble {offset : Nat} (hblame : error.BlamesComma offset)
    (h : assemble false tokens = .error error) : ¬Unmixed tokens := by
  rintro (hcomma | hcombinator)
  · obtain ⟨comma, hmem, htrue, -⟩ := (fault_of_assemble h).exists_comma hblame
    rw [hcomma comma hmem] at htrue
    cases htrue
  · rw [assemble_of_uncombined hcombinator] at h
    obtain rfl := eq_emptyGroup_of_ofRun h
    cases hblame

-- Commas are of no account to a parse without lists if they are not mixed with combinators, and only then: either side
-- of the last combinator is parsed with lists.
theorem ofText_unlisted (recursive : Bool) (text : Text) :
    (∀ tree, ofText { recursive, list := false } text = .ok tree → ∃ tokens, Token.ofText text = .ok tokens ∧
      (tree.Listless ↔ Unmixed tokens) ∧
      (tree.tokens.map erased = tokens.filter (fun token => !token.isCombinator) ↔ Unmixed tokens) ∧
      ∀ left token right, tokens = left ++ token :: right → token.isCombinator = true →
        (∀ other ∈ right, other.isCombinator = false) →
          tree.tokens.map erased = tokens.filter (fun token => !token.delimits) ∧
          ∃ combinator leftTree rightTree, tree = .complex combinator leftTree rightTree ∧
            assemble true left = .ok (leftTree.map erased) ∧ assemble true right = .ok (rightTree.map erased)) ∧
    ∀ error offset, error.BlamesComma offset → ofText { recursive, list := false } text = .error error →
      ∃ tokens, Token.ofText text = .ok tokens ∧
        ((∃ comma ∈ tokens, comma.isComma = true ∧ comma.start = offset) ∧ ¬Unmixed tokens ∨
          recursive = true ∧ ∃ inner, Holds text inner ∧
            ofArgument maxNesting (longestChain false tokens) inner = .error error) := by
  refine ⟨fun tree h => ?_, fun error offset hblame h => ?_⟩
  · obtain ⟨tokens, htokens, hassemble⟩ := exists_assemble_of_ofText h
    have hunparsed := unparsed_of_ofText htokens
    have herased : (tree.map erased).tokens.map erased = tree.tokens.map erased := by simp [Tree.tokens_map]
    refine ⟨tokens, htokens, ?_, ?_, ?_⟩
    · rw [← Tree.listless_map erased, listless_iff_of_assemble hassemble]
    · rw [← herased, tokens_eq_iff_of_assemble hunparsed hassemble]
    · rintro left token right rfl htoken hright
      refine ⟨by rw [← herased, tokens_of_combined hunparsed htoken hright hassemble], ?_⟩
      obtain ⟨combinator, leftTree, rightTree, -, hleft, hrightTree, htree⟩ :=
        (assemble_combined_eq_ok_iff htoken hright).mp hassemble
      cases tree with
      | complex combinator leftTree rightTree =>
        obtain ⟨-, rfl, rfl⟩ := Tree.complex.inj htree
        exact ⟨combinator, leftTree, rightTree, rfl, hleft, hrightTree⟩
      | _ => cases htree
  · rcases bind_eq_error.mp h with htokens | ⟨tokens, htokens, hbuild⟩
    · rcases error_cases_of_ofText htokens with hmasked | ⟨left, start, rfl⟩ | ⟨tag, content, rfl⟩
      · obtain ⟨side, start, rfl⟩ := Masked.isImbalance_of_ofText hmasked
        cases hblame
      · cases hblame
      · cases hblame
    refine ⟨tokens, htokens, ?_⟩
    rcases error_cases_of_build htokens hbuild with rfl | hassemble | ⟨hrecursive, inner, hinner, hargument⟩
    · cases hblame
    · exact .inl ⟨(fault_of_assemble hassemble).exists_comma hblame, not_unmixed_of_assemble hblame hassemble⟩
    · rw [Nat.zero_add] at hargument
      exact .inr ⟨hrecursive, inner, hinner, hargument⟩

-- The combinator makes the comma before it separate two alternatives, or be out of place.
theorem ofText_unlisted_mixed : (∃ tree, ofText { list := false } "a,b".toList = .ok tree ∧ tree.Listless) ∧
    (∃ tree, ofText { list := false } "a,b c".toList = .ok tree ∧ ¬tree.Listless ∧ tree.tokens.length = 3 ∧
      ∃ combinator left right, tree = .complex combinator left right) ∧
    ofText { recursive := false, list := false } ",a b".toList = .error (.misplacedComma 0) ∧
    ∃ tokens, Token.ofText ",a b".toList = .ok tokens ∧ ¬Unmixed tokens := by
  have hlone : ∃ tree, ofText { list := false } "a,b".toList = .ok tree := ⟨_, rfl⟩
  have hmixed : ∃ tree, ofText { list := false } "a,b c".toList = .ok tree := ⟨_, rfl⟩
  have herror : ofText { recursive := false, list := false } ",a b".toList = .error (.misplacedComma 0) := rfl
  refine ⟨?_, ?_, herror, ?_⟩
  · obtain ⟨tree, h⟩ := hlone
    obtain ⟨tokens, htokens, hlistless, -⟩ := (ofText_unlisted true _).1 tree h
    obtain rfl := Except.ok.inj htokens
    exact ⟨tree, h, hlistless.mpr (by decide)⟩
  · obtain ⟨tree, h⟩ := hmixed
    obtain ⟨tokens, htokens, hlistless, -, hsides⟩ := (ofText_unlisted true _).1 tree h
    obtain rfl := Except.ok.inj htokens
    obtain ⟨hkept, combinator, left, right, htree, -⟩ := hsides [_, _, _] _ [_] rfl rfl (by decide)
    have hlength := congrArg List.length hkept
    rw [List.length_map] at hlength
    exact ⟨tree, h, fun hnone => absurd (hlistless.mp hnone) (by decide), hlength, combinator, left, right, htree⟩
  · obtain ⟨tokens, htokens, ⟨-, hmixed⟩ | ⟨hrecursive, -⟩⟩ := (ofText_unlisted false _).2 _ _ .misplaced herror
    · exact ⟨tokens, htokens, hmixed⟩
    · cases hrecursive

-- A selector without lists may still come with one.
theorem not_ofText_unlisted : ∃ tree comma tokens, ofText { list := false } "a,b c".toList = .ok tree ∧
    Token.ofText "a,b c".toList = .ok tokens ∧ comma ∈ tokens ∧ comma.isComma = true ∧ ¬tree.Listless ∧
    (∀ held ∈ tree.tokens, held.isComma = false) ∧
    ofText { list := false } ",a b".toList = .error (.misplacedComma 0) := by
  let comma : Token := ⟨.comma, [','], 1, 2⟩
  refine ⟨_, comma, _, rfl, rfl, List.mem_cons_of_mem _ List.mem_cons_self, rfl, fun h => h.1, ?_, rfl⟩
  decide

end Selector

end CssSelectors
