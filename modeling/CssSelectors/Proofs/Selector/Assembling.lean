import CssSelectors.Proofs.Outcome
import CssSelectors.Proofs.Selector.Linear
import CssSelectors.Selector.Assembly

namespace CssSelectors

section

variable {α : Type} {cuts : α → Bool}

theorem runs_eq_self {xs : List α} (h : ∀ x ∈ xs, cuts x = false) : runs cuts xs = (xs, []) := by
  induction xs with
  | nil => rfl
  | cons x xs ih =>
    obtain ⟨hx, hxs⟩ := List.forall_mem_cons.mp h
    simp [runs, ih hxs, hx]

theorem runs_append_cons (xs : List α) {x : α} (h : cuts x = true) (ys : List α) :
    runs cuts (xs ++ x :: ys) =
      ((runs cuts xs).1, (runs cuts xs).2 ++ (x, (runs cuts ys).1) :: (runs cuts ys).2) := by
  induction xs with
  | nil => simp [runs, h]
  | cons z xs ih =>
    rw [List.cons_append, runs, runs, ih]
    cases hz : cuts z with
    | true => simp
    | false => simp

theorem joinRuns_cons (first : List α) (x : α) (run : List α) (more : List (α × List α)) :
    joinRuns first ((x, run) :: more) = first ++ x :: joinRuns run more := by
  simp [joinRuns]

theorem joinRuns_concat (first : List α) (more : List (α × List α)) (x : α) (run : List α) :
    joinRuns first (more ++ [(x, run)]) = joinRuns first more ++ x :: run := by
  simp [joinRuns]

theorem subset_of_first_runs : (runs cuts xs).1 ⊆ xs := by
  intro x hx
  rw [← joinRuns_runs cuts xs]
  exact List.mem_append_left _ hx

theorem subset_of_mem_more_runs {r : α × List α} (h : r ∈ (runs cuts xs).2) : r.1 :: r.2 ⊆ xs := by
  intro x hx
  rw [← joinRuns_runs cuts xs]
  exact List.mem_append_right _ (List.mem_flatMap.mpr ⟨r, h, hx⟩)

-- A list is cut at the last of its cuts, if it has any.
theorem exists_last_cut (cuts : α → Bool) (xs : List α) : (∀ x ∈ xs, cuts x = false) ∨
    ∃ left x right, xs = left ++ x :: right ∧ cuts x = true ∧ ∀ y ∈ right, cuts y = false := by
  induction xs with
  | nil => exact .inl (by simp)
  | cons x xs ih =>
    rcases ih with hnone | ⟨left, y, right, rfl, hy, hright⟩
    · cases hx : cuts x with
      | true => exact .inr ⟨[], x, xs, rfl, hx, hnone⟩
      | false => exact .inl (List.forall_mem_cons.mpr ⟨hx, hnone⟩)
    · exact .inr ⟨x :: left, y, right, rfl, hy, hright⟩

end

namespace Selector

open Token

variable {tree : Selector} {tokens left right : List Token} {token : Token}

theorem readCombinator_eq_ok {combinator : Combinator} :
    readCombinator token = .ok combinator ↔ token.content = combinator.text := by
  rw [← Combinator.ofText?_eq_some_iff, readCombinator]
  cases Combinator.ofText? token.content with
  | none => simp
  | some found => simp

theorem ofGroup_of_uncombined (h : ∀ token ∈ tokens, token.isCombinator = false) : ofGroup tokens = ofRun tokens := by
  rw [ofGroup, runs_eq_self h]
  rfl

-- The last combinator joins everything before it with a run.
theorem ofGroup_of_combined (htoken : token.isCombinator = true) (hright : ∀ other ∈ right, other.isCombinator = false) :
    ofGroup (left ++ token :: right) = do
      let combinator ← readCombinator token
      let leftTree ← ofGroup left
      let rightTree ← ofRun right
      return .complex combinator leftTree rightTree := by
  unfold ofGroup
  rw [runs_append_cons left htoken, runs_eq_self hright]
  simp only [List.reverse_append, List.reverse_singleton, List.singleton_append, ofChain]

theorem ofList_of_unseparated (h : ∀ token ∈ tokens, token.isComma = false) : ofList tokens = ofGroup tokens := by
  rw [ofList, runs_eq_self h]

-- What is no list is one run if it has no combinator.
theorem assemble_of_uncombined (h : ∀ token ∈ tokens, token.isCombinator = false) : assemble false tokens = ofRun tokens := by
  unfold assemble
  rw [runs_eq_self h]
  rfl

-- Otherwise either side of the last combinator is taken for a list.
theorem assemble_of_combined (htoken : token.isCombinator = true) (hright : ∀ other ∈ right, other.isCombinator = false) :
    assemble false (left ++ token :: right) = do
      let combinator ← readCombinator token
      let leftTree ← ofList left
      let rightTree ← ofList right
      return .complex combinator leftTree rightTree := by
  have hjoin := joinRuns_runs isCombinator left
  unfold assemble
  rw [runs_append_cons left htoken, runs_eq_self hright]
  simp only [Bool.false_eq_true, if_false, List.reverse_append, List.reverse_singleton, List.singleton_append,
    List.reverse_reverse, hjoin]

theorem assemble_combined_eq_ok_iff (htoken : token.isCombinator = true)
    (hright : ∀ other ∈ right, other.isCombinator = false) : assemble false (left ++ token :: right) = .ok tree ↔
      ∃ combinator leftTree rightTree, token.content = combinator.text ∧ ofList left = .ok leftTree ∧
        ofList right = .ok rightTree ∧ tree = .complex combinator leftTree rightTree := by
  rw [assemble_of_combined htoken hright]
  simp only [bind_eq_ok, pure_eq_ok, readCombinator_eq_ok, eq_comm (a := tree)]
  constructor
  · rintro ⟨combinator, hcontent, leftTree, hleft, rightTree, hrightTree, htree⟩
    exact ⟨combinator, leftTree, rightTree, hcontent, hleft, hrightTree, htree⟩
  · rintro ⟨combinator, leftTree, rightTree, hcontent, hleft, hrightTree, htree⟩
    exact ⟨combinator, hcontent, leftTree, hleft, rightTree, hrightTree, htree⟩

theorem linear_of_ofRun (h : ofRun tokens = .ok tree) : linear tree = tokens := by
  match tokens with
  | [] => simp [ofRun] at h
  | [token] =>
    obtain rfl := pure_eq_ok.mp h
    rw [linear]
  | token :: next :: more =>
    obtain rfl := pure_eq_ok.mp h
    rw [linear]

theorem block_of_ofRun (htokens : ∀ token ∈ tokens, token.delimits = false) (h : ofRun tokens = .ok tree) :
    Block tree := by
  match tokens with
  | [] => simp [ofRun] at h
  | [token] =>
    obtain rfl := pure_eq_ok.mp h
    exact .leaf (htokens token List.mem_cons_self)
  | token :: next :: more =>
    obtain rfl := pure_eq_ok.mp h
    exact .compound (by simp) htokens

theorem ofRun_linear (h : Block tree) : ofRun (linear tree) = .ok tree := by
  cases h with
  | leaf _ =>
    rw [linear]
    rfl
  | @compound tokens hlength _ =>
    rw [linear]
    match tokens, hlength with
    | token :: next :: more, _ => rfl

-- The invariant is that everything before the last combinator stands on its left.
theorem chained_of_ofChain {first : List Token} {more : List (Token × List Token)}
    (hfirst : ∀ token ∈ first, token.delimits = false)
    (hmore : ∀ r ∈ more, r.1.isCombinator = true ∧ ∀ token ∈ r.2, token.delimits = false)
    (h : ofChain first more = .ok tree) :
    Chained tree ∧ (joinRuns first more.reverse).map kept = linear tree := by
  induction more generalizing tree with
  | nil =>
    have hblock := block_of_ofRun hfirst h
    refine ⟨.block hblock, ?_⟩
    rw [linear_of_ofRun h, List.reverse_nil, joinRuns, List.flatMap_nil, List.append_nil]
    exact map_kept_eq_self hfirst
  | cons last more ih =>
    obtain ⟨token, run⟩ := last
    obtain ⟨⟨htoken, hrun⟩, hmore⟩ := List.forall_mem_cons.mp hmore
    rw [ofChain] at h
    simp only [bind_eq_ok, pure_eq_ok] at h
    obtain ⟨combinator, hcombinator, left, hleft, right, hright, rfl⟩ := h
    obtain ⟨hchained, hlinear⟩ := ih hmore hleft
    refine ⟨.complex combinator hchained (block_of_ofRun hrun hright), ?_⟩
    have htoken : token.kept = ofCombinator combinator :=
      kept_eq_ofCombinator_iff.mpr ⟨htoken, readCombinator_eq_ok.mp hcombinator⟩
    rw [List.reverse_cons, joinRuns_concat, List.map_append, List.map_cons, hlinear, htoken, map_kept_eq_self hrun,
      linear, linear_of_ofRun hright]

theorem chained_of_ofGroup (htokens : ∀ token ∈ tokens, token.isComma = false) (h : ofGroup tokens = .ok tree) :
    Chained tree ∧ tokens.map kept = linear tree := by
  have hjoin := joinRuns_runs isCombinator tokens
  have hdelimits : ∀ token ∈ tokens, token.isCombinator = false → token.delimits = false := by
    intro token hmem htoken
    rw [delimits, htokens token hmem, htoken]
    rfl
  unfold ofGroup at h
  have hchained := chained_of_ofChain (fun token htoken => ?_) (fun r hr => ?_) h
  · rwa [List.reverse_reverse, hjoin] at hchained
  · exact hdelimits token (subset_of_first_runs htoken) (cuts_of_mem_first htoken)
  · have hr := List.mem_reverse.mp hr
    obtain ⟨hcombinator, hrun⟩ := cuts_of_mem_more hr
    refine ⟨hcombinator, fun token htoken => hdelimits token ?_ (hrun token htoken)⟩
    exact subset_of_mem_more_runs hr (List.mem_cons_of_mem _ htoken)

-- The invariant is that the alternatives so far make up the tokens up to a comma.
theorem chained_of_ofAlternatives {before : Nat} {group : List Token} {more : List (Token × List Token)}
    {trees : List Selector} (hgroup : ∀ token ∈ group, token.isComma = false)
    (hmore : ∀ r ∈ more, r.1.isComma = true ∧ ∀ token ∈ r.2, token.isComma = false)
    (h : ofAlternatives before group more = .ok trees) :
    trees.length = more.length + 1 ∧ (∀ tree ∈ trees, Chained tree) ∧
      (joinRuns group more).map kept = linearAll trees := by
  induction more generalizing before group trees with
  | nil =>
    rw [ofAlternatives] at h
    split at h
    · simp at h
    · simp only [bind_eq_ok, pure_eq_ok] at h
      obtain ⟨tree, htree, rfl⟩ := h
      obtain ⟨hchained, hlinear⟩ := chained_of_ofGroup hgroup htree
      refine ⟨rfl, by simpa using hchained, ?_⟩
      rw [joinRuns, List.flatMap_nil, List.append_nil, hlinear, linearAll]
  | cons next more ih =>
    obtain ⟨comma, next⟩ := next
    obtain ⟨⟨hcomma, hnext⟩, hmore⟩ := List.forall_mem_cons.mp hmore
    rw [ofAlternatives] at h
    split at h
    · simp at h
    · simp only [bind_eq_ok, pure_eq_ok] at h
      obtain ⟨tree, htree, trees, htrees, rfl⟩ := h
      obtain ⟨hchained, hlinear⟩ := chained_of_ofGroup hgroup htree
      obtain ⟨hlength, hall, hlinears⟩ := ih hnext hmore htrees
      refine ⟨by rw [List.length_cons, List.length_cons, hlength], List.forall_mem_cons.mpr ⟨hchained, hall⟩, ?_⟩
      obtain ⟨second, trees, rfl⟩ := List.exists_cons_of_length_eq_add_one hlength
      rw [joinRuns_cons, List.map_append, List.map_cons, hlinear, hlinears, kept_eq_separator_iff.mpr hcomma,
        linearAll_cons_cons]

theorem wellShaped_of_ofList (h : ofList tokens = .ok tree) : WellShaped tree ∧ tokens.map kept = linear tree := by
  have hjoin := joinRuns_runs isComma tokens
  have hfirst (token : Token) : token ∈ (runs isComma tokens).1 → token.isComma = false := cuts_of_mem_first
  have hmore (r : Token × List Token) : r ∈ (runs isComma tokens).2 →
      r.1.isComma = true ∧ ∀ token ∈ r.2, token.isComma = false := cuts_of_mem_more
  unfold ofList at h
  rcases hruns : runs isComma tokens with ⟨group, commas⟩
  rw [hruns] at h hjoin hfirst hmore
  cases commas with
  | nil =>
    rw [joinRuns, List.flatMap_nil, List.append_nil] at hjoin
    obtain rfl : group = tokens := hjoin
    obtain ⟨hchained, hlinear⟩ := chained_of_ofGroup hfirst h
    exact ⟨.single hchained, hlinear⟩
  | cons comma commas =>
    simp only [bind_eq_ok, pure_eq_ok] at h
    obtain ⟨trees, htrees, rfl⟩ := h
    obtain ⟨hlength, hall, hlinear⟩ := chained_of_ofAlternatives hfirst hmore htrees
    rw [hjoin] at hlinear
    refine ⟨.list ?_ hall, hlinear⟩
    rw [hlength, List.length_cons]
    omega

theorem ofGroup_of_linear (h : Chained tree) (hkept : tokens.map kept = linear tree) : ofGroup tokens = .ok tree := by
  induction h generalizing tokens with
  | block htree =>
    obtain rfl := htree.map_kept_eq_iff.mp hkept
    have hnone : ∀ token ∈ linear _, token.isCombinator = false :=
      fun token hmem => isCombinator_eq_false (htree.delimits_of_mem token hmem)
    rw [ofGroup_of_uncombined hnone]
    exact ofRun_linear htree
  | @complex left right combinator hleft hright ih =>
    rw [linear] at hkept
    obtain ⟨before, after, rfl, hbefore, hafter⟩ := List.map_eq_append_iff.mp hkept
    obtain ⟨token, after, rfl, htoken, hafter⟩ := List.map_eq_cons_iff.mp hafter
    obtain ⟨htoken, hcontent⟩ := kept_eq_ofCombinator_iff.mp htoken
    obtain rfl := hright.map_kept_eq_iff.mp hafter
    have hnone : ∀ token ∈ linear right, token.isCombinator = false :=
      fun token hmem => isCombinator_eq_false (hright.delimits_of_mem token hmem)
    rw [ofGroup_of_combined htoken hnone, readCombinator_eq_ok.mpr hcontent, ih hbefore, ofRun_linear hright]
    rfl

theorem ofAlternatives_of_linear {trees : List Selector} (hne : trees ≠ []) (h : ∀ tree ∈ trees, Chained tree)
    (hkept : tokens.map kept = linearAll trees) (before : Nat) :
    ofAlternatives before (runs isComma tokens).1 (runs isComma tokens).2 = .ok trees := by
  induction trees generalizing tokens before with
  | nil => exact absurd rfl hne
  | cons tree trees ih =>
    obtain ⟨hchained, hall⟩ := List.forall_mem_cons.mp h
    -- The tokens of the first alternative hold no comma, so they are the first group.
    have hfirst {group : List Token} (hgroup : group.map kept = linear tree) :
        runs isComma group = (group, []) ∧ group.isEmpty = false := by
      constructor
      · apply runs_eq_self
        intro token hmem
        rw [← isComma_kept]
        exact hchained.isComma_of_mem _ (hgroup ▸ List.mem_map_of_mem hmem)
      · rw [List.isEmpty_eq_false_iff]
        rintro rfl
        exact hchained.linear_ne_nil hgroup.symm
    cases trees with
    | nil =>
      rw [linearAll] at hkept
      obtain ⟨hruns, hempty⟩ := hfirst hkept
      rw [hruns, ofAlternatives, hempty, ofGroup_of_linear hchained hkept]
      rfl
    | cons next trees =>
      rw [linearAll_cons_cons] at hkept
      obtain ⟨group, after, rfl, hgroup, hafter⟩ := List.map_eq_append_iff.mp hkept
      obtain ⟨comma, after, rfl, hcomma, hafter⟩ := List.map_eq_cons_iff.mp hafter
      obtain ⟨hruns, hempty⟩ := hfirst hgroup
      have hmore := ih (by simp) hall hafter comma.start
      rw [runs_append_cons group (kept_eq_separator_iff.mp hcomma), hruns]
      dsimp only
      rw [List.nil_append, ofAlternatives, hempty, ofGroup_of_linear hchained hgroup, hmore]
      rfl

-- The trees that tokens can make up are those whose tokens they are.
theorem ofList_eq_ok_iff : ofList tokens = .ok tree ↔ WellShaped tree ∧ tokens.map kept = linear tree := by
  refine ⟨wellShaped_of_ofList, ?_⟩
  rintro ⟨hshape, hkept⟩
  cases hshape with
  | single hchained =>
    have hnone : ∀ token ∈ tokens, token.isComma = false := by
      intro token hmem
      rw [← isComma_kept]
      exact hchained.isComma_of_mem _ (hkept ▸ List.mem_map_of_mem hmem)
    rw [ofList_of_unseparated hnone]
    exact ofGroup_of_linear hchained hkept
  | @list trees hlength hall =>
    have hne : trees ≠ [] := by
      rintro rfl
      simp at hlength
    have htrees := ofAlternatives_of_linear hne hall hkept 0
    obtain ⟨hcommas, _, _⟩ :=
      chained_of_ofAlternatives (fun token hmem => cuts_of_mem_first hmem) (fun r hr => cuts_of_mem_more hr) htrees
    unfold ofList
    rcases hruns : runs isComma tokens with ⟨group, commas⟩
    rw [hruns] at htrees hcommas
    cases commas with
    | nil =>
      simp only [List.length_nil] at hcommas
      omega
    | cons comma commas =>
      dsimp only
      rw [htrees]
      rfl

-- A tree has the order of the tokens that make it up. Only tokens that make up one run, commas
-- among them, are kept as they are without the delimiters being reduced.
theorem linear_of_assemble {list : Bool} (h : assemble list tokens = .ok tree) :
    linear tree = tokens.map kept ∨ linear tree = tokens := by
  cases list with
  | true => exact .inl (ofList_eq_ok_iff.mp h).2.symm
  | false =>
    rcases exists_last_cut isCombinator tokens with hnone | ⟨left, token, right, rfl, htoken, hright⟩
    · rw [assemble_of_uncombined hnone] at h
      exact .inr (linear_of_ofRun h)
    · obtain ⟨combinator, leftTree, rightTree, hcontent, hleft, hrightTree, rfl⟩ :=
        (assemble_combined_eq_ok_iff htoken hright).mp h
      have hkept : token.kept = ofCombinator combinator := kept_eq_ofCombinator_iff.mpr ⟨htoken, hcontent⟩
      rw [List.map_append, List.map_cons, hkept, (ofList_eq_ok_iff.mp hleft).2, (ofList_eq_ok_iff.mp hrightTree).2, linear]
      exact .inl rfl

theorem exists_kind_of_assemble {list : Bool} (h : assemble list tokens = .ok tree) {token : Token}
    (hmem : token ∈ tree.tokens) : ∃ given ∈ tokens, token.kind = given.kind := by
  have hmem := mem_linear tree hmem
  rcases linear_of_assemble h with hlinear | hlinear
  · rw [hlinear] at hmem
    obtain ⟨given, hgiven, rfl⟩ := List.mem_map.mp hmem
    exact ⟨given, hgiven, kind_kept given⟩
  · exact ⟨token, hlinear ▸ hmem, rfl⟩

-- Where there are no commas, it makes no difference whether they are of account.
theorem assemble_eq_ofGroup (list : Bool) (h : ∀ token ∈ tokens, token.isComma = false) :
    assemble list tokens = ofGroup tokens := by
  cases list with
  | true => exact ofList_of_unseparated h
  | false =>
    rcases exists_last_cut isCombinator tokens with hnone | ⟨left, token, right, rfl, htoken, hright⟩
    · rw [assemble_of_uncombined hnone, ofGroup_of_uncombined hnone]
    · obtain ⟨hleft, hlast⟩ := List.forall_mem_append.mp h
      obtain ⟨-, hlast⟩ := List.forall_mem_cons.mp hlast
      rw [assemble_of_combined htoken hright, ofGroup_of_combined htoken hright, ofList_of_unseparated hleft,
        ofList_of_unseparated hlast, ofGroup_of_uncombined hright]

end Selector

end CssSelectors
