import CssSelectors.Proofs.Selector.Assembling
import CssSelectors.Proofs.Token.Retokenizing
import CssSelectors.Selector.Reading

namespace CssSelectors

open Token

theorem runs_map {α β : Type} (f : α → β) (cuts : β → Bool) (xs : List α) :
    runs cuts (xs.map f) = ((runs (fun x => cuts (f x)) xs).1.map f,
      (runs (fun x => cuts (f x)) xs).2.map (Prod.map f (List.map f))) := by
  induction xs with
  | nil => rfl
  | cons x xs ih =>
    rw [List.map_cons, runs, runs, ih]
    cases h : cuts (f x) with
    | true => simp
    | false => simp

namespace Selector

-- Selectors regardless of where their tokens stand. Subtrees keep their places.
def unplaced (tree : Selector) : Selector := tree.map Token.unplaced

theorem text_unplaced (tree : Selector) : tree.unplaced.text = tree.text :=
  Tree.render_map Token.unplaced Token.content tree

theorem ofSelector_unplaced (tree : Selector) : Specificity.ofSelector tree.unplaced = Specificity.ofSelector tree := by
  refine Specificity.ofSelector_map (fun token => ?_) tree
  obtain ⟨kind, content, start, stop⟩ := token
  rw [Token.unplaced, Specificity.ofToken, Specificity.ofToken]

theorem ofRun_map_unplaced (tokens : List Token) :
    ofRun (tokens.map Token.unplaced) = unplaced <$> ofRun tokens := by
  match tokens with
  | [] => rfl
  | [token] => rfl
  | token :: next :: tokens => rfl

theorem ofChain_map_unplaced (first : List Token) (more : List (Token × List Token)) :
    ofChain (first.map Token.unplaced) (more.map (Prod.map Token.unplaced (List.map Token.unplaced))) =
      unplaced <$> ofChain first more := by
  induction more with
  | nil => exact ofRun_map_unplaced first
  | cons last more ih =>
    obtain ⟨token, run⟩ := last
    rw [List.map_cons, Prod.map, ofChain, ofChain, ih, ofRun_map_unplaced]
    have hread : readCombinator token.unplaced = readCombinator token := rfl
    rw [hread]
    simp [unplaced, Tree.map]

theorem ofGroup_map_unplaced (tokens : List Token) :
    ofGroup (tokens.map Token.unplaced) = unplaced <$> ofGroup tokens := by
  rw [ofGroup, runs_map]
  dsimp only
  rw [← List.map_reverse]
  exact ofChain_map_unplaced _ _

-- Errors about commas tell their places, so only the trees are the same from here on.
theorem ofAlternatives_map_unplaced (before before' : Nat) (group : List Token) (more : List (Token × List Token)) :
    (ofAlternatives before' (group.map Token.unplaced)
      (more.map (Prod.map Token.unplaced (List.map Token.unplaced)))).toOption =
      (ofAlternatives before group more).toOption.map (List.map unplaced) := by
  induction more generalizing before before' group with
  | nil =>
    rw [List.map_nil, ofAlternatives, ofAlternatives, List.isEmpty_map, ofGroup_map_unplaced]
    split
    · rfl
    · simp [Function.comp_def]
  | cons next more ih =>
    obtain ⟨comma, next⟩ := next
    rw [List.map_cons, Prod.map, ofAlternatives, ofAlternatives, List.isEmpty_map, ofGroup_map_unplaced]
    split
    · rfl
    · simp [ih comma.start, Function.comp_def]

theorem ofList_map_unplaced (tokens : List Token) :
    (ofList (tokens.map Token.unplaced)).toOption = (ofList tokens).toOption.map unplaced := by
  unfold ofList
  rw [runs_map]
  have hcomma : (fun token => isComma token.unplaced) = isComma := rfl
  rw [hcomma]
  rcases runs isComma tokens with ⟨group, commas⟩
  cases commas with
  | nil =>
    have hgroup := congrArg Except.toOption (ofGroup_map_unplaced group)
    rwa [toOption_map] at hgroup
  | cons comma commas =>
    have hcommas := ofAlternatives_map_unplaced 0 0 group (comma :: commas)
    rw [List.map_cons] at hcommas ⊢
    simp only [toOption_bind, toOption_pure, hcommas]
    simp only [Option.map_bind, Option.bind_map, Function.comp_def, Option.map_some, unplaced, Tree.map,
      Tree.mapAll_eq_map]
    rfl

theorem assemble_map_unplaced (list : Bool) (tokens : List Token) :
    (assemble list (tokens.map Token.unplaced)).toOption = (assemble list tokens).toOption.map unplaced := by
  cases list with
  | true => exact ofList_map_unplaced tokens
  | false =>
    rcases exists_last_cut isCombinator tokens with hnone | ⟨left, token, right, rfl, htoken, hright⟩
    · have hnone' : ∀ token ∈ tokens.map Token.unplaced, token.isCombinator = false := List.forall_mem_map.mpr hnone
      rw [assemble_of_uncombined hnone, assemble_of_uncombined hnone', ofRun_map_unplaced, toOption_map]
    · have hright' : ∀ other ∈ right.map Token.unplaced, other.isCombinator = false := List.forall_mem_map.mpr hright
      have htoken' : token.unplaced.isCombinator = true := htoken
      have hread : readCombinator token.unplaced = readCombinator token := rfl
      rw [List.map_append, List.map_cons, assemble_of_combined htoken' hright', assemble_of_combined htoken hright, hread]
      simp [ofList_map_unplaced, unplaced, Tree.map, Function.comp_def, Option.bind_map]

theorem longestChain_map_unplaced (list : Bool) (tokens : List Token) :
    longestChain list (tokens.map Token.unplaced) = longestChain list tokens := by
  have hcount (group : List Token) : (group.map Token.unplaced).countP isCombinator = group.countP isCombinator :=
    List.countP_map ..
  unfold longestChain
  rw [runs_map]
  have hcomma : (fun token => isComma token.unplaced) = isComma := rfl
  rw [hcomma]
  simp only [hcount, List.foldr_map, Prod.map]

theorem attach_unplaced (parse : Text → Except Error Selector) (token : Token) :
    attach parse token.unplaced = Token.unplaced <$> attach parse token := by
  obtain ⟨kind, content, start, stop⟩ := token
  unfold attach Token.unplaced
  cases kind with
  | pseudoClass name argument index subtree =>
    cases argument with
    | none => rfl
    | some argument =>
      dsimp only
      cases selectorIn? name argument with
      | none => rfl
      | some found => simp
  | _ => rfl

-- Where tokens stand makes no difference to the selector that they make up.
theorem build_map_unplaced (argument : Nat → Text → Except Error Selector) (options : Options) (above : Nat)
    (tokens : List Token) :
    (build argument options above (tokens.map Token.unplaced)).toOption =
      (build argument options above tokens).toOption.map unplaced := by
  have hattach (parse : Text → Except Error Selector) (tree : Selector) :
      tree.unplaced.mapM (attach parse) = unplaced <$> tree.mapM (attach parse) := by
    unfold unplaced
    rw [Tree.mapM_map, Tree.map_mapM]
    simp only [attach_unplaced]
  unfold build
  rw [longestChain_map_unplaced]
  dsimp only
  split
  · simp
  · split
    · simp only [toOption_bind, assemble_map_unplaced, Option.bind_map, Option.map_bind]
      congr 1
      funext tree
      exact (congrArg Except.toOption (hattach _ tree)).trans (toOption_map _ _)
    · simp [assemble_map_unplaced]

end Selector

end CssSelectors
