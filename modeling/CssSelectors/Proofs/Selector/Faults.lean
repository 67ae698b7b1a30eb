import CssSelectors.Proofs.Selector.Assembling
import CssSelectors.Proofs.Selector.Building

namespace CssSelectors.Selector

variable {tokens group left right : List Token} {token : Token} {tree : Selector} {error : Error}

-- What can be wrong with the order of tokens. A comma is blamed by its place.
inductive Fault (tokens : List Token) : Error → Prop
  | emptyGroup : Fault tokens .emptyGroup
  | misplacedComma {comma : Token} (hmem : comma ∈ tokens) (hcomma : comma.isComma = true) :
    Fault tokens (.misplacedComma comma.start)
  | trailingComma {comma : Token} (hmem : comma ∈ tokens) (hcomma : comma.isComma = true) :
    Fault tokens (.trailingComma comma.start)
  | unread {token : Token} (hmem : token ∈ tokens) (hcombinator : token.isCombinator = true)
    (hunread : Combinator.ofText? token.content = none) : Fault tokens (.malformed .combinator token.content)

theorem Fault.mono (h : Fault group error) (hgroup : group ⊆ tokens) : Fault tokens error := by
  cases h with
  | emptyGroup => exact .emptyGroup
  | misplacedComma hmem hcomma => exact .misplacedComma (hgroup hmem) hcomma
  | trailingComma hmem hcomma => exact .trailingComma (hgroup hmem) hcomma
  | unread hmem hcombinator hunread => exact .unread (hgroup hmem) hcombinator hunread

theorem eq_emptyGroup_of_ofRun (h : ofRun tokens = .error error) : error = .emptyGroup := by
  unfold ofRun at h
  split at h
  · exact (throw_eq_error.mp h).symm
  · simp at h
  · simp at h

theorem fault_of_readCombinator (hmem : token ∈ tokens) (hcombinator : token.isCombinator = true)
    (h : readCombinator token = .error error) : Fault tokens error := by
  unfold readCombinator at h
  split at h
  case h_1 => cases h
  case h_2 hunread =>
    obtain rfl := Except.error.inj h
    exact .unread hmem hcombinator hunread

theorem fault_of_ofChain {first : List Token} {more : List (Token × List Token)}
    (hmore : ∀ r ∈ more, r.1 ∈ tokens ∧ r.1.isCombinator = true) (h : ofChain first more = .error error) :
    Fault tokens error := by
  induction more with
  | nil =>
    obtain rfl := eq_emptyGroup_of_ofRun h
    exact .emptyGroup
  | cons r before ih =>
    obtain ⟨token, run⟩ := r
    obtain ⟨⟨hmem, hcombinator⟩, hbefore⟩ := List.forall_mem_cons.mp hmore
    rcases bind_eq_error.mp h with hread | ⟨combinator, -, h⟩
    · exact fault_of_readCombinator hmem hcombinator hread
    rcases bind_eq_error.mp h with hleft | ⟨leftTree, -, h⟩
    · exact ih hbefore hleft
    rcases bind_eq_error.mp h with hright | ⟨rightTree, -, h⟩
    · obtain rfl := eq_emptyGroup_of_ofRun hright
      exact .emptyGroup
    · simp at h

theorem fault_of_ofGroup (h : ofGroup tokens = .error error) : Fault tokens error := by
  refine fault_of_ofChain (fun r hr => ?_) h
  have hr := List.mem_reverse.mp hr
  exact ⟨subset_of_mem_more_runs hr List.mem_cons_self, (cuts_of_mem_more hr).1⟩

-- The comma before a group is there, unless the group is the first one and commas are still to come.
theorem fault_of_ofAlternatives {before : Nat} {more : List (Token × List Token)} (hgroup : group ⊆ tokens)
    (hmore : ∀ r ∈ more, r.1.isComma = true ∧ r.1 :: r.2 ⊆ tokens)
    (hbefore : more = [] → ∃ comma ∈ tokens, comma.isComma = true ∧ comma.start = before)
    (h : ofAlternatives before group more = .error error) : Fault tokens error := by
  induction more generalizing before group with
  | nil =>
    rw [ofAlternatives] at h
    split at h
    · obtain ⟨comma, hmem, hcomma, rfl⟩ := hbefore rfl
      obtain rfl := throw_eq_error.mp h
      exact .trailingComma hmem hcomma
    · rcases bind_eq_error.mp h with hfirst | ⟨first, -, h⟩
      · exact (fault_of_ofGroup hfirst).mono hgroup
      · simp at h
  | cons r more ih =>
    obtain ⟨comma, next⟩ := r
    obtain ⟨⟨hcomma, hsubset⟩, hmore⟩ := List.forall_mem_cons.mp hmore
    obtain ⟨hmem, hnext⟩ := List.cons_subset.mp hsubset
    rw [ofAlternatives] at h
    split at h
    · obtain rfl := throw_eq_error.mp h
      exact .misplacedComma hmem hcomma
    rcases bind_eq_error.mp h with hfirst | ⟨first, -, h⟩
    · exact (fault_of_ofGroup hfirst).mono hgroup
    rcases bind_eq_error.mp h with hrest | ⟨trees, -, h⟩
    · exact ih hnext hmore (fun _ => ⟨comma, hmem, hcomma, rfl⟩) hrest
    · simp at h

theorem fault_of_ofList (h : ofList tokens = .error error) : Fault tokens error := by
  have hgroup : (runs Token.isComma tokens).1 ⊆ tokens := subset_of_first_runs
  have hmore (r : Token × List Token) (hr : r ∈ (runs Token.isComma tokens).2) :
      r.1.isComma = true ∧ r.1 :: r.2 ⊆ tokens := ⟨(cuts_of_mem_more hr).1, subset_of_mem_more_runs hr⟩
  unfold ofList at h
  rcases hruns : runs Token.isComma tokens with ⟨group, commas⟩
  rw [hruns] at h hgroup hmore
  cases commas with
  | nil => exact (fault_of_ofGroup h).mono hgroup
  | cons comma commas =>
    rcases bind_eq_error.mp h with htrees | ⟨trees, -, h⟩
    · exact fault_of_ofAlternatives hgroup hmore (by simp) htrees
    · simp at h

theorem fault_of_assemble {list : Bool} (h : assemble list tokens = .error error) : Fault tokens error := by
  cases list with
  | true => exact fault_of_ofList h
  | false =>
    rcases exists_last_cut Token.isCombinator tokens with hnone | ⟨left, token, right, rfl, htoken, hright⟩
    · rw [assemble_of_uncombined hnone] at h
      obtain rfl := eq_emptyGroup_of_ofRun h
      exact .emptyGroup
    · rw [assemble_of_combined htoken hright] at h
      rcases bind_eq_error.mp h with hread | ⟨combinator, -, h⟩
      · exact fault_of_readCombinator (by simp) htoken hread
      rcases bind_eq_error.mp h with hleft | ⟨leftTree, -, h⟩
      · exact (fault_of_ofList hleft).mono (List.subset_append_left _ _)
      rcases bind_eq_error.mp h with hright | ⟨rightTree, -, h⟩
      · exact (fault_of_ofList hright).mono fun token hmem => by simp [hmem]
      · simp at h

variable {argument : Nat → Text → Except Error Selector} {options : Options} {above : Nat}

-- What goes wrong with a selector is the length of its chain, the order of its tokens, or what one of them
-- has for an argument.
theorem exists_of_build_eq_error (h : build argument options above tokens = .error error) :
    error = .tooDeep maxChain ∨ assemble options.list tokens = .error error ∨ options.recursive = true ∧ ∃ token ∈ tokens,
      ∃ name written index subtree count inner, token.kind = .pseudoClass name (some written) index subtree ∧
        selectorIn? name written = some (count, inner) ∧
        argument (above + longestChain options.list tokens) inner = .error error := by
  rcases build_eq_error_iff.mp h with ⟨-, rfl⟩ | ⟨-, hassemble | ⟨bare, hbare, hrecursive, hmapM⟩⟩
  · exact .inl rfl
  · exact .inr (.inl hassemble)
  · obtain ⟨token, hmem, htoken⟩ := Tree.exists_of_mapM_eq_error hmapM
    obtain ⟨name, written, index, subtree, count, inner, hkind, hfound, hinner⟩ := exists_of_attach_eq_error htoken
    obtain ⟨given, hgiven, hsame⟩ := exists_kind_of_assemble hbare hmem
    exact .inr (.inr ⟨hrecursive, given, hgiven, name, written, index, subtree, count, inner, hsame ▸ hkind, hfound, hinner⟩)

end CssSelectors.Selector
