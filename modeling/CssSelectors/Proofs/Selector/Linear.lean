import CssSelectors.Proofs.Tree.Mapping
import CssSelectors.Token.Basic

namespace CssSelectors

namespace Token

variable {token : Token} {combinator : Combinator}

-- Whether a token stands between others and not for a part of a compound selector.
def delimits (token : Token) : Bool := token.isComma || token.isCombinator

-- The comma and the combinators of trees, which have no place.
def separator : Token := ⟨.comma, [','], 0, 0⟩

def ofCombinator (combinator : Combinator) : Token := ⟨.combinator, combinator.text, 0, 0⟩

-- What a tree keeps of a token: of a comma that it is one, of a combinator its text, and
-- everything of any other token.
def kept (token : Token) : Token :=
  match token.kind with
  | .comma => separator
  | .combinator => { token with start := 0, stop := 0 }
  | _ => token

theorem kept_eq_self (h : token.delimits = false) : token.kept = token := by
  obtain ⟨kind, content, start, stop⟩ := token
  cases kind <;> first | rfl | simp [delimits, isComma, isCombinator, tag, Kind.tag] at h

theorem map_kept_eq_self {tokens : List Token} (h : ∀ token ∈ tokens, token.delimits = false) :
    tokens.map kept = tokens :=
  (List.map_congr_left fun token hmem => kept_eq_self (h token hmem)).trans (List.map_id tokens)

@[simp] theorem kind_kept (token : Token) : token.kept.kind = token.kind := by
  obtain ⟨kind, content, start, stop⟩ := token
  cases kind <;> rfl

@[simp] theorem tag_kept (token : Token) : token.kept.tag = token.tag := by
  rw [tag, tag, kind_kept]

@[simp] theorem isComma_kept (token : Token) : token.kept.isComma = token.isComma := by
  rw [isComma, isComma, tag_kept]

@[simp] theorem isCombinator_kept (token : Token) : token.kept.isCombinator = token.isCombinator := by
  rw [isCombinator, isCombinator, tag_kept]

@[simp] theorem delimits_kept (token : Token) : token.kept.delimits = token.delimits := by
  rw [delimits, delimits, isComma_kept, isCombinator_kept]

theorem kept_eq_separator_iff : token.kept = separator ↔ token.isComma = true := by
  constructor
  · intro h
    rw [← isComma_kept, h]
    rfl
  · intro h
    obtain ⟨kind, content, start, stop⟩ := token
    cases kind <;> first | rfl | simp [isComma, tag, Kind.tag] at h

theorem kept_eq_ofCombinator_iff :
    token.kept = ofCombinator combinator ↔ token.isCombinator = true ∧ token.content = combinator.text := by
  obtain ⟨kind, content, start, stop⟩ := token
  cases kind <;> simp [kept, separator, ofCombinator, isCombinator, tag, Kind.tag]

theorem isComma_eq_false (h : token.delimits = false) : token.isComma = false := (Bool.or_eq_false_iff.mp h).1

theorem isCombinator_eq_false (h : token.delimits = false) : token.isCombinator = false := (Bool.or_eq_false_iff.mp h).2

theorem isCombinator_eq_false_of_isComma (h : token.isComma = true) : token.isCombinator = false := by
  obtain ⟨kind, content, start, stop⟩ := token
  cases kind <;> first | rfl | cases h

theorem isComma_eq_false_of_isCombinator (h : token.isCombinator = true) : token.isComma = false := by
  obtain ⟨kind, content, start, stop⟩ := token
  cases kind <;> first | rfl | cases h

end Token

namespace Selector

mutual

-- The tokens of a selector in order, with the combinators and commas between them.
def linear : Selector → List Token
  | .leaf token => [token]
  | .compound tokens => tokens
  | .complex combinator left right => linear left ++ .ofCombinator combinator :: linear right
  | .list alternatives => linearAll alternatives

def linearAll : List Selector → List Token
  | [] => []
  | [tree] => linear tree
  | tree :: more => linear tree ++ .separator :: linearAll more

end

theorem linearAll_cons_cons (tree next : Selector) (more : List Selector) :
    linearAll (tree :: next :: more) = linear tree ++ .separator :: linearAll (next :: more) := by
  rw [linearAll]
  simp

mutual

-- A selector is written as the tokens in its linear order are.
theorem textOf_linear (tree : Selector) : Token.textOf (linear tree) = tree.text := by
  cases tree with
  | leaf token => simp [linear, Token.textOf, text, Tree.render]
  | compound tokens => rw [linear, Token.textOf, text, Tree.render]
  | complex combinator left right =>
    have hleft := textOf_linear left
    have hright := textOf_linear right
    unfold Token.textOf text at hleft hright ⊢
    rw [linear, Tree.render, List.flatMap_append, List.flatMap_cons, hleft, hright, List.append_assoc]
    rfl
  | list alternatives => exact textOf_linearAll alternatives

theorem textOf_linearAll (trees : List Selector) :
    Token.textOf (linearAll trees) = Tree.renderAll Token.content trees := by
  cases trees with
  | nil => rfl
  | cons tree more =>
    have htree := textOf_linear tree
    have hmore := textOf_linearAll more
    cases more with
    | nil => exact htree
    | cons next more =>
      unfold Token.textOf text at *
      rw [linearAll_cons_cons, Tree.renderAll_cons_cons, List.flatMap_append, List.flatMap_cons, htree, hmore]
      rfl

end

mutual

theorem mem_linear {token : Token} (tree : Selector) (h : token ∈ tree.tokens) : token ∈ linear tree := by
  cases tree with
  | leaf token => rwa [linear]
  | compound tokens => rwa [linear]
  | complex combinator left right =>
    rw [linear]
    rcases List.mem_append.mp h with h | h
    · exact List.mem_append_left _ (mem_linear left h)
    · exact List.mem_append_right _ (List.mem_cons_of_mem _ (mem_linear right h))
  | list alternatives => exact mem_linearAll alternatives h

theorem mem_linearAll {token : Token} (trees : List Selector) (h : token ∈ Tree.tokensAll trees) :
    token ∈ linearAll trees := by
  cases trees with
  | nil => exact h
  | cons tree more =>
    rcases List.mem_append.mp h with h | h
    · have htree := mem_linear tree h
      cases more with
      | nil => exact htree
      | cons next more =>
        rw [linearAll_cons_cons]
        exact List.mem_append_left _ htree
    · have hmore := mem_linearAll more h
      cases more with
      | nil => simp [Tree.tokensAll] at h
      | cons next more =>
        rw [linearAll_cons_cons]
        exact List.mem_append_right _ (List.mem_cons_of_mem _ hmore)

end

-- What stands on the right of a combinator: a token or at least two tokens side by side, none of
-- which delimits anything.
inductive Block : Selector → Prop
  | leaf {token : Token} (htoken : token.delimits = false) : Block (.leaf token)
  | compound {tokens : List Token} (hlength : 2 ≤ tokens.length)
    (htokens : ∀ token ∈ tokens, token.delimits = false) : Block (.compound tokens)

-- What stands between commas.
inductive Chained : Selector → Prop
  | block {tree : Selector} (htree : Block tree) : Chained tree
  | complex {left right : Selector} (combinator : Combinator) (hleft : Chained left) (hright : Block right) :
    Chained (.complex combinator left right)

-- The shape of a whole tree: lists stand nowhere but at the root.
inductive WellShaped : Selector → Prop
  | single {tree : Selector} (htree : Chained tree) : WellShaped tree
  | list {alternatives : List Selector} (hlength : 2 ≤ alternatives.length)
    (halternatives : ∀ tree ∈ alternatives, Chained tree) : WellShaped (.list alternatives)

variable {tree : Selector} {tokens run : List Token}

namespace Block

theorem delimits_of_mem (h : Block tree) : ∀ token ∈ linear tree, token.delimits = false := by
  cases h with
  | leaf htoken => simpa [linear] using htoken
  | compound _ htokens => rwa [linear]

theorem linear_ne_nil (h : Block tree) : linear tree ≠ [] := by
  cases h with
  | leaf _ => simp [linear]
  | compound hlength _ =>
    rintro rfl
    simp at hlength

-- Such a selector keeps its tokens as they are.
theorem map_kept_eq_iff (h : Block tree) : tokens.map Token.kept = linear tree ↔ tokens = linear tree := by
  constructor
  · intro hmap
    have htokens : ∀ token ∈ tokens, token.delimits = false := by
      intro token hmem
      rw [← Token.delimits_kept]
      exact h.delimits_of_mem _ (hmap ▸ List.mem_map_of_mem hmem)
    rw [← hmap, Token.map_kept_eq_self htokens]
  · rintro rfl
    exact Token.map_kept_eq_self h.delimits_of_mem

-- Every run makes such a selector.
theorem exists_linear_eq (hne : run ≠ []) (hrun : ∀ token ∈ run, token.delimits = false) :
    ∃ tree, Block tree ∧ linear tree = run := by
  match run with
  | [] => exact absurd rfl hne
  | [token] => exact ⟨.leaf token, .leaf (hrun token List.mem_cons_self), by rw [linear]⟩
  | token :: next :: more => exact ⟨.compound (token :: next :: more), .compound (by simp) hrun, by rw [linear]⟩

end Block

namespace Chained

theorem isComma_of_mem (h : Chained tree) : ∀ token ∈ linear tree, token.isComma = false := by
  induction h with
  | block htree => exact fun token hmem => Token.isComma_eq_false (htree.delimits_of_mem token hmem)
  | complex combinator _ hright ih =>
    rw [linear]
    intro token hmem
    rcases List.mem_append.mp hmem with hmem | hmem
    · exact ih token hmem
    · rcases List.mem_cons.mp hmem with rfl | hmem
      · rfl
      · exact Token.isComma_eq_false (hright.delimits_of_mem token hmem)

theorem linear_ne_nil (h : Chained tree) : linear tree ≠ [] := by
  cases h with
  | block htree => exact htree.linear_ne_nil
  | complex combinator _ _ => simp [linear]

theorem map_kept_linear (h : Chained tree) : (linear tree).map Token.kept = linear tree := by
  induction h with
  | block htree => exact htree.map_kept_eq_iff.mpr rfl
  | complex combinator _ hright ih =>
    rw [linear, List.map_append, List.map_cons, ih, hright.map_kept_eq_iff.mpr rfl]
    rfl

end Chained

theorem map_kept_linearAll {trees : List Selector} (h : ∀ tree ∈ trees, Chained tree) :
    (linearAll trees).map Token.kept = linearAll trees := by
  induction trees with
  | nil => rfl
  | cons tree trees ih =>
    obtain ⟨hchained, hall⟩ := List.forall_mem_cons.mp h
    cases trees with
    | nil => rw [linearAll, hchained.map_kept_linear]
    | cons next trees =>
      rw [linearAll_cons_cons, List.map_append, List.map_cons, hchained.map_kept_linear, ih hall]
      rfl

-- The linear order of a tree holds no more of its tokens than the tree keeps.
theorem WellShaped.map_kept_linear (h : WellShaped tree) : (linear tree).map Token.kept = linear tree := by
  cases h with
  | single hchained => exact hchained.map_kept_linear
  | list _ hall => exact map_kept_linearAll hall

end Selector

end CssSelectors
