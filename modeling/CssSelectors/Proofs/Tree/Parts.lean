import CssSelectors.Proofs.Tree.Traversal

namespace CssSelectors

-- What a tree is written with: a token that it holds, the combinator between two sides, or the comma between two
-- alternatives.
inductive Part (α : Type) where
  | held (token : α)
  | joint (combinator : Combinator)
  | separator

namespace Part

variable {α β : Type}

def held? : Part α → Option α
  | held token => some token
  | joint _ => none
  | separator => none

def map (f : α → β) : Part α → Part β
  | held token => held (f token)
  | joint combinator => joint combinator
  | separator => separator

@[simp] theorem held?_held (token : α) : (held token).held? = some token := rfl

@[simp] theorem held?_joint (combinator : Combinator) : (joint combinator : Part α).held? = none := rfl

@[simp] theorem held?_separator : (separator : Part α).held? = none := rfl

end Part

namespace Tree

variable {α β : Type}

mutual

-- The parts of a tree from left to right.
def parts : Tree α → List (Part α)
  | leaf token => [.held token]
  | compound tokens => tokens.map .held
  | complex combinator left right => left.parts ++ .joint combinator :: right.parts
  | list alternatives => partsAll alternatives

def partsAll : List (Tree α) → List (Part α)
  | [] => []
  | [tree] => tree.parts
  | tree :: more => tree.parts ++ .separator :: partsAll more

end

theorem partsAll_cons_cons (tree next : Tree α) (more : List (Tree α)) :
    partsAll (tree :: next :: more) = tree.parts ++ .separator :: partsAll (next :: more) := by
  rw [partsAll]
  simp

mutual

-- The tokens of a tree are those that it holds.
theorem tokens_eq_filterMap (tree : Tree α) : tree.tokens = tree.parts.filterMap Part.held? := by
  cases tree with
  | leaf token => rfl
  | compound tokens => simp [Tree.tokens, parts, List.filterMap_map, Function.comp_def]
  | complex combinator left right =>
    rw [tokens, parts, List.filterMap_append, tokens_eq_filterMap left, tokens_eq_filterMap right]
    rfl
  | list alternatives => exact tokensAll_eq_filterMap alternatives

theorem tokensAll_eq_filterMap (trees : List (Tree α)) : tokensAll trees = (partsAll trees).filterMap Part.held? := by
  cases trees with
  | nil => rfl
  | cons tree more =>
    have htree := tokens_eq_filterMap tree
    have hmore := tokensAll_eq_filterMap more
    cases more with
    | nil => rw [tokensAll, tokensAll, List.append_nil, htree, partsAll]
    | cons next more =>
      rw [tokensAll, partsAll_cons_cons, List.filterMap_append, htree, hmore]
      rfl

end

mutual

theorem parts_map (f : α → β) (tree : Tree α) : (tree.map f).parts = tree.parts.map (Part.map f) := by
  cases tree with
  | leaf token => rfl
  | compound tokens => simp [map, parts, Part.map]
  | complex combinator left right =>
    rw [map, parts, parts, List.map_append, parts_map f left, parts_map f right]
    rfl
  | list alternatives => exact partsAll_mapAll f alternatives

theorem partsAll_mapAll (f : α → β) (trees : List (Tree α)) :
    partsAll (mapAll f trees) = (partsAll trees).map (Part.map f) := by
  cases trees with
  | nil => rfl
  | cons tree more =>
    have htree := parts_map f tree
    have hmore := partsAll_mapAll f more
    cases more with
    | nil => rw [mapAll, mapAll, partsAll, partsAll, htree]
    | cons next more =>
      rw [mapAll] at hmore ⊢
      rw [mapAll, partsAll_cons_cons, partsAll_cons_cons, List.map_append, htree, hmore]
      rfl

end

theorem tokens_map (f : α → β) (tree : Tree α) : (tree.map f).tokens = tree.tokens.map f := by
  rw [tokens_eq_filterMap, tokens_eq_filterMap, parts_map, List.filterMap_map, List.map_filterMap]
  refine List.filterMap_congr fun part _ => ?_
  cases part <;> rfl

theorem mem_tokens_iff {tree : Tree α} {token : α} : token ∈ tree.tokens ↔ .held token ∈ tree.parts := by
  rw [tokens_eq_filterMap, List.mem_filterMap]
  constructor
  · rintro ⟨part, hpart, hheld⟩
    cases part with
    | held other => rwa [← Option.some.inj hheld]
    | _ => cases hheld
  · intro hmem
    exact ⟨.held token, hmem, rfl⟩

end Tree

end CssSelectors
