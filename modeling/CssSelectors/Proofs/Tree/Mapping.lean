import CssSelectors.Specificity
import CssSelectors.Tree
import Mathlib.Tactic.Common

namespace CssSelectors

variable {α β γ : Type}

namespace Tree

mutual

def map (f : α → β) : Tree α → Tree β
  | leaf token => leaf (f token)
  | compound tokens => compound (tokens.map f)
  | complex combinator left right => complex combinator (left.map f) (right.map f)
  | list alternatives => list (mapAll f alternatives)

def mapAll (f : α → β) : List (Tree α) → List (Tree β)
  | [] => []
  | tree :: more => tree.map f :: mapAll f more

end

theorem mapAll_eq_map (f : α → β) (trees : List (Tree α)) : mapAll f trees = trees.map (map f) := by
  induction trees with
  | nil => rfl
  | cons tree more ih => rw [mapAll, ih, List.map_cons]

mutual

theorem map_eq_self {f : α → α} {tree : Tree α} (h : ∀ token ∈ tree.tokens, f token = token) : tree.map f = tree := by
  cases tree with
  | leaf token => rw [map, h token List.mem_cons_self]
  | compound tokens =>
    have htokens : tokens.map f = tokens := (List.map_congr_left h).trans tokens.map_id
    rw [map, htokens]
  | complex combinator left right =>
    obtain ⟨hleft, hright⟩ := List.forall_mem_append.mp h
    rw [map, map_eq_self hleft, map_eq_self hright]
  | list alternatives => rw [map, mapAll_eq_self h]

theorem mapAll_eq_self {f : α → α} {trees : List (Tree α)} (h : ∀ token ∈ tokensAll trees, f token = token) :
    mapAll f trees = trees := by
  cases trees with
  | nil => rfl
  | cons tree more =>
    obtain ⟨htree, hmore⟩ := List.forall_mem_append.mp h
    rw [mapAll, map_eq_self htree, mapAll_eq_self hmore]

end

theorem renderAll_cons_cons (text : α → Text) (tree next : Tree α) (more : List (Tree α)) :
    renderAll text (tree :: next :: more) = tree.render text ++ ',' :: renderAll text (next :: more) := by
  rw [renderAll]
  simp

mutual

theorem render_map (f : α → β) (text : β → Text) (tree : Tree α) :
    (tree.map f).render text = tree.render fun token => text (f token) := by
  cases tree with
  | leaf token => rfl
  | compound tokens => rw [map, render, render, List.flatMap_map]
  | complex combinator left right => rw [map, render, render, render_map f text left, render_map f text right]
  | list alternatives => rw [map, render, render, renderAll_mapAll f text alternatives]

theorem renderAll_mapAll (f : α → β) (text : β → Text) (trees : List (Tree α)) :
    renderAll text (mapAll f trees) = renderAll (fun token => text (f token)) trees := by
  cases trees with
  | nil => rfl
  | cons tree more =>
    have htree := render_map f text tree
    have hmore := renderAll_mapAll f text more
    cases more with
    | nil => exact htree
    | cons next more =>
      rw [mapAll] at hmore ⊢
      rw [mapAll, renderAll_cons_cons, renderAll_cons_cons, htree, hmore]

end

section

variable {m : Type → Type} [Monad m]

mutual

-- What replaces the tokens before or after a function runs through them can be done on the way.
theorem mapM_map [LawfulMonad m] (f : α → β) (g : β → m γ) (tree : Tree α) :
    (tree.map f).mapM g = tree.mapM fun token => g (f token) := by
  cases tree with
  | leaf token => rfl
  | compound tokens => rw [map, mapM, mapM, List.mapM_map]; rfl
  | complex combinator left right => rw [map, mapM, mapM, mapM_map f g left, mapM_map f g right]
  | list alternatives => rw [map, mapM, mapM, mapAllM_mapAll f g alternatives]

theorem mapAllM_mapAll [LawfulMonad m] (f : α → β) (g : β → m γ) (trees : List (Tree α)) :
    mapAllM g (mapAll f trees) = mapAllM (fun token => g (f token)) trees := by
  cases trees with
  | nil => rfl
  | cons tree more => rw [mapAll, mapAllM, mapAllM, mapM_map f g tree, mapAllM_mapAll f g more]

end

variable [LawfulMonad m]

theorem map_list_mapM (f : β → γ) (g : α → m β) (tokens : List α) :
    List.map f <$> tokens.mapM g = tokens.mapM fun token => f <$> g token := by
  induction tokens with
  | nil => simp
  | cons token tokens ih =>
    rw [List.mapM_cons, List.mapM_cons, ← ih]
    simp

mutual

theorem map_mapM (f : β → γ) (g : α → m β) (tree : Tree α) :
    map f <$> tree.mapM g = tree.mapM fun token => f <$> g token := by
  cases tree with
  | leaf token => simp [mapM, map]
  | compound tokens =>
    rw [mapM, mapM, ← map_list_mapM]
    simp [map]
  | complex combinator left right =>
    rw [mapM, mapM, ← map_mapM f g left, ← map_mapM f g right]
    simp [map]
  | list alternatives =>
    rw [mapM, mapM, ← mapAll_mapAllM f g alternatives]
    simp [map]

theorem mapAll_mapAllM (f : β → γ) (g : α → m β) (trees : List (Tree α)) :
    mapAll f <$> mapAllM g trees = mapAllM (fun token => f <$> g token) trees := by
  cases trees with
  | nil => simp [mapAllM, mapAll]
  | cons tree more =>
    rw [mapAllM, mapAllM, ← map_mapM f g tree, ← mapAll_mapAllM f g more]
    simp [mapAll]

end

mutual

-- What runs through a tree runs through its tokens from left to right.
theorem tokens_mapM (f : α → m β) (tree : Tree α) : tokens <$> tree.mapM f = tree.tokens.mapM f := by
  cases tree with
  | leaf token => simp [mapM, tokens]
  | compound tokens => simp [mapM, Tree.tokens]
  | complex combinator left right =>
    rw [mapM, tokens, List.mapM_append, ← tokens_mapM f left, ← tokens_mapM f right]
    simp [tokens]
  | list alternatives =>
    rw [mapM, tokens, ← tokensAll_mapAllM f alternatives]
    simp [tokens]

theorem tokensAll_mapAllM (f : α → m β) (trees : List (Tree α)) :
    tokensAll <$> mapAllM f trees = (tokensAll trees).mapM f := by
  cases trees with
  | nil => simp [mapAllM, tokensAll]
  | cons tree more =>
    rw [mapAllM, tokensAll, List.mapM_append, ← tokens_mapM f tree, ← tokensAll_mapAllM f more]
    simp [tokensAll]

end

end

end Tree

namespace Specificity

variable {f : Token → Token}

theorem sumOf_map (hf : ∀ token, ofToken (f token) = ofToken token) (tokens : List Token) :
    sumOf (tokens.map f) = sumOf tokens := by
  induction tokens with
  | nil => rfl
  | cons token tokens ih => rw [List.map_cons, sumOf, sumOf, hf, ih]

mutual

theorem total_map (hf : ∀ token, ofToken (f token) = ofToken token) (tree : Selector) :
    total (tree.map f) = total tree := by
  cases tree with
  | leaf token => rw [Tree.map, total, total, hf]
  | compound tokens => rw [Tree.map, total, total, sumOf_map hf]
  | complex combinator left right => rw [Tree.map, total, total, total_map hf left, total_map hf right]
  | list alternatives => rw [Tree.map, total, total, totalOfAll_map hf alternatives]

theorem totalOfAll_map (hf : ∀ token, ofToken (f token) = ofToken token) (trees : List Selector) :
    totalOfAll (Tree.mapAll f trees) = totalOfAll trees := by
  cases trees with
  | nil => rfl
  | cons tree more => rw [Tree.mapAll, totalOfAll, totalOfAll, total_map hf tree, totalOfAll_map hf more]

end

mutual

-- What a selector counts is up to what its tokens do.
theorem ofSelector_map (hf : ∀ token, ofToken (f token) = ofToken token) (tree : Selector) :
    ofSelector (tree.map f) = ofSelector tree := by
  cases tree with
  | leaf token => rw [Tree.map, ofSelector, ofSelector, hf]
  | compound tokens => rw [Tree.map, ofSelector, ofSelector, sumOf_map hf]
  | complex combinator left right => rw [Tree.map, ofSelector, ofSelector, total_map hf left, total_map hf right]
  | list alternatives => rw [Tree.map, ofSelector, ofSelector, ofEach_map hf alternatives]

theorem ofEach_map (hf : ∀ token, ofToken (f token) = ofToken token) (trees : List Selector) :
    ofEach (Tree.mapAll f trees) = ofEach trees := by
  cases trees with
  | nil => rfl
  | cons tree more => rw [Tree.mapAll, ofEach, ofEach, ofSelector_map hf tree, ofEach_map hf more]

end

end Specificity

end CssSelectors
