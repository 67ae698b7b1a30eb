import CssSelectors.Specificity
import Mathlib.Data.List.MinMax
import Mathlib.Data.Prod.Lex
import Mathlib.Tactic.Ring

namespace CssSelectors

namespace Specificity

-- What scores are ranked by, without a base: the classes with each id as two of them, then the types.
def rank (s : Specificity) : Nat ×ₗ Nat := toLex (2 * s.ids + s.classes, s.types)

theorem weight_eq (base : Nat) (s : Specificity) : s.weight base = (2 * s.ids + s.classes) * base + s.types := by
  unfold weight
  ring

-- Types never carry into the place of the classes if the base is above them.
theorem weight_lt_weight_iff {base : Nat} {s t : Specificity} (hs : s.types < base) (ht : t.types < base) :
    s.weight base < t.weight base ↔ s.rank < t.rank := by
  have hplace : ∀ {u v : Specificity}, u.types < base → 2 * u.ids + u.classes < 2 * v.ids + v.classes →
      u.weight base < v.weight base := by
    intro u v hu huv
    have hmul : (2 * u.ids + u.classes + 1) * base ≤ (2 * v.ids + v.classes) * base := Nat.mul_le_mul_right base huv
    rw [Nat.succ_mul] at hmul
    rw [weight_eq, weight_eq]
    omega
  rw [rank, rank, Prod.Lex.toLex_lt_toLex]
  rcases Nat.lt_trichotomy (2 * s.ids + s.classes) (2 * t.ids + t.classes) with hlt | heq | hgt
  · simp [hlt, hplace hs hlt]
  · simp [weight_eq, heq]
  · have hweight := hplace ht hgt
    simp only [Nat.lt_asymm hgt, hgt.ne', false_and, or_false, iff_false]
    omega

theorem types_lt_baseFor {scores : List Specificity} {s : Specificity} (h : s ∈ scores) : s.types < baseFor scores := by
  have hfold : ∀ {sizes : List Nat} {n : Nat}, n ∈ sizes → n ≤ sizes.foldr max 10 := by
    intro sizes n hn
    induction sizes with
    | nil => cases hn
    | cons size more ih =>
      rcases List.mem_cons.mp hn with rfl | hn
      · exact Nat.le_max_left ..
      · exact (ih hn).trans (Nat.le_max_right ..)
  have hlargest : s.largest ≤ (scores.map largest).foldr max 10 := hfold (List.mem_map_of_mem h)
  have htypes : s.types ≤ s.largest := Nat.le_max_right ..
  unfold baseFor
  omega

-- To look for the heaviest score is to look for the one of the highest rank, and the first comes out either way.
theorem heaviest?_eq_argmax {base : Nat} {scores : List Specificity} (h : ∀ s ∈ scores, s.types < base) :
    heaviest? base scores = scores.argmax rank := by
  induction scores with
  | nil => rfl
  | cons s more ih =>
    obtain ⟨hs, hmore⟩ := List.forall_mem_cons.mp h
    rw [heaviest?, List.argmax_cons, ih hmore]
    cases hbest : more.argmax rank with
    | none => rfl
    | some t =>
      have ht : t.types < base := hmore t (List.argmax_mem hbest)
      simp only [weight_lt_weight_iff hs ht]

theorem argmax_rank_eq_best {scores : List Specificity} (hne : scores ≠ []) :
    scores.argmax rank = some (best scores) := by
  have hsome : scores.argmax rank ≠ none := mt List.argmax_eq_none.mp hne
  obtain ⟨s, hs⟩ := Option.ne_none_iff_exists'.mp hsome
  rw [best, heaviest?_eq_argmax fun _ => types_lt_baseFor, hs, Option.getD_some]

end Specificity

section Argmax

variable {α β : Type} [LinearOrder β] {f : α → β}

-- What is found to be largest is larger than all before it and not smaller than any after it.
theorem exists_split_of_argmax {xs : List α} {x : α} (h : xs.argmax f = some x) :
    ∃ before after, xs = before ++ x :: after ∧ (∀ y ∈ before, f y < f x) ∧ ∀ y ∈ after, f y ≤ f x := by
  induction xs generalizing x with
  | nil => simp at h
  | cons y ys ih =>
    rw [List.argmax_cons] at h
    cases hbest : ys.argmax f with
    | none =>
      obtain rfl := List.argmax_eq_none.mp hbest
      obtain rfl : y = x := by simpa using h
      exact ⟨[], [], rfl, by simp, by simp⟩
    | some z =>
      obtain ⟨before, after, rfl, hbefore, hafter⟩ := ih hbest
      rw [hbest] at h
      dsimp only at h
      split at h
      case isTrue hlt =>
        obtain rfl := Option.some.inj h
        exact ⟨y :: before, after, rfl, List.forall_mem_cons.mpr ⟨hlt, hbefore⟩, hafter⟩
      case isFalse hle =>
        obtain rfl := Option.some.inj h
        exact ⟨[], _, rfl, by simp, fun w hw => (List.le_of_mem_argmax hw hbest).trans (not_lt.mp hle)⟩

theorem argmax_pair (x y : α) : [x, y].argmax f = if f x < f y then some y else some x := by
  simp [List.argmax_cons]

-- The largest of two lists together is the larger of what is largest in each.
theorem argmax_append {xs ys : List α} {x y : α} (hx : xs.argmax f = some x) (hy : ys.argmax f = some y) :
    (xs ++ ys).argmax f = [x, y].argmax f := by
  rw [argmax_pair]
  induction xs generalizing x with
  | nil => simp at hx
  | cons z zs ih =>
    rw [List.argmax_cons] at hx
    rw [List.cons_append, List.argmax_cons]
    cases hbest : zs.argmax f with
    | none =>
      obtain rfl := List.argmax_eq_none.mp hbest
      obtain rfl : z = x := by simpa using hx
      rw [List.nil_append, hy]
    | some w =>
      rw [hbest] at hx
      rw [ih hbest]
      dsimp only at hx
      rcases lt_or_ge (f z) (f w) with hzw | hzw
      · obtain rfl : w = x := by simpa [hzw] using hx
        by_cases hwy : f w < f y
        · simp [hwy, hzw.trans hwy]
        · simp [hwy, hzw]
      · obtain rfl : z = x := by simpa [not_lt.mpr hzw] using hx
        by_cases hwy : f w < f y
        · simp [hwy]
        · simp [hwy, not_lt.mpr hzw, not_lt.mpr ((not_lt.mp hwy).trans hzw)]

end Argmax

namespace Specificity

-- A score that is nowhere below another one, and not the same.
def Dominates (s t : Specificity) : Prop :=
  t.ids ≤ s.ids ∧ t.classes ≤ s.classes ∧ t.types ≤ s.types ∧ s ≠ t

theorem Dominates.rank_lt {s t : Specificity} (h : s.Dominates t) : t.rank < s.rank := by
  obtain ⟨ids, classes, types⟩ := s
  obtain ⟨ids', classes', types'⟩ := t
  obtain ⟨hids, hclasses, htypes, hne⟩ := h
  simp only [ne_eq, mk.injEq, not_and] at hids hclasses htypes hne
  simp only [rank, Prod.Lex.toLex_lt_toLex]
  omega

-- Among the alternatives of a list the first one weighs less than the second one.
def LighterIn (alternatives : List Selector) (tree other : Selector) : Prop :=
  (ofSelector tree).weight (baseFor (ofEach alternatives)) < (ofSelector other).weight (baseFor (ofEach alternatives))

theorem ofEach_eq_map (trees : List Selector) : ofEach trees = trees.map ofSelector := by
  induction trees with
  | nil => rfl
  | cons tree more ih => rw [ofEach, List.map_cons, ih]

theorem lighterIn_iff {alternatives : List Selector} {tree other : Selector} (htree : tree ∈ alternatives)
    (hother : other ∈ alternatives) :
    LighterIn alternatives tree other ↔ (ofSelector tree).rank < (ofSelector other).rank := by
  have htypes : ∀ {t}, t ∈ alternatives → (ofSelector t).types < baseFor (ofEach alternatives) := fun ht =>
    types_lt_baseFor (by rw [ofEach_eq_map]; exact List.mem_map_of_mem ht)
  exact weight_lt_weight_iff (htypes htree) (htypes hother)

theorem argmax_ofEach {alternatives : List Selector} (hne : alternatives ≠ []) :
    (ofEach alternatives).argmax rank = some (ofSelector (.list alternatives)) := by
  rw [ofSelector, argmax_rank_eq_best (by simpa [ofEach_eq_map] using hne)]

-- The alternative that a list counts as.
theorem exists_alternative {alternatives : List Selector} (hne : alternatives ≠ []) : ∃ before tree after,
    alternatives = before ++ tree :: after ∧ ofSelector (.list alternatives) = ofSelector tree ∧
      (∀ other ∈ before, (ofSelector other).rank < (ofSelector tree).rank) ∧
      ∀ other ∈ after, (ofSelector other).rank ≤ (ofSelector tree).rank := by
  obtain ⟨scores, scores', hscores, hbefore, hafter⟩ := exists_split_of_argmax (argmax_ofEach hne)
  rw [ofEach_eq_map, List.map_eq_append_iff] at hscores
  obtain ⟨before, more, rfl, rfl, hmore⟩ := hscores
  obtain ⟨tree, after, rfl, htree, rfl⟩ := List.map_eq_cons_iff.mp hmore
  rw [List.forall_mem_map] at hbefore hafter
  rw [← htree] at hbefore hafter
  exact ⟨before, tree, after, rfl, htree.symm, hbefore, hafter⟩

-- Parts of a list may be put in lists of their own.
theorem ofSelector_list_append {alternatives more : List Selector} (hne : alternatives ≠ []) (hmore : more ≠ []) :
    ofSelector (.list (alternatives ++ more)) = ofSelector (.list [.list alternatives, .list more]) := by
  have hjoined := argmax_append (argmax_ofEach hne) (argmax_ofEach hmore)
  rw [ofEach_eq_map, ofEach_eq_map, ← List.map_append, ← ofEach_eq_map,
    argmax_ofEach (List.append_ne_nil_of_left_ne_nil hne more)] at hjoined
  have hlists : [Tree.list alternatives, .list more] ≠ [] := List.cons_ne_nil _ _
  have hpair := argmax_ofEach hlists
  rw [ofEach_eq_map, List.map_cons, List.map_cons, List.map_nil, ← hjoined] at hpair
  exact Option.some.inj hpair

-- A list counts as the first of its alternatives with the highest rank. Its base plays no part in that: two alternatives
-- compare as in any other list that holds them, none is better than the result in each count, and lists in a list
-- count as if their alternatives stood in it.
theorem ofSelector_list {alternatives : List Selector} (hne : alternatives ≠ []) :
    (∃ before tree after, alternatives = before ++ tree :: after ∧
      ofSelector (.list alternatives) = ofSelector tree ∧
      (∀ other ∈ before, (ofSelector other).rank < (ofSelector tree).rank) ∧
      ∀ other ∈ after, (ofSelector other).rank ≤ (ofSelector tree).rank) ∧
    (∀ tree ∈ alternatives, ∀ other ∈ alternatives, ∀ alternatives', tree ∈ alternatives' → other ∈ alternatives' →
      (LighterIn alternatives tree other ↔ LighterIn alternatives' tree other)) ∧
    (∀ other ∈ alternatives, ¬(ofSelector other).Dominates (ofSelector (.list alternatives))) ∧
    ∀ more, more ≠ [] →
      ofSelector (.list (alternatives ++ more)) = ofSelector (.list [.list alternatives, .list more]) := by
  refine ⟨exists_alternative hne, ?_, ?_, fun more hmore => ofSelector_list_append hne hmore⟩
  · intro tree htree other hother alternatives' htree' hother'
    rw [lighterIn_iff htree hother, lighterIn_iff htree' hother']
  · intro other hother hdominates
    have hmem : ofSelector other ∈ ofEach alternatives := by
      rw [ofEach_eq_map]
      exact List.mem_map_of_mem hother
    exact absurd hdominates.rank_lt (not_lt.mpr (List.le_of_mem_argmax hmem (argmax_ofEach hne)))

-- Two classes have the rank of one id. The first of them wins, alone or next to a list of its own.
theorem ofSelector_list_tied :
    let classes : Selector := .compound [⟨.className ['a'], ['.', 'a'], 0, 2⟩, ⟨.className ['b'], ['.', 'b'], 2, 4⟩]
    let id : Selector := .leaf ⟨.id ['c'], ['#', 'c'], 5, 7⟩
    [classes, id] ≠ [] ∧
      (∃ before tree after, [classes, id] = before ++ tree :: after ∧ ofSelector (.list [classes, id]) = ofSelector tree) ∧
      (LighterIn [classes, id] classes id ↔ LighterIn [id, classes] classes id) ∧
      ofSelector (.list [classes, id]) = ⟨0, 2, 0⟩ ∧ ¬Dominates (ofSelector id) ⟨0, 2, 0⟩ ∧
      [id] ≠ [] ∧ ofSelector (.list [.list [classes, id], .list [id]]) = ⟨0, 2, 0⟩ := by
  intro classes id
  have hne : [classes, id] ≠ [] := List.cons_ne_nil _ _
  have hid : [id] ≠ [] := List.cons_ne_nil _ _
  obtain ⟨⟨before, tree, after, hsplit, hscore, -⟩, hlighter, hdominates, hmore⟩ := ofSelector_list hne
  have hvalue : ofSelector (.list [classes, id]) = ⟨0, 2, 0⟩ := rfl
  refine ⟨hne, ⟨before, tree, after, hsplit, hscore⟩, ?_, hvalue, ?_, hid, ?_⟩
  · exact hlighter classes (by simp) id (by simp) [id, classes] (by simp) (by simp)
  · exact hvalue ▸ hdominates id (by simp)
  · rw [← hmore [id] hid]
    rfl

end Specificity

end CssSelectors
