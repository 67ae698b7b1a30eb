import Mathlib.Data.List.Forall2
import CssSelectors.Json.Decode

namespace CssSelectors

namespace Json

-- Values that say the same: of an object it counts what stands under each key.
inductive Same : Json → Json → Prop
  | null : Same null null
  | bool (value : Bool) : Same (bool value) (bool value)
  | num (value : Int) : Same (num value) (num value)
  | str (text : Text) : Same (str text) (str text)
  | arr {items items' : List Json} (hitems : List.Forall₂ Same items items') : Same (arr items) (arr items')
  | obj {members members' : Members}
    (hkeys : ∀ key, Option.Rel Same (members.lookup key) (members'.lookup key)) :
    Same (obj members) (obj members')

mutual

theorem Same.refl (value : Json) : Same value value := by
  cases value with
  | null => exact .null
  | bool value => exact .bool value
  | num value => exact .num value
  | str text => exact .str text
  | arr items => exact .arr (Same.reflItems items)
  | obj members => exact .obj fun key => Same.reflMembers key members

theorem Same.reflItems (items : List Json) : List.Forall₂ Same items items := by
  cases items with
  | nil => exact .nil
  | cons item more => exact .cons (Same.refl item) (Same.reflItems more)

theorem Same.reflMembers (key : String) (members : List (String × Json)) :
    Option.Rel Same (members.lookup key) (members.lookup key) := by
  cases members with
  | nil => exact .none
  | cons member more =>
    obtain ⟨other, value⟩ := member
    rw [List.lookup_cons]
    split
    case h_1 => exact .some (Same.refl value)
    case h_2 => exact Same.reflMembers key more

end

mutual

-- In no object does a key occur twice.
def Distinct : Json → Prop
  | arr items => DistinctItems items
  | obj members => (members.map Prod.fst).Nodup ∧ DistinctMembers members
  | _ => True

def DistinctItems : List Json → Prop
  | [] => True
  | item :: more => item.Distinct ∧ DistinctItems more

def DistinctMembers : List (String × Json) → Prop
  | [] => True
  | (_, value) :: more => value.Distinct ∧ DistinctMembers more

end

theorem distinctItems_iff {items : List Json} : DistinctItems items ↔ ∀ item ∈ items, item.Distinct := by
  induction items with
  | nil => simp [DistinctItems]
  | cons item more ih => rw [DistinctItems, ih, List.forall_mem_cons]

theorem distinctMembers_append (members more : Members) :
    DistinctMembers (members ++ more) ↔ DistinctMembers members ∧ DistinctMembers more := by
  induction members with
  | nil => simp [DistinctMembers]
  | cons member members ih =>
    obtain ⟨key, value⟩ := member
    rw [List.cons_append, DistinctMembers, DistinctMembers, ih, and_assoc]

theorem distinctMembers_given (key : String) (text : Option Text) : DistinctMembers (given key text) := by
  cases text <;> simp [given, DistinctMembers, Distinct]

-- Values that are made in the same way of the members of two lists, and the same only if these are.
theorem eq_of_forall₂_map {α : Type} {f : α → Json} {xs ys : List α} (h : ∀ x ∈ xs, ∀ y, Same (f x) (f y) → x = y)
    (hsame : List.Forall₂ Same (xs.map f) (ys.map f)) : xs = ys := by
  induction xs generalizing ys with
  | nil => exact (List.map_eq_nil_iff.mp (List.forall₂_nil_left_iff.mp hsame)).symm
  | cons x xs ih =>
    obtain ⟨hx, hxs⟩ := List.forall_mem_cons.mp h
    cases ys with
    | nil => cases hsame
    | cons y ys =>
      obtain ⟨hfirst, hmore⟩ := List.forall₂_cons.mp hsame
      rw [hx y hfirst, ih hxs hmore]

namespace Same

variable {members others : Members}

theorem forall₂ {items items' : List Json} (h : Same (.arr items) (.arr items')) : List.Forall₂ Same items items' := by
  cases h with
  | arr hitems => exact hitems

theorem eq_of_str {text text' : Text} (h : Same (.str text) (.str text')) : text = text' := by
  cases h
  rfl

theorem eq_of_ofNat {n n' : Nat} (h : Same (.ofNat n) (.ofNat n')) : n = n' := by
  cases h
  rfl

theorem lookup (h : Same (.obj members) (.obj others)) (key : String) :
    Option.Rel Same (members.lookup key) (others.lookup key) := by
  cases h with
  | obj hkeys => exact hkeys key

-- Objects that say the same are read in the same way.
theorem text?_eq (h : Same (.obj members) (.obj others)) : members.text? = others.text? := by
  funext key
  have hkey := h.lookup key
  unfold Members.text?
  generalize members.lookup key = value at hkey ⊢
  generalize others.lookup key = value' at hkey ⊢
  cases hkey with
  | none => rfl
  | some hvalue => cases hvalue <;> rfl

theorem word_eq (h : Same (.obj members) (.obj others)) : members.word = others.word := by
  rw [Members.word, Members.word, Members.text, Members.text, h.text?_eq]

theorem token_eq (h : Same (.obj members) (.obj others)) (hplace : members.place = others.place)
    (subtree : Except DecodeError (Option Selector)) : members.token subtree = others.token subtree := by
  have hkind : members.kind subtree = others.kind subtree := by
    funext tag
    cases tag <;> simp only [Members.kind, Members.text, h.text?_eq]
  simp only [Members.token, Members.text, h.word_eq, h.text?_eq, hplace, hkind]

end Same

end Json

end CssSelectors
