import CssSelectors.Proofs.Masking.Enclosing
import Mathlib.Algebra.BigOperators.Group.List.Basic
import Mathlib.Algebra.Ring.Int.Defs
import Mathlib.Data.List.Forall2

namespace CssSelectors

open Masked

namespace Text

-- Whether the string that a quote begins is closed in the text after it: by the same quote, before a line ends. An
-- escape belongs to the string whatever it holds.
def closes (quote : Char) : Text → Bool
  | [] => false
  | '\\' :: _ :: rest => closes quote rest
  | c :: rest => c = quote || (c != '\n' && c != '\\' && closes quote rest)

-- The characters of a text that are in sight, from outside of all strings or from within one with some quote. An escape
-- is not, nor is what a closed string holds.
def sightFrom : Option Char → Text → List (Option Char)
  | _, [] => []
  | within, '\\' :: _ :: rest => none :: none :: sightFrom within rest
  | some quote, c :: rest => if c = quote then some c :: sightFrom none rest else none :: sightFrom (some quote) rest
  | none, c :: rest => some c :: sightFrom (if isQuote c && closes c rest then some c else none) rest

def sight (text : Text) : List (Option Char) := sightFrom none text

-- What a place in a text adds to the parens that are open.
def level : Option Char → Int
  | some '(' => 1
  | some ')' => -1
  | _ => 0

-- How many more parens are opened than closed before some place. Only those in sight count.
def depth (text : Text) (place : Nat) : Int := ((text.sight.map level).take place).sum

end Text

namespace Masked

-- A cover in a string is passed over.
theorem stringBody?_cover {quote : Char} (hquote : isQuote quote = true) (cover : Cover) (rest : Text) :
    stringBody? quote (cover.char :: rest) = (stringBody? quote rest).map (cover.char :: ·) := by
  rcases isQuote_iff.mp hquote with rfl | rfl <;> cases cover <;> rfl

theorem closes_iff {quote : Char} (hquote : isQuote quote = true) (text : Text) :
    text.closes quote = true ↔ ∃ body, stringBody? quote (shown (text.sweep escapeAt)) = some body := by
  simp only [← Option.isSome_iff_exists]
  fun_induction Text.closes quote text with
  | case1 => simp [stringBody?]
  | case2 d rest ih =>
    rw [shown_sweep_escape]
    simpa [stringBody?_cover hquote] using ih
  | case3 c rest h ih =>
    rw [shown_sweep_cons h, stringBody?]
    by_cases hc : c = quote
    · simp [hc]
    · by_cases hends : c = '\n' ∨ c = '\\'
      · rcases hends with rfl | rfl <;> simp [hc]
      · rw [not_or] at hends
        simp [hc, hends, ih]

end Masked

namespace Text

-- The levels of a text of which everything is in sight.
def levels (text : Text) : List Int := text.map fun c => level (some c)

theorem levels_append (u v : Text) : levels (u ++ v) = levels u ++ levels v := List.map_append

-- What may stand where so much of a text is in sight: the same character or, where none is, a cover.
def Shows : Option Char → Char → Prop
  | some d, c => c = d
  | none, c => ∃ cover : Cover, c = cover.char

theorem Shows.level_eq {seen : Option Char} {c : Char} (h : Shows seen c) : level seen = level (some c) := by
  cases seen with
  | some d =>
    obtain rfl : c = d := h
    rfl
  | none =>
    obtain ⟨cover, rfl⟩ := h
    cases cover <;> rfl

theorem shown_sweep_loose {c : Char} {rest : Text} (h : stringAt c rest = none) :
    shown (sweep stringAt (c :: rest)) = c :: shown (sweep stringAt rest) := by
  rw [sweep_cons_of_none h, shown_cons]
  rfl

theorem shown_sweep_string {quote : Char} {rest body : Text} (hquote : isQuote quote = true)
    (hbody : stringBody? quote rest = some body) :
    shown (sweep stringAt (quote :: rest)) = quote :: (List.replicate body.length Cover.string.char ++
      quote :: shown (sweep stringAt (rest.drop (body.length + 1)))) := by
  obtain ⟨⟨more, rfl⟩, -⟩ := stringBody?_eq_some hbody
  have hoffer := stringAt_eq_some.mpr ⟨hquote, body, hbody, rfl, rfl⟩
  have htake : quote :: (body ++ quote :: more).take (body.length + 1) = quote :: body ++ [quote] := by
    rw [List.take_append, List.take_of_length_le (Nat.le_succ _)]
    simp
  rw [sweep_cons_of_some hoffer, shown_cons, htake, Swept.IsString.eq_inside]
  simp [inside]

-- What is in sight of a text is what is left of it when its escapes and strings are hidden. Within a string this holds
-- once the string has ended.
theorem shows_sightFrom (within : Option Char) (text : Text) :
    (within = none → List.Forall₂ Shows (text.sightFrom within) (shown (sweep stringAt (shown (text.sweep escapeAt))))) ∧
    ∀ quote body, within = some quote → isQuote quote = true →
      stringBody? quote (shown (text.sweep escapeAt)) = some body →
      List.Forall₂ Shows (text.sightFrom within) (List.replicate body.length Cover.string.char ++
        quote :: shown (sweep stringAt ((shown (text.sweep escapeAt)).drop (body.length + 1)))) := by
  fun_induction sightFrom within text with
  | case1 within => simp [stringBody?]
  | case2 within d rest ih =>
    rw [shown_sweep_escape]
    constructor
    · intro hnone
      have hcover : ∀ rest, stringAt Cover.escape.char rest = none := stringAt_of_not_quote (by decide)
      rw [shown_sweep_loose (hcover _), shown_sweep_loose (hcover _)]
      exact .cons ⟨.escape, rfl⟩ (.cons ⟨.escape, rfl⟩ (ih.1 hnone))
    · intro quote body hsome hquote hbody
      obtain ⟨more, hmore, rfl⟩ : ∃ more, stringBody? quote (shown (sweep escapeAt rest)) = some more ∧
          Cover.escape.char :: Cover.escape.char :: more = body := by
        simpa [stringBody?_cover hquote] using hbody
      exact .cons ⟨.string, rfl⟩ (.cons ⟨.string, rfl⟩ (ih.2 quote more hsome hquote hmore))
  | case3 c rest h ih =>
    rw [shown_sweep_cons h]
    refine ⟨by simp, fun quote body hsome hquote hbody => ?_⟩
    obtain rfl := Option.some.inj hsome
    obtain rfl : [] = body := by simpa [stringBody?] using hbody
    exact .cons rfl (ih.1 rfl)
  | case4 quote c rest h hne ih =>
    rw [shown_sweep_cons h]
    refine ⟨by simp, fun quote' body hsome hquote hbody => ?_⟩
    obtain rfl := Option.some.inj hsome
    rw [stringBody?, if_neg hne, Option.ite_none_left_eq_some] at hbody
    obtain ⟨more, hmore, rfl⟩ := Option.map_eq_some_iff.mp hbody.2
    exact .cons ⟨.string, rfl⟩ (ih.2 quote more rfl hquote hmore)
  | case5 c rest h ih =>
    rw [shown_sweep_cons h]
    refine ⟨fun _ => ?_, by simp⟩
    cases hc : isQuote c && closes c rest with
    | false =>
      have hnone : stringAt c (shown (sweep escapeAt rest)) = none := by
        refine stringAt_eq_none.mpr fun hquote => ?_
        rw [hquote, Bool.true_and] at hc
        rw [Option.eq_none_iff_forall_ne_some]
        exact fun body hbody => by simp [(closes_iff hquote rest).mpr ⟨body, hbody⟩] at hc
      simp only [hc, Bool.false_eq_true, if_false, true_implies] at ih ⊢
      rw [shown_sweep_loose hnone]
      exact .cons rfl ih.1
    | true =>
      obtain ⟨hquote, hcloses⟩ := Bool.and_eq_true_iff.mp hc
      obtain ⟨body, hbody⟩ := (closes_iff hquote rest).mp hcloses
      simp only [hc, if_true] at ih ⊢
      rw [shown_sweep_string hquote hbody]
      exact .cons rfl (ih.2 c body rfl hquote hbody)

-- Whatever is in sight is a character of the text itself.
theorem forall₂_sightFrom (within : Option Char) (text : Text) :
    List.Forall₂ (fun seen c => ∀ d ∈ seen, c = d) (text.sightFrom within) text := by
  fun_induction sightFrom within text with
  | case1 within => exact .nil
  | case2 within d rest ih => exact .cons (by simp) (.cons (by simp) ih)
  | case3 c rest h ih => exact .cons (by simp) ih
  | case4 quote c rest h hne ih => exact .cons (by simp) ih
  | case5 c rest h ih => exact .cons (by simp) ih

-- The text in which the sweep for groups looks for parens.
def unquoted (text : Text) : Text := shown (Layers.ofText text).strings

theorem shows_sight (text : Text) : List.Forall₂ Shows text.sight text.unquoted := (shows_sightFrom none text).1 rfl

theorem map_level_sight (text : Text) : text.sight.map level = levels text.unquoted := by
  rw [levels, ← List.forall₂_eq_eq_eq, List.forall₂_map_left_iff, List.forall₂_map_right_iff]
  exact (shows_sight text).imp fun _ _ h => h.level_eq

end Text

end CssSelectors
