import CssSelectors.Proofs.Grammar.Refilling
import CssSelectors.Proofs.Token.Tiling

namespace CssSelectors

open Pattern Grammar Masked Text

namespace Text

-- A string that is not empty and is hidden while a text is masked, from its opening quote at one
-- place to its closing quote at another.
def HasString (text : Text) (quote : Char) (i j : Nat) : Prop :=
  ∃ body, ⟨quote :: body ++ [quote], i⟩ ∈ hiddenFrom 0 (Layers.ofText text).strings ∧ j = i + 1 + body.length

-- The text with another body between two quotes at such places.
def refill (text : Text) (i j : Nat) (body : Text) : Text := text.take (i + 1) ++ body ++ text.drop j

-- A quote before some place begins no string, and the line that it stands in goes on up to there.
def OpenAt (text : Text) (quote : Char) (place : Nat) : Prop :=
  isQuote quote = true ∧ ∃ first rest more, (Layers.ofText text).strings = first ++ .loose quote :: (rest ++ more) ∧
    '\n' ∉ rest.flatMap Swept.source ∧ ((first ++ .loose quote :: rest).flatMap Swept.source).length = place

end Text

namespace Frame

variable {f : Frame} {inner : Hidden} {body : Text}

theorem length_body (h : (f.fill inner).Linked) : (inner.flatMap Swept.source).length = (shown inner).length :=
  (length_shown fun part hpart => (h.isEscape part (by simp [fill, hpart])).fits).symm

theorem refill_source (h : (f.fill inner).Linked) (hlength : body.length = (shown inner).length) :
    (f.fill inner).source.refill f.before.length (f.before.length + 1 + body.length) body =
      (f.fill (body.map .loose)).source := by
  have hfront : f.before.length + 1 = (f.before ++ [f.quote]).length := by simp
  have hback : f.before.length + 1 + body.length = (f.before ++ [f.quote] ++ inner.flatMap Swept.source).length := by
    rw [List.length_append, length_body h, hlength, hfront]
  have hsource : (f.fill inner).source = f.before ++ [f.quote] ++ inner.flatMap Swept.source ++ f.quote :: f.after := by
    simp [source_fill]
  rw [refill, hback, hfront, hsource, List.drop_left, List.append_assoc (f.before ++ [f.quote]), List.take_left,
    source_fill, Layers.flatMap_source_loose]
  simp

-- The ends of a text do not lie within a string.
theorem trimmed_fill (h : Text.Trimmed (f.fill inner).source) (inner' : Hidden) : Text.Trimmed (f.fill inner').source := by
  have hhead : ∀ inner, (f.fill inner).source.head? = (f.before ++ [f.quote]).head? := by
    intro inner
    cases hbefore : f.before <;> simp [source_fill, hbefore]
  have hlast : ∀ inner, (f.fill inner).source.getLast? = (f.quote :: f.after).getLast? := by
    intro inner
    rw [source_fill, ← List.cons_append, ← List.append_assoc, List.getLast?_append_of_ne_nil _ (List.cons_ne_nil _ _)]
  constructor
  · rw [hhead, ← hhead inner]
    exact h.head
  · rw [hlast, ← hlast inner]
    exact h.last

end Frame

namespace Token

-- A token and the same one with another body of a string in it. All its fields are cut out of both contents alike.
structure Refilled (i j : Nat) (body : Text) (token token' : Token) : Prop where
  around : token.start ≤ i ∧ j < token.stop
  tag : token'.tag = token.tag
  start : token'.start = token.start
  stop : token'.stop = token.stop
  content : token'.content = token.content.refill (i - token.start) (j - token.start) body
  fields : ∃ spans : Field → Option Span,
    token.tag.kind? (fun field => (spans field).map (·.of token.content)) = some token.kind ∧
      token.tag.kind? (fun field => (spans field).map (·.of token'.content)) = some token'.kind

end Token

namespace Frame

variable {f : Frame} {inner : Hidden} {body : Text} {kind : Kind Selector}

-- No delimiter holds a string.
theorem delimits_eq_false (hfound : Word.Found ⟨kind, (f.fill inner).text⟩) (h : (f.fill inner).Linked) :
    kind.tag.delimits = false := by
  rw [Bool.eq_false_iff]
  intro hdelimits
  obtain ⟨a, mark, c, rest, htext, hcover, -⟩ := hides h
  have hinert := hfound.shape.inert hdelimits c (by rw [htext]; simp)
  rw [hinert.1] at hcover
  cases hcover

-- What is read with one body of a string is read with any other one, and in the same places.
theorem exists_read?_fill (hfound : Word.Found ⟨kind, (f.fill inner).text⟩) (h : (f.fill inner).Linked)
    (hbody : body.Quotable f.quote) (hlength : body.length = (shown inner).length) {read : Kind Selector}
    (hread : kind.tag.read? (f.fill inner).source = some read) : ∃ reached read',
      kind.tag.kindAt? (f.fill inner).source reached = some read ∧
      kind.tag.kindAt? (f.fill (body.map .loose)).source reached = some read' ∧
      kind.tag.read? (f.fill (body.map .loose)).source = some read' := by
  obtain ⟨hquote, -, -⟩ := quotable_of_linked h
  obtain ⟨reached, hreached, hkind⟩ := Option.bind_eq_some_iff.mp hread
  obtain ⟨rest, hun, hfront⟩ := hfound
  have hveils := h.veils
  have hveils' := (linked_fill h hbody hlength).veils
  have hwhole : (pattern plainArgument kind.tag).whole? (f.fill (body.map .loose)).source = some reached := by
    rw [source_fill] at hreached hveils hveils' ⊢
    refine whole?_of_refilled (Tag.matches_of_front? hfront) hun.of_append_left (hides h) hquote hveils hveils' ?_ hreached
    rw [Layers.flatMap_source_loose]
    exact hbody.line
  have hmem := (mem_of_finish? (whole?_eq_finish? _ _ ▸ hwhole)).1
  have hsome : (kind.tag.kindAt? (f.fill (body.map .loose)).source reached).isSome := Tag.kindAt?_isSome hmem
  obtain ⟨read', hread'⟩ := Option.isSome_iff_exists.mp hsome
  exact ⟨reached, read', hkind, hread', Option.bind_eq_some_iff.mpr ⟨reached, hwhole, hread'⟩⟩

-- So a token with a string in it stays the same token with any other body of the string.
theorem exists_token?_fill (hfound : Word.Found ⟨kind, (f.fill inner).text⟩) (h : (f.fill inner).Linked)
    (hbody : body.Quotable f.quote) (hlength : body.length = (shown inner).length) {offset : Nat} {token : Token}
    (htoken : Piece.token? offset ⟨kind, f.fill inner⟩ = some token) :
    ∃ token', Piece.token? offset ⟨kind, f.fill (body.map .loose)⟩ = some token' ∧
      Token.Refilled (offset + f.before.length) (offset + f.before.length + 1 + body.length) body token token' := by
  have hdelimits : Tag.delimits (Piece.tag ⟨kind, f.fill inner⟩) = false := delimits_eq_false hfound h
  have hcontent : ∀ inner, Piece.content ⟨kind, f.fill inner⟩ = (f.fill inner).source := fun inner =>
    Piece.content_eq_source (p := ⟨kind, f.fill inner⟩) hdelimits
  have hsame : (f.fill (body.map .loose)).source.length = (f.fill inner).source.length :=
    (linked_fill h hbody hlength).length_text.symm.trans h.length_text
  obtain ⟨read, hread, rfl⟩ := Option.map_eq_some_iff.mp htoken
  rw [hcontent] at hread ⊢
  obtain ⟨reached, read', hkind, hkind', hread'⟩ := exists_read?_fill hfound h hbody hlength hread
  have htag : read.tag = kind.tag := Tag.tag_of_read? hread
  have htag' : read'.tag = kind.tag := Tag.tag_of_read? hread'
  refine ⟨_, Option.map_eq_some_iff.mpr ⟨read', by rw [hcontent]; exact hread', rfl⟩, ?_⟩
  rw [hcontent]
  constructor
  · have hlong := congrArg List.length (f.source_fill inner)
    simp only [List.length_append, List.length_cons, length_body h, ← hlength] at hlong
    simp only [Piece.source]
    omega
  · exact htag'.trans htag.symm
  · rfl
  · exact congrArg (offset + ·) hsame
  · dsimp only
    rw [Nat.add_assoc, Nat.add_assoc, Nat.add_sub_cancel_left, Nat.add_sub_cancel_left, ← Nat.add_assoc]
    exact (refill_source h hlength).symm
  · refine ⟨reached.span?, ?_, ?_⟩
    · rw [Token.tag, htag]
      exact hkind
    · rw [Token.tag, htag]
      exact hkind'

end Frame

namespace Piece

variable {source : Text} {ps us vs : List Piece} {kind : Kind Selector} {f : Frame} {inner : Hidden} {body : Text}

theorem joined_fill (hus : (joined us).Linked) (hvs : (joined vs).Linked) (inner : Hidden) :
    joined (us ++ ⟨kind, f.fill inner⟩ :: vs) = (f.within hus hvs).fill inner := by
  rw [joined_append, joined, Frame.fill_within, Layers.append_assoc]

namespace Reading

-- A string of a text is in one of the pieces that the text falls into.
theorem exists_fill (h : Reading source ps) {quote : Char} {i j : Nat} (hstring : source.HasString quote i j) :
    ∃ us kind f inner vs more, ps = us ++ ⟨kind, Frame.fill f inner⟩ :: vs ∧ f.quote = quote ∧
      (Layers.ofText source).strings = (joined us).strings ++ f.stringsBefore ++ more ∧
      i = (((joined us).strings ++ f.stringsBefore).flatMap Swept.source).length ∧ j = i + 1 + (shown inner).length := by
  obtain ⟨value, hmem, hj⟩ := hstring
  obtain ⟨P, cover, Q, hparts, hplace⟩ := exists_of_mem_hiddenFrom hmem
  have hjoined := hparts
  rw [h.layers_eq, strings_joined] at hjoined
  obtain ⟨us, ⟨kind, layers⟩, vs, S, T, rfl, hstrings, hP, -⟩ := exists_split_of_flatMap hjoined
  obtain ⟨f, inner, rfl, rfl, hvalue⟩ := Frame.exists_fill (h.linked ⟨kind, layers⟩ (by simp)) hstrings
  obtain ⟨rfl, hinner⟩ := List.cons.inj hvalue
  obtain rfl : value = shown inner := List.append_cancel_right hinner
  rw [← strings_joined] at hP
  exact ⟨us, kind, f, inner, vs, _, rfl, rfl, hP ▸ hparts, by rw [hplace, hP, Nat.zero_add], hj⟩

section

variable (h : Reading source (us ++ ⟨kind, f.fill inner⟩ :: vs))

include h

theorem linked_fill : (joined us).Linked ∧ (f.fill inner).Linked ∧ (joined vs).Linked :=
  ⟨linked_joined fun p hp => h.linked p (by simp [hp]), h.linked ⟨kind, f.fill inner⟩ (by simp),
    linked_joined fun p hp => h.linked p (by simp [hp])⟩

-- A text falls into the same pieces when the body of a string changes.
theorem fill (hbody : body.Quotable f.quote) (hlength : body.length = (shown inner).length)
    (hopen : ¬Closes ((joined us).strings ++ f.stringsBefore) body) :
    Reading (joined (us ++ ⟨kind, f.fill (body.map .loose)⟩ :: vs)).source
      (us ++ ⟨kind, f.fill (body.map .loose)⟩ :: vs) := by
  obtain ⟨hus, hlinked, hvs⟩ := h.linked_fill
  have hlayers : Layers.ofText ((f.within hus hvs).fill (body.map .loose)).source =
      (f.within hus hvs).fill (body.map .loose) := by
    refine Frame.ofText_fill hbody hlength hopen ?_
    rw [← joined_fill hus hvs inner, ← h.layers_eq, Layers.source_ofText]
  have hgroups : (Layers.ofText source).groups = ((f.within hus hvs).fill inner).groups := by
    rw [h.layers_eq, joined_fill hus hvs]
  have htext : (Layers.ofText source).text = ((f.within hus hvs).fill inner).text := congrArg shown hgroups
  rw [joined_fill hus hvs]
  constructor
  · rw [hlayers, joined_fill hus hvs]
  · rw [hlayers]
    exact hgroups ▸ h.balanced
  · intro p hp
    have hcases : p = ⟨kind, f.fill (body.map .loose)⟩ ∨ p ∈ us ++ ⟨kind, f.fill inner⟩ :: vs := by
      simp only [List.mem_append, List.mem_cons] at hp ⊢
      tauto
    rcases hcases with rfl | hp
    · exact Frame.linked_fill hlinked hbody hlength
    · exact h.linked p hp
  · have hfragments := h.fragments_eq
    rw [htext] at hfragments
    rw [hlayers]
    simp only [List.map_append, List.map_cons] at hfragments ⊢
    exact hfragments

-- The text changes just there, and not at its ends.
theorem source_fill (hlength : body.length = (shown inner).length) {i : Nat}
    (hi : i = (((joined us).strings ++ f.stringsBefore).flatMap Swept.source).length) :
    i = (joined us).source.length + f.before.length ∧
      source.refill i (i + 1 + body.length) body = (joined (us ++ ⟨kind, f.fill (body.map .loose)⟩ :: vs)).source := by
  obtain ⟨hus, hlinked, hvs⟩ := h.linked_fill
  have hwhole : ((f.within hus hvs).fill inner).Linked := by
    rw [Frame.fill_within]
    exact (hus.append hlinked).append hvs
  have hbefore : i = (f.within hus hvs).before.length := hi.trans (Frame.length_before hwhole)
  have hrefill := Frame.refill_source hwhole hlength
  rw [← hbefore, ← joined_fill hus hvs, ← joined_fill hus hvs, h.source_joined] at hrefill
  exact ⟨by rw [hbefore, Frame.before_within, List.length_append], hrefill⟩

theorem trimmed_fill (htrimmed : source.Trimmed) (inner' : Hidden) :
    Trimmed (joined (us ++ ⟨kind, f.fill inner'⟩ :: vs)).source := by
  obtain ⟨hus, -, hvs⟩ := h.linked_fill
  have hwhole : ((f.within hus hvs).fill inner).source.Trimmed := by
    rwa [← joined_fill hus hvs, h.source_joined]
  rw [joined_fill hus hvs]
  exact Frame.trimmed_fill hwhole inner'

end

end Reading

end Piece

namespace Token

-- What a string holds does not matter for the tokens, as long as it is closed at the same quote and closes no other
-- one: all but the token with the string stay as they are, and of that token nothing changes but the string.
theorem ofText_refill {text : Text} {tokens : List Token} (htrimmed : text.trim = text) (h : ofText text = .ok tokens)
    {quote : Char} {i j : Nat} (hstring : text.HasString quote i j) {body : Text} (hbody : body.Quotable quote)
    (hlength : i + 1 + body.length = j) (hopen : ∀ c ∈ body, ¬text.OpenAt c i) :
    ∃ before token token' after, tokens = before ++ token :: after ∧
      ofText (text.refill i j body) = .ok (before ++ token' :: after) ∧ Refilled i j body token token' := by
  obtain ⟨ps, hreading, htokens⟩ := ofText_eq_ok_iff.mp h
  rw [htrimmed] at hreading
  obtain ⟨us, kind, f, inner, vs, more, rfl, rfl, hstrings, hplace, hj⟩ := hreading.exists_fill hstring
  have hlinked : (f.fill inner).Linked := hreading.linked_fill.2.1
  have hfound : Word.Found ⟨kind, (f.fill inner).text⟩ := hreading.found ⟨kind, f.fill inner⟩ (by simp)
  have hsame : body.length = (shown inner).length := by omega
  have hfill := hreading.fill hbody hsame (by
    rintro ⟨first, c, rest, hsplit, hquote, hline, hc⟩
    refine hopen c hc ⟨hquote, first, rest, more, ?_, hline, ?_⟩
    · rw [hstrings, hsplit]
      simp
    · rw [hplace, hsplit])
  obtain ⟨hi, hrefill⟩ := hreading.source_fill hsame hplace
  rw [hlength] at hrefill
  have htrimmed' := hreading.trimmed_fill (htrimmed ▸ trimmed_trim text) (body.map .loose)
  rw [← hrefill] at hfill htrimmed'
  obtain ⟨before, rest, hbefore, hrest, rfl⟩ := Piece.tokensFrom?_append_eq_some.mp htokens
  obtain ⟨token, after, htoken, hafter, rfl⟩ := Piece.tokensFrom?_cons_eq_some.mp hrest
  obtain ⟨token', htoken', hrefilled⟩ := Frame.exists_token?_fill hfound hlinked hbody hsame htoken
  refine ⟨before, token, token', after, rfl, ofText_eq_ok_iff.mpr ⟨_, htrimmed'.trim_eq.symm ▸ hfill, ?_⟩, ?_⟩
  · refine Piece.tokensFrom?_append_eq_some.mpr ⟨before, token' :: after, hbefore, ?_, rfl⟩
    refine Piece.tokensFrom?_cons_eq_some.mpr ⟨token', after, htoken', ?_, rfl⟩
    have hlong : (f.fill (body.map .loose)).source.length = (f.fill inner).source.length :=
      (Frame.linked_fill hlinked hbody hsame).length_text.symm.trans hlinked.length_text
    simpa only [Piece.source, hlong] using hafter
  · rw [Nat.zero_add, ← hi, hlength] at hrefilled
    exact hrefilled

-- A paren and a comma in a string within an argument.
theorem ofText_refill_paren : ∃ before token token' after,
    ofText ":is([a=\x22xy\x22])>c".toList = .ok (before ++ token :: after) ∧
      ofText ":is([a=\x22),\x22])>c".toList = .ok (before ++ token' :: after) ∧
      Refilled 7 10 "),".toList token token' := by
  have htokens : ofText ":is([a=\x22xy\x22])>c".toList = .ok [
    ⟨.pseudoClass "is".toList (some "[a=\x22xy\x22]".toList) none none, ":is([a=\x22xy\x22])".toList, 0, 13⟩,
    ⟨.combinator, ">".toList, 13, 14⟩, ⟨.typeName none "c".toList, "c".toList, 14, 15⟩] := rfl
  have hstring : Text.HasString ":is([a=\x22xy\x22])>c".toList '\x22' 7 10 :=
    ⟨"xy".toList, List.mem_cons_self, rfl⟩
  have hbody : Text.Quotable '\x22' "),".toList := ⟨by decide, by decide, by decide⟩
  have hopen : ∀ c ∈ "),".toList, ¬Text.OpenAt ":is([a=\x22xy\x22])>c".toList c 7 := by
    rintro c hc ⟨hquote, -⟩
    rcases isQuote_iff.mp hquote with rfl | rfl <;> revert hc <;> decide
  obtain ⟨before, token, token', after, hsplit, hrefill, hrefilled⟩ :=
    ofText_refill rfl htokens hstring hbody rfl hopen
  exact ⟨before, token, token', after, hsplit ▸ htokens, hrefill, hrefilled⟩

-- A quote in a string closes one that was left open before it.
theorem not_ofText_refill : ¬∀ (text : Text) (tokens : List Token) (quote : Char) (i j : Nat) (body : Text),
    text.trim = text → ofText text = .ok tokens → text.HasString quote i j → body.Quotable quote →
    i + 1 + body.length = j → ∃ before token token' after, tokens = before ++ token :: after ∧
      ofText (text.refill i j body) = .ok (before ++ token' :: after) ∧ Refilled i j body token token' := by
  intro hall
  have htokens : ofText "[a=\x27\x22xy\x22]".toList = .ok [
    ⟨.attr none "a".toList (some "=".toList) (some "\x27\x22xy\x22".toList) none, "[a=\x27\x22xy\x22]".toList, 0, 9⟩] := rfl
  have hstring : Text.HasString "[a=\x27\x22xy\x22]".toList '\x22' 4 7 := ⟨"xy".toList, List.mem_cons_self, rfl⟩
  have hbody : Text.Quotable '\x22' "\x27]".toList := ⟨by decide, by decide, by decide⟩
  obtain ⟨before, token, token', after, -, hrefill, -⟩ := hall _ _ '\x22' 4 7 "\x27]".toList rfl htokens hstring hbody rfl
  have herror : ofText (Text.refill "[a=\x27\x22xy\x22]".toList 4 7 "\x27]".toList) =
    .error (.leftover "\x22]".toList 7) := rfl
  rw [herror] at hrefill
  cases hrefill

end Token

end CssSelectors
