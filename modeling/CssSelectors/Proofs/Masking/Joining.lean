import CssSelectors.Proofs.Masking.Sight

namespace CssSelectors

open Masked Text

namespace Text

-- A text of single characters, none of them a backslash, and of characters with a backslash before them.
inductive MadeOf (single escaped : Char → Prop) : Text → Prop
  | nil : MadeOf single escaped []
  | single {c : Char} {rest : Text} (hsingle : single c) (hslash : c ≠ '\\') (more : MadeOf single escaped rest) :
      MadeOf single escaped (c :: rest)
  | escape {c : Char} {rest : Text} (hescaped : escaped c) (more : MadeOf single escaped rest) :
      MadeOf single escaped ('\\' :: c :: rest)

namespace MadeOf

variable {single escaped : Char → Prop} {text : Text}

theorem mono {single' escaped' : Char → Prop} (h : text.MadeOf single escaped) (hsingle : ∀ c, single c → single' c)
    (hescaped : ∀ c, escaped c → escaped' c) : text.MadeOf single' escaped' := by
  induction h with
  | nil => exact .nil
  | single hc hslash _ ih => exact .single (hsingle _ hc) hslash ih
  | escape hc _ ih => exact .escape (hescaped _ hc) ih

-- Every character is a backslash or of one of the two kinds.
theorem forall_mem {P : Char → Prop} (h : text.MadeOf single escaped) (hslash : P '\\') (hsingle : ∀ c, single c → P c)
    (hescaped : ∀ c, escaped c → P c) : ∀ c ∈ text, P c := by
  induction h with
  | nil => simp
  | single hc _ _ ih => exact List.forall_mem_cons.mpr ⟨hsingle _ hc, ih⟩
  | escape hc _ ih => exact List.forall_mem_cons.mpr ⟨hslash, List.forall_mem_cons.mpr ⟨hescaped _ hc, ih⟩⟩

-- A last character that does not stand for itself is escaped.
theorem exists_of_getLast? (h : text.MadeOf single escaped) {c : Char} (hlast : text.getLast? = some c)
    (hc : ¬single c) : ∃ before, text = before ++ ['\\', c] ∧ before.MadeOf single escaped := by
  induction h with
  | nil => cases hlast
  | @single d rest hd hslash more ih =>
    have hne : rest ≠ [] := by
      rintro rfl
      obtain rfl : d = c := by simpa using hlast
      exact hc hd
    rw [← List.singleton_append, List.getLast?_append_of_ne_nil _ hne] at hlast
    obtain ⟨before, rfl, hbefore⟩ := ih hlast
    exact ⟨d :: before, rfl, .single hd hslash hbefore⟩
  | @escape d rest hd more ih =>
    by_cases hne : rest = []
    · subst hne
      obtain rfl : d = c := by simpa using hlast
      exact ⟨[], rfl, .nil⟩
    · have hsplit : '\\' :: d :: rest = ['\\', d] ++ rest := rfl
      rw [hsplit, List.getLast?_append_of_ne_nil _ hne] at hlast
      obtain ⟨before, rfl, hbefore⟩ := ih hlast
      exact ⟨'\\' :: d :: before, rfl, .escape hd hbefore⟩

-- With its escapes hidden such a text shows its single characters, and covers for the rest.
theorem forall_mem_shown (h : text.MadeOf single escaped) :
    ∀ c ∈ shown (text.sweep escapeAt), c = Cover.escape.char ∨ single c ∧ c ≠ '\\' := by
  induction h with
  | nil => simp
  | @single d rest hd hslash _ ih =>
    rw [shown_sweep_cons fun _ _ hc _ => hslash hc]
    exact List.forall_mem_cons.mpr ⟨.inr ⟨hd, hslash⟩, ih⟩
  | @escape d rest _ _ ih =>
    rw [shown_sweep_escape]
    exact List.forall_mem_cons.mpr ⟨.inl rfl, List.forall_mem_cons.mpr ⟨.inl rfl, ih⟩⟩

theorem notMem_shown (h : text.MadeOf single escaped) : '\\' ∉ shown (text.sweep escapeAt) := by
  intro hmem
  rcases h.forall_mem_shown _ hmem with hcover | ⟨_, hslash⟩
  · revert hcover
    decide
  · exact hslash rfl

end MadeOf

end Text

namespace Layers

-- A text that is masked on its own whatever follows it: what it escapes or encloses ends in it, and no quote
-- in it is left for another one to pair with.
structure SelfContained (text : Text) : Prop extends Enclosable text where
  strings : ∀ c, .loose c ∈ (ofText text).strings → isQuote c = false

variable {u v text : Text}

theorem SelfContained.ofText_append (h : SelfContained u) (v : Text) : ofText (u ++ v) = ofText u ++ ofText v := by
  have hescapes : (ofText (u ++ v)).escapes = (ofText u).escapes ++ (ofText v).escapes := sweep_escapeAt_append h.escapes v
  have hstrings : (ofText (u ++ v)).strings = (ofText u).strings ++ (ofText v).strings := by
    change sweep stringAt (shown (ofText (u ++ v)).escapes) = _
    rw [hescapes, shown_append]
    refine sweep_append_of_congr _ (sweep_stringAt_congr fun before c after hsplit hquote => ?_)
    have hparts : (ofText u).strings = before ++ .loose c :: after := hsplit
    rw [h.strings c (by simp [hparts])] at hquote
    cases hquote
  have hgroups : (ofText (u ++ v)).groups = (ofText u).groups ++ (ofText v).groups := by
    change sweep groupAt (shown (ofText (u ++ v)).strings) = _
    rw [hstrings, shown_append]
    exact sweep_append_of_congr _ (sweep_groupAt_congr fun c hc => (imbalanceFrom_eq_none_iff.mp h.balanced c hc).1)
  exact Layers.ext hescapes hstrings hgroups

theorem SelfContained.text_append (h : SelfContained u) (v : Text) :
    (ofText (u ++ v)).text = (ofText u).text ++ (ofText v).text := by
  rw [h.ofText_append, Layers.text_append]

-- Before a text that is balanced it leaves no paren over.
theorem SelfContained.imbalanceFrom_append (h : SelfContained u) (hv : imbalanceFrom 0 (ofText v).groups = none) :
    imbalanceFrom 0 (ofText (u ++ v)).groups = none := by
  have hu := h.balanced
  rw [imbalanceFrom_eq_none_iff] at hu hv ⊢
  rw [h.ofText_append]
  exact fun c hc => (List.mem_append.mp hc).elim (hu c) (hv c)

theorem SelfContained.append (hu : SelfContained u) (hv : SelfContained v) : SelfContained (u ++ v) where
  escapes := by simpa [hu.ofText_append] using ⟨hu.escapes, hv.escapes⟩
  balanced := hu.imbalanceFrom_append hv.balanced
  strings c hc := by
    rw [hu.ofText_append] at hc
    exact (List.mem_append.mp hc).elim (hu.strings c) (hv.strings c)

-- What stands in parens after such a text is hidden as one group.
theorem text_ofText_enclosed_append (hu : SelfContained u) (hv : Enclosable v) :
    (ofText (u ++ '(' :: v ++ [')'])).text = (ofText u).text ++ inside '(' ')' .group v := by
  have hidle : Idle [] := ⟨by simp [Plain], by simp⟩
  have hgroup := text_ofText_enclosed hv hidle hidle hidle
  rw [List.append_nil, List.nil_append, List.nil_append, List.nil_append] at hgroup
  rw [List.append_assoc, hu.text_append, hgroup]

theorem imbalanceFrom_enclosed_append (hu : SelfContained u) (hv : Enclosable v) :
    imbalanceFrom 0 (ofText (u ++ '(' :: v ++ [')'])).groups = none := by
  have hidle : Idle [] := ⟨by simp [Plain], by simp⟩
  have hgroup := imbalanceFrom_ofText_enclosed hv hidle hidle hidle
  rw [List.append_nil, List.nil_append, List.nil_append] at hgroup
  rw [List.append_assoc]
  exact hu.imbalanceFrom_append hgroup

theorem sweep_groupAt_of_notMem (h : '(' ∉ text) : text.sweep groupAt = text.map .loose :=
  sweep_of_idle fun _ hc => groupAt_of_ne fun hopen => h (hopen ▸ hc)

-- Where only escapes are hidden, what they leave in sight is masked.
theorem ofText_of_idle (h : (shown (text.sweep escapeAt)).Idle) : ofText text =
    ⟨text.sweep escapeAt, (shown (text.sweep escapeAt)).map .loose, (shown (text.sweep escapeAt)).map .loose⟩ := by
  rw [ofText, sweep_stringAt_plain h.1, shown_loose, sweep_groupAt_of_notMem fun hmem => (h.2 _ hmem).1 rfl]

theorem text_ofText_of_idle (h : (shown (text.sweep escapeAt)).Idle) : (ofText text).text = shown (text.sweep escapeAt) := by
  rw [ofText_of_idle h, Layers.text, shown_loose]

theorem selfContained_of_idle (h : (shown (text.sweep escapeAt)).Idle) : SelfContained text where
  escapes hmem := (h.1 _ hmem).1 rfl
  balanced := by
    rw [ofText_of_idle h, imbalanceFrom_eq_none_iff]
    exact fun c hc => h.2 c (by simpa using hc)
  strings c hc := by
    rw [ofText_of_idle h] at hc
    exact (h.1 c (by simpa using hc)).2

-- A text in which nothing opens or closes anything is in plain sight.
theorem selfContained_idle (h : text.Idle) : SelfContained text :=
  selfContained_of_idle (by rwa [sweep_escapeAt_plain h.1, shown_loose])

theorem text_ofText_idle (h : text.Idle) : (ofText text).text = text := by
  rw [text_ofText_of_idle (by rwa [sweep_escapeAt_plain h.1, shown_loose]), sweep_escapeAt_plain h.1, shown_loose]

section

variable {quote : Char} (hquote : isQuote quote = true) {body : Text} {escaped : Char → Prop}
  (hbody : body.MadeOf (fun c => c ≠ quote ∧ c ≠ '\n') escaped)
include hquote hbody

private theorem shown_escapes_string : shown (sweep escapeAt (quote :: body ++ [quote])) =
    quote :: (shown (body.sweep escapeAt) ++ [quote]) := by
  have hslash := (ne_of_isQuote hquote).2.1
  have hlast : sweep escapeAt [quote] = [.loose quote] := sweep_cons_of_none (escapeAt_of_ne hslash [])
  rw [List.cons_append, sweep_cons_of_none (escapeAt_of_ne hslash _), sweep_escapeAt_append hbody.notMem_shown, hlast,
    shown_cons, shown_append]
  rfl

-- Whatever a text between quotes escapes, they are its only quotes in sight,
private theorem exists_strings_string : ∃ item source, (ofText (quote :: body ++ [quote])).strings = [.taken item source] ∧
    (Swept.taken item source).shown = inside quote quote .string body := by
  have hinner : ∀ c ∈ shown (body.sweep escapeAt), c ≠ quote ∧ c ≠ '\n' := by
    intro c hc
    rcases hbody.forall_mem_shown c hc with rfl | ⟨hsingle, _⟩
    · refine ⟨?_, by decide⟩
      rintro rfl
      have hcover := isCover_of_isQuote hquote
      rw [isCover_char] at hcover
      cases hcover
    · exact hsingle
  have hclosed : stringBody? quote (shown (body.sweep escapeAt) ++ [quote]) = some (shown (body.sweep escapeAt)) :=
    stringBody?_append (fun hmem => (hinner _ hmem).1 rfl) (fun hmem => (hinner _ hmem).2 rfl) hbody.notMem_shown []
  have hlength : (shown (body.sweep escapeAt)).length = body.length := by
    have hlength := (linked_ofText body).length_escapes
    rwa [source_ofText] at hlength
  have hoffer := stringAt_eq_some.mpr ⟨hquote, _, hclosed, rfl, rfl⟩
  have hstrings : (ofText (quote :: body ++ [quote])).strings =
      [.taken (if (shown (body.sweep escapeAt)).isEmpty then none
        else some (inside quote quote .string (shown (body.sweep escapeAt))))
          (quote :: shown (body.sweep escapeAt) ++ [quote])] := by
    change sweep stringAt (shown (sweep escapeAt (quote :: body ++ [quote]))) = _
    rw [shown_escapes_string hquote hbody, sweep_cons_of_some hoffer, List.take_of_length_le (by simp),
      List.drop_of_length_le (by simp), sweep_nil]
    rfl
  refine ⟨_, _, hstrings, ?_⟩
  rw [Swept.IsString.eq_inside, inside, inside, hlength]

private theorem groups_string : (ofText (quote :: body ++ [quote])).groups = (inside quote quote .string body).map .loose := by
  obtain ⟨item, source, hstrings, hshown⟩ := exists_strings_string hquote hbody
  have hopen := (ne_of_isQuote hquote).2.2.1
  have hnot : '(' ∉ inside quote quote .string body := by
    simp [inside, hopen.symm, Cover.char]
  change sweep groupAt (shown (ofText (quote :: body ++ [quote])).strings) = _
  rw [hstrings, shown_cons, shown_nil, List.append_nil, hshown, sweep_groupAt_of_notMem hnot]

-- so they pair with each other,
theorem selfContained_string : SelfContained (quote :: body ++ [quote]) where
  escapes := by
    change '\\' ∉ shown (sweep escapeAt (quote :: body ++ [quote]))
    have hslash := (ne_of_isQuote hquote).2.1
    rw [shown_escapes_string hquote hbody]
    simp [hslash.symm, hbody.notMem_shown]
  balanced := by
    obtain ⟨_, _, hopen, hclose⟩ := ne_of_isQuote hquote
    rw [groups_string hquote hbody, imbalanceFrom_eq_none_iff]
    intro c hc
    have hmem : c ∈ inside quote quote .string body := by simpa using hc
    have hcases : c = quote ∨ c = Cover.string.char := by
      simp only [inside, List.cons_append, List.mem_cons, List.mem_append, List.mem_replicate, List.not_mem_nil] at hmem
      tauto
    rcases hcases with rfl | rfl
    · exact ⟨hopen, hclose⟩
    · decide
  strings c hc := by
    obtain ⟨item, source, hstrings, -⟩ := exists_strings_string hquote hbody
    rw [hstrings] at hc
    simp at hc

-- and hide all that is between them.
theorem text_ofText_string : (ofText (quote :: body ++ [quote])).text = inside quote quote .string body := by
  rw [Layers.text, groups_string hquote hbody, shown_loose]

end

end Layers

end CssSelectors
