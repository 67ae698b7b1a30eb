import CssSelectors.Proofs.Fragment.Cutting
import CssSelectors.Proofs.Grammar.Extent

namespace CssSelectors

open Text

namespace Fragment

variable {tag : Tag} {tags : List Tag}

-- Fragments after a number of passes, each of which cuts out one kind of token.
def passes (tags : List Tag) (fragments : List Fragment) : List Fragment :=
  tags.foldl (fun fragments tag => fragments.flatMap (cutOut tag)) fragments

theorem ofText_eq_passes (text : Text) : ofText text = passes Tag.all [uncut text] := rfl

theorem passes_append (tags : List Tag) (fs gs : List Fragment) :
    passes tags (fs ++ gs) = passes tags fs ++ passes tags gs := by
  induction tags generalizing fs gs with
  | nil => rfl
  | cons tag tags ih =>
    unfold passes at ih ⊢
    rw [List.foldl_cons, List.flatMap_append, ih]
    rfl

@[simp] theorem passes_nil (tags : List Tag) : passes tags [] = [] := by
  induction tags with
  | nil => rfl
  | cons tag tags ih => exact ih

-- A token that is cut out stays,
@[simp] theorem passes_cut_cons (tags : List Tag) (kind : Kind Selector) (w : Text) (fs : List Fragment) :
    passes tags (cut kind w :: fs) = cut kind w :: passes tags fs := by
  have hcut : passes tags [cut kind w] = [cut kind w] := by
    induction tags with
    | nil => rfl
    | cons tag tags ih => exact ih
  rw [← List.singleton_append, passes_append, hcut]
  rfl

-- and a stretch that is not is cut by the next pass, and what is left of it by those after.
theorem passes_uncut_cons (tags : List Tag) (u : Text) (fs : List Fragment) :
    passes tags (uncut u :: fs) = passes tags [uncut u] ++ passes tags fs := by
  rw [← List.singleton_append, passes_append]

theorem passes_cons_uncut (tag : Tag) (tags : List Tag) (u : Text) :
    passes (tag :: tags) [uncut u] = passes tags (cutOut tag (uncut u)) := by
  simp [passes]

-- Passes that find nothing leave a text as it is.
theorem passes_eq_self {tags : List Tag} {text : Text} (hne : text ≠ [])
    (h : ∀ tag ∈ tags, ∀ a b, text = a ++ b → b ≠ [] → tag.front? b = none) :
    passes tags [uncut text] = [uncut text] := by
  induction tags with
  | nil => rfl
  | cons tag tags ih =>
    obtain ⟨htag, htags⟩ := List.forall_mem_cons.mp h
    have hcutting : Cutting tag (text ++ []) [uncut text] :=
      .uncut hne (fun a b hab hb => by rw [List.append_nil]; exact htag a b hab hb) (by simp) .nil
    rw [List.append_nil] at hcutting
    rw [passes_cons_uncut, hcutting.cutOut_eq, ih htags]

theorem passes_append_tags (tags later : List Tag) (fragments : List Fragment) :
    passes (tags ++ later) fragments = passes later (passes tags fragments) :=
  List.foldl_append

-- A token that is found over a whole text is cut in one piece,
theorem cutOut_eq_cut {tag : Tag} {text : Text} {kind : Kind Selector}
    (h : tag.front? text = some (kind, text.length)) : cutOut tag (uncut text) = [cut kind text] := by
  have hcutting : Cutting tag (text ++ []) [cut kind text] := .cut (by rwa [List.append_nil]) .nil
  rw [List.append_nil] at hcutting
  exact hcutting.cutOut_eq

-- What the first kinds of tokens are not found in is cut by the next one as if it were the first.
theorem ofText_eq_passes_cutOut {before after : List Tag} {tag : Tag} (hall : Tag.all = before ++ tag :: after) {text : Text}
    (hne : text ≠ []) (h : ∀ other ∈ before, ∀ a b, text = a ++ b → b ≠ [] → other.front? b = none) :
    ofText text = passes after (cutOut tag (uncut text)) := by
  rw [ofText_eq_passes, hall, passes_append_tags, passes_eq_self hne h, passes_cons_uncut]

-- and so it is after kinds of tokens that are not found there.
theorem ofText_eq_cut {before after : List Tag} {tag : Tag} (hall : Tag.all = before ++ tag :: after) {text : Text}
    (h : ∀ other ∈ before, ∀ a b, text = a ++ b → b ≠ [] → other.front? b = none) {kind : Kind Selector}
    (hfront : tag.front? text = some (kind, text.length)) : ofText text = [cut kind text] := by
  obtain ⟨c, taken, rest, htext, -⟩ := Tag.exists_of_front?_cons hfront
  rw [ofText_eq_passes_cutOut hall (by simp [htext]) h, cutOut_eq_cut hfront, passes_cut_cons, passes_nil]

end Fragment

-- A token that has been cut out of a masked text.
structure Word where
  kind : Kind Selector
  text : Text

namespace Word

def tag (word : Word) : Tag := word.kind.tag

def fragment (word : Word) : Fragment := .cut word.kind word.text

-- The texts of words one after another.
def textOf (words : List Word) : Text := words.flatMap Word.text

@[simp] theorem textOf_nil : textOf [] = [] := rfl

@[simp] theorem textOf_cons (word : Word) (words : List Word) : textOf (word :: words) = word.text ++ textOf words := rfl

@[simp] theorem textOf_append (us vs : List Word) : textOf (us ++ vs) = textOf us ++ textOf vs := List.flatMap_append

-- The word was found at the front of some text.
def Found (word : Word) : Prop :=
  ∃ rest, Text.Unescaped (word.text ++ rest) ∧ word.tag.front? (word.text ++ rest) = some (word.kind, word.text.length)

theorem Found.unescaped {word : Word} (h : word.Found) : word.text.Unescaped := by
  obtain ⟨rest, hun, _⟩ := h
  exact hun.of_append_left

theorem Found.shape {word : Word} (h : word.Found) : word.tag.Shape word.text := by
  obtain ⟨rest, hun, hfront⟩ := h
  exact Tag.shape_of_front? hun.of_append_left hfront

-- A word says by itself what it said where it was found.
theorem Found.read? {word : Word} (h : word.Found) : word.tag.read? word.text = some word.kind := by
  obtain ⟨rest, _, hfront⟩ := h
  exact Tag.read?_of_front? hfront

-- No stretch of covers runs over from one word into the next.
def Parted : List Word → Prop
  | [] => True
  | word :: words => ¬CoversAt word.text (textOf words) ∧ Parted words

theorem coversAt_append_right {u v more : Text} (hv : v ≠ []) : CoversAt u (v ++ more) ↔ CoversAt u v := by
  obtain ⟨c, v, rfl⟩ := List.exists_cons_of_ne_nil hv
  rfl

theorem coversAt_append_left {before u v : Text} (h : CoversAt u v) : CoversAt (before ++ u) v := by
  obtain ⟨a, ha, hab⟩ := h
  exact ⟨a, by simp [List.getLast?_append, Option.mem_def.mp ha], hab⟩

theorem Parted.append {us vs : List Word} (hus : Parted us) (hvs : Parted vs) (hne : ∀ word ∈ us, word.text ≠ [])
    (h : ¬CoversAt (textOf us) (textOf vs)) : Parted (us ++ vs) := by
  induction us with
  | nil => exact hvs
  | cons word us ih =>
    obtain ⟨hword, hus⟩ := hus
    refine ⟨?_, ih hus (fun w hw => hne w (List.mem_cons_of_mem word hw)) (mt coversAt_append_left h)⟩
    cases us with
    | nil => simpa using h
    | cons next us =>
      have hnext : textOf (next :: us) ≠ [] := by
        have := hne next (by simp)
        simp [this]
      change ¬CoversAt word.text (textOf ((next :: us) ++ vs))
      rwa [textOf_append, coversAt_append_right hnext]

end Word

namespace Fragment

variable {tag : Tag} {tags : List Tag}

theorem Cutting.front?_isSome {text : Text} {fragments : List Fragment} (h : Cutting tag text fragments)
    (hnext : ∀ fragment ∈ fragments.head?, fragment.isUncut = false) (hne : text ≠ []) :
    (tag.front? text).isSome := by
  cases h with
  | nil => exact absurd rfl hne
  | cut hfront => simp [hfront]
  | uncut => simp [isUncut] at hnext

-- Words that are left of fragments are the tokens among these and what the passes make of the stretches between.
theorem exists_of_passes_cut_cons {kind : Kind Selector} {w : Text} {fragments : List Fragment} {words : List Word}
    (h : passes tags (cut kind w :: fragments) = words.map Word.fragment) : ∃ word more, words = word :: more ∧
      word.kind = kind ∧ word.text = w ∧ passes tags fragments = more.map Word.fragment := by
  rw [passes_cut_cons] at h
  obtain ⟨word, more, rfl, hword, hmore⟩ := List.map_eq_cons_iff.mp h.symm
  obtain ⟨hkind, htext⟩ := Fragment.cut.inj hword
  exact ⟨word, more, rfl, hkind, htext, hmore.symm⟩

theorem exists_of_passes_uncut_cons {u : Text} {fragments : List Fragment} {words : List Word}
    (h : passes tags (uncut u :: fragments) = words.map Word.fragment) : ∃ us vs, words = us ++ vs ∧
      passes tags [uncut u] = us.map Word.fragment ∧ passes tags fragments = vs.map Word.fragment := by
  rw [passes_uncut_cons] at h
  obtain ⟨us, vs, rfl, hus, hvs⟩ := List.map_eq_append_iff.mp h.symm
  exact ⟨us, vs, rfl, hus.symm, hvs.symm⟩

theorem uncut_ne_words (u : Text) (words : List Word) : [uncut u] ≠ words.map Word.fragment := by
  intro h
  obtain ⟨word, more, -, hword, -⟩ := List.map_eq_cons_iff.mp h.symm
  cases hword

-- Where a token has been cut out, that is the first word.
theorem Cutting.tag_of_head? {text : Text} {fragments : List Fragment} {words : List Word}
    (hcutting : Cutting tag text fragments) (hhead : ∀ fragment ∈ fragments.head?, fragment.isUncut = false)
    (h : passes tags fragments = words.map Word.fragment) : ∀ word ∈ words.head?, word.tag = tag := by
  cases hcutting with
  | nil =>
    obtain rfl : words = [] := by simpa using h.symm
    simp
  | @cut kind w rest fragments hfront hrest =>
    obtain ⟨word, words, rfl, rfl, -, -⟩ := exists_of_passes_cut_cons h
    intro first hfirst
    obtain rfl := Option.some.inj hfirst
    exact Tag.tag_of_front? hfront
  | uncut => simp [isUncut] at hhead

-- What the passes make of a stretch of text, if nothing of it is left uncut.
structure Covered (tags : List Tag) (text : Text) (words : List Word) : Prop where
  tag_mem : ∀ word ∈ words, word.tag ∈ tags
  textOf_eq : Word.textOf words = text
  found : ∀ word ∈ words, word.Found
  parted : Word.Parted words

theorem covered_of_cutting
    (ih : ∀ {text : Text} {words : List Word}, text.Unescaped →
      passes tags [uncut text] = words.map Word.fragment → Covered tags text words)
    {text : Text} {fragments : List Fragment} (hcutting : Cutting tag text fragments) {words : List Word}
    (hun : text.Unescaped) (h : passes tags fragments = words.map Word.fragment) :
    Covered (tag :: tags) text words := by
  induction hcutting generalizing words with
  | nil =>
    obtain rfl : words = [] := by simpa using h.symm
    exact ⟨by simp, rfl, by simp, trivial⟩
  | @cut kind w rest fragments hfront hrest ihrest =>
    obtain ⟨word, words, rfl, rfl, rfl, hmore⟩ := exists_of_passes_cut_cons h
    have hkind : word.kind.tag = tag := Tag.tag_of_front? hfront
    have hcovered := ihrest hun.of_append_right hmore
    refine ⟨List.forall_mem_cons.mpr ⟨?_, hcovered.tag_mem⟩, by simp [hcovered.textOf_eq],
      List.forall_mem_cons.mpr ⟨⟨rest, hun, ?_⟩, hcovered.found⟩, ?_, hcovered.parted⟩
    · rw [Word.tag, hkind]
      exact List.mem_cons_self
    · rwa [Word.tag, hkind]
    · rw [hcovered.textOf_eq]
      exact Tag.not_coversAt_of_front? hun hfront
  | @uncut u rest fragments hne hnone hnext hrest ihrest =>
    obtain ⟨us, vs, rfl, hus, hvs⟩ := exists_of_passes_uncut_cons h
    have hu := ih hun.of_append_left hus
    have hv := ihrest hun.of_append_right hvs
    have htags : ∀ word ∈ us, word.tag ∈ tag :: tags := fun word hword => List.mem_cons_of_mem tag (hu.tag_mem word hword)
    refine ⟨List.forall_mem_append.mpr ⟨htags, hv.tag_mem⟩, by simp [hu.textOf_eq, hv.textOf_eq],
      List.forall_mem_append.mpr ⟨hu.found, hv.found⟩, ?_⟩
    refine hu.parted.append hv.parted (fun word hword => ?_) ?_
    · exact (hu.found word hword).shape.ne_nil
    · rw [hu.textOf_eq, hv.textOf_eq]
      intro hcovers
      -- The next word would have begun one character before.
      have hrestne : rest ≠ [] := by
        rintro rfl
        obtain ⟨_, _, _, hb, _⟩ := hcovers
        simp at hb
      obtain ⟨a, ha, hsome⟩ := Tag.front?_isSome_of_coversAt hun hcovers (hrest.front?_isSome hnext hrestne)
      have hnone := hnone u.dropLast [a] (List.dropLast_append_getLast? a ha).symm (List.cons_ne_nil a [])
      rw [List.singleton_append] at hnone
      simp [hnone] at hsome

-- Words that a text has been cut into make it up, each was found where it stands, and no stretch
-- of covers is divided.
theorem covered_of_passes {text : Text} {words : List Word} (hun : text.Unescaped)
    (h : passes tags [uncut text] = words.map Word.fragment) : Covered tags text words := by
  induction tags generalizing text words with
  | nil => exact absurd h (uncut_ne_words text words)
  | cons tag tags ih =>
    rw [passes_cons_uncut] at h
    exact covered_of_cutting ih (cutting_cutOut tag text) hun h

end Fragment

end CssSelectors
