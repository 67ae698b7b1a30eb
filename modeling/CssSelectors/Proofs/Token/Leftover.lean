import CssSelectors.Proofs.Token.Failing
import CssSelectors.Proofs.Token.Finding

namespace CssSelectors

open Text

theorem Word.flatMap_text_fragment (words : List Word) : (words.map fragment).flatMap Fragment.text = textOf words :=
  List.flatMap_map ..

namespace Fragment

variable {text hidden : Text} {words : List Word} {more : List Fragment}

theorem find?_eq_none_of_uncut_mem {tags : List Tag} (h : .uncut hidden ∈ passes tags [.uncut text]) :
    ∀ tag ∈ tags, tag.MissingFrom hidden ∧ tag.find? hidden = none := by
  intro tag htag
  have hmissing := (passed_passes tags text).uncut hidden h tag htag
  exact ⟨hmissing, Tag.find?_eq_none_iff.mpr hmissing⟩

-- Words among the fragments of a text say by themselves what they said where they were found.
theorem read?_of_ofText (h : ofText text = words.map Word.fragment ++ more) {word : Word} (hmem : word ∈ words) :
    word.text ≠ [] ∧ word.tag.read? word.text = some word.kind := by
  have hcut : word.fragment ∈ ofText text := h ▸ List.mem_append_left more (List.mem_map_of_mem hmem)
  obtain ⟨-, rest, hfront⟩ := (passed_passes Tag.all text).cut word.kind word.text hcut
  obtain ⟨c, taken, rest', htext, hlength⟩ := Tag.exists_of_front?_cons hfront
  refine ⟨?_, Tag.read?_of_front? hfront⟩
  rw [(List.append_inj htext hlength.symm).1]
  exact List.cons_ne_nil c taken

-- After words comes a stretch that is not empty and holds no token of any kind.
theorem exists_rest_of_ofText (h : ofText text = words.map Word.fragment ++ .uncut hidden :: more) :
    hidden ≠ [] ∧ (∃ rest, text = Word.textOf words ++ hidden ++ rest) ∧
      ∀ tag : Tag, tag.MissingFrom hidden ∧ tag.find? hidden = none := by
  have huncut : .uncut hidden ∈ passes Tag.all [.uncut text] := by
    rw [← ofText_eq_passes, h]
    exact List.mem_append_right _ List.mem_cons_self
  have htext := (passed_passes Tag.all text).flatMap_text
  rw [← ofText_eq_passes, h, List.flatMap_append, Word.flatMap_text_fragment, List.flatMap_cons,
    ← List.append_assoc] at htext
  exact ⟨ne_nil_of_uncut_mem_passes (List.cons_ne_nil _ _) huncut, ⟨_, htext.symm⟩,
    fun tag => find?_eq_none_of_uncut_mem huncut tag (Tag.mem_all tag)⟩

end Fragment

namespace Token

-- Words can be placed, and the tokens lie side by side.
theorem exists_placed (source : Text) (offset : Nat) {words : List Word} (hne : ∀ word ∈ words, word.text ≠ []) :
    ∃ tokens, place source offset (words.map Word.fragment) = .ok tokens ∧
      Tiles offset tokens (offset + (Word.textOf words).length) := by
  induction words generalizing offset with
  | nil => exact ⟨[], rfl, rfl⟩
  | cons word words ih =>
    obtain ⟨hword, hwords⟩ := List.forall_mem_cons.mp hne
    obtain ⟨tokens, hplace, htiles⟩ := ih (offset + word.text.length) hwords
    have hpos : 0 < word.text.length := List.length_pos_iff.mpr hword
    refine ⟨⟨word.kind, normalize word.kind word.text, offset, offset + word.text.length⟩ :: tokens, ?_, rfl, ?_, ?_⟩
    · rw [List.map_cons, Word.fragment, place, hplace]
      rfl
    · change offset < offset + word.text.length
      omega
    · rwa [Word.textOf_cons, List.length_append, ← Nat.add_assoc]

-- What is left over is the first stretch of the masked text that no kind of token has taken, as it was
-- before it was masked. All before it has been taken, and no token can be found in it any more. After as many
-- kinds of tokens as one likes, nothing that is left holds one of them.
theorem ofText_leftover :
    (∀ (text left : Text) (offset : Nat), ofText text = .error (.leftover left offset) →
      left ≠ [] ∧ offset + left.length ≤ text.trim.length ∧ left = text.trim.slice offset (offset + left.length) ∧
      ∃ masked words hidden more placed, Masked.ofText text.trim = .ok masked ∧
        Fragment.ofText masked.text = words.map Word.fragment ++ .uncut hidden :: more ∧
        hidden = masked.text.slice offset (offset + left.length) ∧ Word.textOf words = masked.text.take offset ∧
        (∀ word ∈ words, word.tag.read? word.text = some word.kind) ∧
        place text.trim 0 (words.map Word.fragment) = .ok placed ∧ Tiles 0 placed offset ∧
        ∀ tag : Tag, tag.MissingFrom hidden ∧ tag.find? hidden = none) ∧
    ∀ (count : Nat) (text hidden : Text), .uncut hidden ∈ Fragment.passes (Tag.all.take count) [.uncut text] →
      (∀ tag ∈ Tag.all.take count, tag.MissingFrom hidden ∧ tag.find? hidden = none) ∧
      Fragment.passes (Tag.all.take count) [.uncut hidden] = [.uncut hidden] := by
  refine ⟨?_, fun count text hidden h => ⟨Fragment.find?_eq_none_of_uncut_mem h, Fragment.passes_of_uncut_mem h⟩⟩
  intro text left offset h
  obtain ⟨masked, hmasked, hplace⟩ := exists_masked_of_leftover h
  obtain ⟨words, hidden, more, hfragments, herror⟩ := place_eq_error_iff.mp hplace
  simp only [Nat.zero_add, Error.leftover.injEq] at herror
  obtain ⟨hleft, rfl⟩ := herror
  obtain ⟨hne, ⟨rest, htext⟩, hmissing⟩ := Fragment.exists_rest_of_ofText hfragments
  have hmaskedLength : masked.text.length = text.trim.length := by
    obtain ⟨-, rfl⟩ := Masked.ofText_eq_ok_iff.mp hmasked
    exact Layers.length_text_ofText text.trim
  have hstop : (Word.textOf words).length + hidden.length ≤ text.trim.length := by
    rw [← hmaskedLength, htext, List.length_append, List.length_append]
    omega
  have hlength : left.length = hidden.length := by
    rw [hleft, length_slice]
    omega
  have hread (word : Word) (hword : word ∈ words) := Fragment.read?_of_ofText hfragments hword
  obtain ⟨placed, hplaced, htiles⟩ := exists_placed text.trim 0 fun word hword => (hread word hword).1
  rw [Nat.zero_add] at htiles
  rw [hlength]
  refine ⟨List.ne_nil_of_length_pos (hlength ▸ List.length_pos_iff.mpr hne), hstop, hleft, masked, words, hidden, more,
    placed, hmasked, hfragments, ?_, ?_, fun word hword => (hread word hword).2, hplaced, htiles, hmissing⟩
  · rw [htext, slice_middle]
  · rw [htext, List.append_assoc, List.take_left]

-- A type and an attribute with a hidden value before what is left over, and more after it. The first three kinds
-- of tokens leave the type alone.
theorem ofText_leftover_bang : ∃ masked words hidden more placed,
    ofText " a[b='c']!.d% ".toList = .error (.leftover ['!'] 8) ∧
    Text.trim " a[b='c']!.d% ".toList = "a[b='c']!.d%".toList ∧
    Masked.ofText (Text.trim " a[b='c']!.d% ".toList) = .ok masked ∧
    Fragment.ofText masked.text = words.map Word.fragment ++ .uncut hidden :: more ∧
    hidden = masked.text.slice 8 9 ∧ Word.textOf words = masked.text.take 8 ∧
    place (Text.trim " a[b='c']!.d% ".toList) 0 (words.map Word.fragment) = .ok placed ∧ Tiles 0 placed 8 ∧
    (∀ tag : Tag, tag.MissingFrom hidden ∧ tag.find? hidden = none) ∧
    .uncut "a!".toList ∈ Fragment.passes (Tag.all.take 3) [.uncut "a!.d".toList] ∧
    ∀ tag ∈ Tag.all.take 3, tag.MissingFrom "a!".toList ∧ tag.find? "a!".toList = none := by
  have herror : ofText " a[b='c']!.d% ".toList = .error (.leftover ['!'] 8) := rfl
  obtain ⟨-, -, -, masked, words, hidden, more, placed, hmasked, hfragments, hhidden, hwords, -, hplaced, htiles,
    hmissing⟩ := ofText_leftover.1 _ _ _ herror
  have hpasses : Fragment.passes (Tag.all.take 3) [.uncut "a!.d".toList] =
      [.uncut "a!".toList, .cut (.className "d".toList) ".d".toList] := rfl
  have huncut : .uncut "a!".toList ∈ Fragment.passes (Tag.all.take 3) [.uncut "a!.d".toList] := by
    rw [hpasses]
    exact List.mem_cons_self
  exact ⟨masked, words, hidden, more, placed, herror, rfl, hmasked, hfragments, hhidden, hwords, hplaced, htiles,
    hmissing, huncut, (ofText_leftover.2 _ _ _ huncut).1⟩

end Token

end CssSelectors
