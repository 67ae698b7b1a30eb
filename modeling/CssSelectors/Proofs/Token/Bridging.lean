import CssSelectors.Proofs.Token.Retokenizing

namespace CssSelectors

open Masked Text Grammar

namespace Token

-- What the sweeps make of the content of a token by itself.
def layers (token : Token) : Layers := Layers.ofText token.content

-- The text of a token while its escapes are covered, and while all that can be is.
def veiled (token : Token) : Text := shown token.layers.escapes

def masked (token : Token) : Text := token.layers.text

-- A quote in the token begins no string, and the line that it stands in goes on to the end.
def LeavesOpen (token : Token) (quote : Char) : Prop :=
  isQuote quote = true ∧ ∃ before after, token.layers.strings = before ++ .loose quote :: after ∧
    '\n' ∉ after.flatMap Swept.source

-- A quote of the same kind stands in the line that the token begins with.
def Meets (token : Token) (quote : Char) : Prop :=
  ∃ before after, token.veiled = before ++ quote :: after ∧ '\n' ∉ before

-- Between two tokens a line ends elsewhere than in delimiters, if they could become one: if the
-- second has a quote for one that the first leaves open, or an end for a value that begins at the
-- bracket of the first.
structure Apart (first : Token) (between : List Token) (second : Token) : Prop where
  quotes : ∀ quote, first.LeavesOpen quote → second.Meets quote →
    ∃ token ∈ between, token.tag.delimits = false ∧ '\n' ∈ token.veiled
  brackets : OpenEnded first.masked → ReachesEnd second.masked →
    ∃ token ∈ between, token.tag.delimits = false ∧ '\n' ∈ token.masked

end Token

namespace Piece

namespace Stage

variable {f : Layers → Hidden} {offer : Char → Text → Option (Option Text × Nat)} {before after : List Piece} {p : Piece}

-- A sweep takes the same from a piece alone, if the end of the text does not come too early.
theorem sweep_alone (hf : Stage f)
    (hcongr : ∀ V, Text.sweep offer ((f p.layers).flatMap Swept.source ++ V) = f p.layers ++ Text.sweep offer V →
      Text.sweep offer ((f p.layers).flatMap Swept.source ++ []) = f p.layers ++ Text.sweep offer [])
    (h : Text.sweep offer ((f (joined (before ++ p :: after))).flatMap Swept.source) = f (joined (before ++ p :: after))) :
    Text.sweep offer ((f p.layers).flatMap Swept.source) = f p.layers := by
  simp only [joined_append, joined, hf.append] at h
  exact sweep_middle hcongr h

end Stage

namespace Reading

variable {source : Text} {ps : List Piece} {p : Piece}

-- So a piece is masked by itself as it is masked among the others.
theorem layers_ofText (h : Reading source ps) (hp : p ∈ ps) : Layers.ofText p.source = p.layers := by
  have hescapes := Layers.sweep_escapes_ofText source
  have hstrings := Layers.sweep_strings_ofText source
  have hgroups := Layers.sweep_groups_ofText source
  rw [h.layers_eq] at hescapes hstrings hgroups
  have hlinked := h.linked p hp
  have hloose : ∀ c, .loose c ∈ p.layers.groups → c ≠ '(' := fun c hc => (h.loose_mem_groups hp hc).1
  obtain ⟨before, after, rfl⟩ := List.append_of_mem hp
  have hescapes : Text.sweep escapeAt p.source = p.layers.escapes :=
    stage_escapes.sweep_alone (fun V => sweep_escapeAt_congr fun _ => rfl) hescapes
  have hstrings : Text.sweep stringAt (shown p.layers.escapes) = p.layers.strings := by
    rw [← hlinked.strings_eq]
    refine stage_strings.sweep_alone (fun V => sweep_stringAt_congr fun _ _ _ _ _ hnone => ?_) hstrings
    rw [List.append_nil]
    exact stringBody?_eq_none_of_append hnone
  have hgroups : Text.sweep groupAt (shown p.layers.strings) = p.layers.groups := by
    rw [← hlinked.groups_eq]
    exact stage_groups.sweep_alone (fun V => sweep_groupAt_congr hloose) hgroups
  simp only [Layers.ofText, hescapes, hstrings, hgroups]

end Reading

namespace Reading

variable {source : Text} {ps : List Piece} {tokens : List Token}

end Reading

end Piece

namespace Token

end Token

end CssSelectors
