import CssSelectors.Cover
import CssSelectors.Error
import CssSelectors.Text.Sweep
import CssSelectors.Token.Basic

namespace CssSelectors

-- A stretch of text that was hidden, as it was at that time, and where it stood. Hiding never
-- moves a character, so the offset is right before and after.
structure Replacement where
  value : Text
  offset : Nat
deriving DecidableEq, Repr

namespace Replacement

def stop (replacement : Replacement) : Nat := replacement.offset + replacement.value.length

end Replacement

-- A text with parts of it hidden, and what they were, in the order in which they were hidden.
structure Masked where
  text : Text
  replacements : List Replacement
deriving DecidableEq, Repr

namespace Masked

-- A sweep that hides takes stretches of text. It puts a text of the same length in place of
-- one, or leaves it as it is.
abbrev Hidden := List (Swept (Option Text))

-- The text after a sweep.
def shown (parts : Hidden) : Text :=
  parts.flatMap fun
    | .taken (some cover) _ => cover
    | part => part.source

-- What a sweep has hidden, from some offset on.
def hiddenFrom : Nat → Hidden → List Replacement
  | _, [] => []
  | offset, .taken (some _) value :: more =>
    ⟨value, offset⟩ :: hiddenFrom (offset + value.length) more
  | offset, part :: more => hiddenFrom (offset + part.source.length) more

-- A backslash and the character after it.
def escapeAt (c : Char) : Text → Option (Option Text × Nat)
  | [] => none
  | _ :: _ => if c = '\\' then some (some (List.replicate 2 Cover.escape.char), 1) else none

-- The body of a string after its opening quote, if it is closed before a line ends and before
-- a backslash stands in it.
def stringBody? (quote : Char) : Text → Option Text
  | [] => none
  | c :: rest =>
    if c = quote then some []
    else if c = '\n' || c = '\\' then none
    else (stringBody? quote rest).map (c :: ·)

-- The same text with one character repeated between its ends.
def inside (opening closing : Char) (cover : Cover) (body : Text) : Text :=
  opening :: List.replicate body.length cover.char ++ [closing]

-- A string. Its quotes stay in sight, and an empty one has nothing to hide.
def stringAt (c : Char) (rest : Text) : Option (Option Text × Nat) :=
  if c = '\x22' || c = '\x27' then
    (stringBody? c rest).map fun body =>
      (if body.isEmpty then none else some (inside c c .string body), body.length + 1)
  else none

-- What parens hold, after the opening one and with a number of further parens open.
def groupBody? : Nat → Text → Option Text
  | _, [] => none
  | depth, c :: rest =>
    if c = '(' then (groupBody? (depth + 1) rest).map (c :: ·)
    else if c = ')' then
      match depth with
      | 0 => some []
      | depth + 1 => (groupBody? depth rest).map (c :: ·)
    else (groupBody? depth rest).map (c :: ·)

-- Parens with all that they hold, other parens included.
def groupAt (c : Char) (rest : Text) : Option (Option Text × Nat) :=
  if c = '(' then
    (groupBody? 0 rest).map fun body =>
      (some (inside '(' ')' .group body), body.length + 1)
  else none

-- The first paren that no group took, in the parts from some offset on.
def imbalanceFrom : Nat → Hidden → Option Error
  | _, [] => none
  | offset, .loose c :: more =>
    if c = '(' then some (.imbalance .unclosed offset)
    else if c = ')' then some (.imbalance .unopened offset)
    else imbalanceFrom (offset + 1) more
  | offset, .taken _ value :: more => imbalanceFrom (offset + value.length) more

-- A text is masked by hiding first escapes, then strings, then groups, each in what the ones
-- before have left in sight. So a quote that is escaped opens no string, and a paren in a string
-- belongs to no group.
def ofText (text : Text) : Except Error Masked :=
  let escapes := text.sweep escapeAt
  let strings := (shown escapes).sweep stringAt
  let groups := (shown strings).sweep groupAt
  match imbalanceFrom 0 groups with
  | some error => .error error
  | none =>
    .ok ⟨shown groups, hiddenFrom 0 escapes ++ hiddenFrom 0 strings ++ hiddenFrom 0 groups⟩

end Masked

namespace Replacement

-- A token with a replacement put back into its content. Nothing is put back unless the token
-- stands around it and has enough content.
def putBack (replacement : Replacement) (token : Token) : Token :=
  let start := replacement.offset - token.start
  let stop := start + replacement.value.length
  if token.start ≤ replacement.offset && replacement.stop ≤ token.stop &&
      stop ≤ token.content.length then
    { token with
      content := token.content.take start ++ replacement.value ++ token.content.drop stop }
  else token

-- To put a replacement back changes the content alone, and not its length.
theorem exists_putBack_eq (replacement : Replacement) (token : Token) :
    ∃ content, replacement.putBack token = { token with content } ∧
      content.length = token.content.length := by
  unfold putBack
  dsimp only
  split
  case isTrue h =>
    simp only [Bool.and_eq_true, decide_eq_true_eq] at h
    refine ⟨_, rfl, ?_⟩
    simp only [List.length_append, List.length_take, List.length_drop]
    omega
  case isFalse => exact ⟨token.content, by cases token; rfl, rfl⟩

end Replacement

namespace Masked

-- A token with all that it hides put back, and whether any step changed it. What was hidden last
-- comes back first, since its value may hold covers of what was hidden before.
def unmask (masked : Masked) (token : Token) : Token × Bool :=
  masked.replacements.foldr
    (fun replacement (current, changed) =>
      let next := replacement.putBack current
      (next, changed || next.content != current.content))
    (token, false)

-- The token that comes out does not depend on keeping track of changes.
theorem fst_unmask (masked : Masked) (token : Token) :
    (masked.unmask token).1 = masked.replacements.foldr Replacement.putBack token := by
  unfold unmask
  induction masked.replacements with
  | nil => rfl
  | cons replacement more ih => rw [List.foldr_cons, List.foldr_cons, ← ih]

-- Unmasking keeps the kind of a token, its place and the length of its content.
theorem exists_unmask_eq (masked : Masked) (token : Token) :
    ∃ content, (masked.unmask token).1 = { token with content } ∧
      content.length = token.content.length := by
  rw [fst_unmask]
  induction masked.replacements with
  | nil => exact ⟨token.content, by cases token; rfl, rfl⟩
  | cons replacement more ih =>
    obtain ⟨before, hbefore, hlength⟩ := ih
    rw [List.foldr_cons, hbefore]
    obtain ⟨after, hafter, hsame⟩ := replacement.exists_putBack_eq
      { token with content := before }
    exact ⟨after, hafter, hsame.trans hlength⟩

-- Tokens with all that they hide put back, and the places of those that this changed.
def unmaskAll (masked : Masked) (tokens : List Token) : List Token × List Nat :=
  let results := tokens.map masked.unmask
  (results.map Prod.fst, (results.zipIdx.filter fun ((_, changed), _) => changed).map Prod.snd)

end Masked

end CssSelectors
