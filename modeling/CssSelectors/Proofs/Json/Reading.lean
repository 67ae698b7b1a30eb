import CssSelectors.Proofs.Outcome
import CssSelectors.Proofs.Selector.Subtrees
import CssSelectors.Json.Decode

namespace CssSelectors

namespace Json

theorem lookup_given (key other : String) (text : Option Text) :
    (given key text).lookup other = if other = key then text.map str else none := by
  cases text with
  | none => simp [given]
  | some text =>
    rw [given, List.lookup_cons, List.lookup_nil]
    split <;> simp_all

-- The keys of a member that may be left out.
theorem map_fst_given_sublist (key : String) (text : Option Text) :
    ((given key text).map Prod.fst).Sublist [key] := by
  cases text with
  | none => exact List.nil_sublist _
  | some text => exact List.Sublist.refl _

end Json

open Json

namespace Tag

-- The keys that a token of some kind may have, in their order, but for its content and its place.
def keys : Tag → List String
  | attr => ["type", "namespace", "name", "operator", "value", "caseSensitive"]
  | id => ["type", "name"]
  | className => ["type", "name"]
  | comma => ["type"]
  | combinator => ["type"]
  | pseudoElement => ["type", "name", "argument"]
  | pseudoClass => ["type", "name", "argument", "index", "subtree"]
  | universal => ["type", "namespace"]
  | typeName => ["type", "namespace", "name"]

-- The words for nodes are no words for tokens.
theorem text_ne (tag : Tag) : tag.text ≠ "list" ∧ tag.text ≠ "complex" ∧ tag.text ≠ "compound" := by
  cases tag <;> decide

-- No key stands for two things.
theorem nodup_keys (tag : Tag) : (tag.keys ++ ["content", "pos"]).Nodup := by
  cases tag <;> decide

end Tag

theorem map_fst_subtreeMember_sublist (subtree : Option Selector) :
    ((subtreeMember subtree).map Prod.fst).Sublist ["subtree"] := by
  cases subtree with
  | none => exact List.nil_sublist _
  | some tree => exact List.Sublist.refl _

theorem Kind.map_fst_members_sublist (kind : Kind Selector) : (kind.members.map Prod.fst).Sublist kind.tag.keys := by
  cases kind with
  | attr ns name operator value caseFlag =>
    rw [members, List.map_append, List.map_append, List.map_append, List.map_append]
    exact (((((map_fst_given_sublist "namespace" ns).cons_cons "type").append (.refl ["name"])).append
      (map_fst_given_sublist "operator" operator)).append (map_fst_given_sublist "value" value)).append
      (map_fst_given_sublist "caseSensitive" caseFlag)
  | id name => exact .refl _
  | className name => exact .refl _
  | comma => exact .refl _
  | combinator => exact .refl _
  | pseudoElement name argument =>
    rw [members, List.map_append]
    exact (List.Sublist.refl _).append (map_fst_given_sublist "argument" argument)
  | pseudoClass name argument index subtree =>
    rw [members, List.map_append, List.map_append, List.map_append]
    exact (((List.Sublist.refl _).append (map_fst_given_sublist "argument" argument)).append
      (map_fst_given_sublist "index" index)).append (map_fst_subtreeMember_sublist subtree)
  | universal ns => exact (map_fst_given_sublist "namespace" ns).cons_cons "type"
  | typeName ns name =>
    rw [members, List.map_append]
    exact ((map_fst_given_sublist "namespace" ns).cons_cons "type").append (.refl ["name"])

theorem Members.text?_eq {members : Members} {key : String} (text : Option Text)
    (h : members.lookup key = text.map str) : members.text? key = text := by
  rw [text?, h]
  cases text <;> rfl

theorem Members.text_eq {members : Members} {key : String} (text : Text)
    (h : members.lookup key = some (.str text)) : members.text key = .ok text := by
  rw [Members.text, text?_eq (some text) h]

-- What a kind says can be read off its members again.
theorem Kind.kind_members (kind : Kind Selector) (content : Json) (pos : Json) :
    Members.kind (kind.members ++ [("content", content), ("pos", pos)]) (.ok kind.subtree?) kind.tag = .ok kind := by
  cases kind with
  | attr ns name operator value caseFlag =>
    rw [tag, Members.kind]
    rw [Members.text_eq name, Members.text?_eq ns, Members.text?_eq operator,
      Members.text?_eq value, Members.text?_eq caseFlag]
    · rfl
    all_goals simp [members, List.lookup_append, List.lookup_cons, lookup_given]
  | id name => rfl
  | className name => rfl
  | comma => rfl
  | combinator => rfl
  | pseudoElement name argument =>
    rw [tag, Members.kind]
    rw [Members.text_eq name, Members.text?_eq argument]
    · rfl
    all_goals simp [members, List.lookup_append, List.lookup_cons, lookup_given]
  | pseudoClass name argument index subtree =>
    rw [tag, Members.kind]
    rw [Members.text_eq name, Members.text?_eq argument, Members.text?_eq index]
    · rfl
    all_goals cases subtree <;> simp [members, List.lookup_append, List.lookup_cons, lookup_given, subtreeMember]
  | universal ns =>
    rw [tag, Members.kind]
    rw [Members.text?_eq ns]
    · rfl
    all_goals simp [members, List.lookup_append, List.lookup_cons, lookup_given]
  | typeName ns name =>
    rw [tag, Members.kind]
    rw [Members.text_eq name, Members.text?_eq ns]
    · rfl
    all_goals simp [members, List.lookup_append, List.lookup_cons, lookup_given]

theorem Kind.lookup_members_type (kind : Kind Selector) (more : Members) :
    (kind.members ++ more).lookup "type" = some (.ofString kind.tag.text) := by
  cases kind <;> rfl

-- No kind has a member of its own under a key that all tokens have.
theorem Kind.lookup_members_append (kind : Kind Selector) {key : String} (hkey : key ∈ ["content", "pos"])
    (more : Members) : (kind.members ++ more).lookup key = more.lookup key := by
  have hnot : key ∉ kind.members.map Prod.fst := by
    intro hmem
    have hdisjoint := (List.nodup_append.mp kind.tag.nodup_keys).2.2
    exact hdisjoint key (kind.map_fst_members_sublist.subset hmem) key hkey rfl
  rw [List.lookup_append, List.lookup_eq_none_iff.mpr, Option.none_or]
  intro member hmem
  rw [bne_iff_ne]
  rintro rfl
  exact hnot (List.mem_map_of_mem hmem)

theorem Kind.lookup_members_subtree (kind : Kind Selector) (content pos : Json) :
    (kind.members ++ [("content", content), ("pos", pos)]).lookup "subtree" = kind.subtree?.map Selector.toJson := by
  cases kind with
  | pseudoClass name argument index subtree =>
    cases subtree <;> simp [members, List.lookup_append, List.lookup_cons, lookup_given, subtreeMember, subtree?]
  | _ => simp [members, List.lookup_append, List.lookup_cons, lookup_given, subtree?]

-- The members of a token.
def Token.members (token : Token) : Members :=
  token.kind.members ++ [("content", .str token.content), ("pos", .arr [.ofNat token.start, .ofNat token.stop])]

theorem Token.toJson_eq (token : Token) : token.toJson = .obj token.members := by
  cases token
  rfl

theorem Token.word_members (token : Token) : Members.word token.members = .ok token.tag.text := by
  rw [Members.word, Token.members, Members.text_eq _ (token.kind.lookup_members_type _)]
  simp [bind, Except.bind, pure, Except.pure, tag]

theorem Token.place_members (token : Token) : Members.place token.members = .ok ⟨token.start, token.stop⟩ := by
  rw [Members.place, members, token.kind.lookup_members_append (by simp)]
  rfl

-- A token can be read off its members again, if its subtree can.
theorem Token.token_members (token : Token) : Members.token token.members (.ok token.kind.subtree?) = .ok token := by
  have hcontent : Members.text token.members "content" = .ok token.content :=
    Members.text_eq _ (token.kind.lookup_members_append (by simp) _)
  have hkind := token.kind.kind_members (.str token.content) (.arr [.ofNat token.start, .ofNat token.stop])
  refine bind_eq_ok.mpr ⟨_, token.word_members, ?_⟩
  rw [Tag.ofText?_text]
  refine bind_eq_ok.mpr ⟨_, hkind, bind_eq_ok.mpr ⟨_, hcontent, bind_eq_ok.mpr ⟨_, token.place_members, ?_⟩⟩⟩
  cases token
  rfl

namespace Selector

theorem subtreeIn_eq (members : Members) : subtreeIn members =
    match members.lookup "subtree" with
    | some value => some <$> ofJson value
    | none => .ok none := by
  induction members with
  | nil => rfl
  | cons member more ih =>
    obtain ⟨other, first⟩ := member
    rw [subtreeIn, List.lookup_cons]
    split
    case isTrue hkey =>
      subst hkey
      simp
    case isFalse hkey => rw [ih, beq_eq_false_iff_ne.mpr (Ne.symm hkey)]

theorem subtreeIn_members {token : Token}
    (h : ∀ tree, token.kind.subtree? = some tree → ofJson (toJson tree) = .ok tree) :
    subtreeIn token.members = .ok token.kind.subtree? := by
  rw [subtreeIn_eq, Token.members, Kind.lookup_members_subtree]
  cases hsubtree : token.kind.subtree? with
  | none => rfl
  | some tree =>
    rw [Option.map_some]
    dsimp only
    rw [h tree hsubtree]
    rfl

-- How each kind of node is read.
theorem ofJson_token {members : Members} {tag : Tag} (h : Members.word members = .ok tag.text) :
    ofJson (.obj members) = .leaf <$> Members.token members (subtreeIn members) := by
  obtain ⟨hlist, hcomplex, hcompound⟩ := tag.text_ne
  rw [ofJson, h]
  simp only [bind, Except.bind, if_neg hlist, if_neg hcomplex, if_neg hcompound]
  rfl

theorem ofJson_compound (items : List Json) :
    ofJson (.obj [("type", .ofString "compound"), ("list", .arr items)]) = .compound <$> tokensOf items := by
  rfl

theorem ofJson_list (items : List Json) :
    ofJson (.obj [("type", .ofString "list"), ("list", .arr items)]) = .list <$> selectorsOf items := by
  rfl

theorem ofJson_complex (combinator : Combinator) (left right : Json) :
    ofJson (.obj [("type", .ofString "complex"), ("combinator", .str combinator.text),
      ("left", left), ("right", right)]) =
      do return .complex combinator (← ofJson left) (← ofJson right) := by
  cases combinator <;> rfl

theorem tokensOf_tokensToJson {tokens : List Token} (h : ∀ token ∈ tokens, ∀ tree, token.kind.subtree? = some tree →
    ofJson (toJson tree) = .ok tree) : tokensOf (tokensToJson tokens) = .ok tokens := by
  induction tokens with
  | nil => rfl
  | cons token more ih =>
    obtain ⟨htoken, hmore⟩ := List.forall_mem_cons.mp h
    rw [tokensToJson, Token.toJson_eq, tokensOf, subtreeIn_members htoken, Token.token_members, ih hmore]
    rfl

theorem selectorsOf_selectorsToJson {trees : List Selector} (h : ∀ tree ∈ trees, ofJson (toJson tree) = .ok tree) :
    selectorsOf (selectorsToJson trees) = .ok trees := by
  induction trees with
  | nil => rfl
  | cons tree more ih =>
    obtain ⟨htree, hmore⟩ := List.forall_mem_cons.mp h
    rw [selectorsToJson, selectorsOf, htree, ih hmore]
    rfl

theorem hereditary_ofJson : Hereditary fun tree => ofJson (toJson tree) = .ok tree where
  leaf token h := by
    rw [toJson, Token.toJson_eq, ofJson_token token.word_members, subtreeIn_members h, Token.token_members]
    rfl
  compound tokens h := by
    rw [toJson, ofJson_compound, tokensOf_tokensToJson h]
    rfl
  complex combinator left right hleft hright := by
    rw [toJson, ofJson_complex, hleft, hright]
    rfl
  list alternatives h := by
    rw [toJson, ofJson_list, selectorsOf_selectorsToJson h]
    rfl

-- The selector that a value was made of can be read off it again.
theorem ofJson_toJson (tree : Selector) : ofJson (toJson tree) = .ok tree := hereditary_ofJson.all tree

end Selector

end CssSelectors
