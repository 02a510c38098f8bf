/-
  ValueGraph.Proofs.Config.Tokens

  A text chooses what its tokens choose, and warns of those that are not known.

  The tokens of a text are its parts between commas, without the blanks around
  them and in lower case (`hasTokens_iff`).  A group is chosen exactly if its name
  is a token, or the name of all groups is (`has_parse_iff`), and every token that
  says nothing about groups has its warning, in the order of the text
  (`warnings_parse`).  Two texts joined have the tokens of both (`tokens_join`), so
  they choose and warn of what each of them does (`parse_join`).  Only the set of
  the tokens matters for the choice, not how often, in which order, in which case
  or with which blanks around them they stand there (`parse_of_respelled`).
-/
import ValueGraph.Proofs.Config.Groups
import ValueGraph.Proofs.Pairwise
import ValueGraph.Proofs.Text.Parts

namespace ValueGraph

/-- A group of rules. -/
inductive RuleGroup where
  | fold
  | zero
  | methods
deriving DecidableEq

/-- The token that chooses a group. -/
def RuleGroup.name : RuleGroup → String
  | fold => "fold"
  | zero => "zero"
  | methods => "methods"

namespace RuleGroups

/-- Whether a group is in a choice. -/
def has (groups : RuleGroups) : RuleGroup → Bool
  | .fold => groups.fold
  | .zero => groups.zero
  | .methods => groups.methods

/-- The tokens that give no warning: those that choose a group, the one that chooses none, and the
    empty one. -/
def known : List String := names ++ ["none", ""]

variable {a b : RuleGroups} {text other word : String} {ts : List String}

theorem ext_has (h : ∀ group, a.has group = b.has group) : a = b := by
  obtain ⟨fold, zero, methods⟩ := a
  obtain ⟨fold', zero', methods'⟩ := b
  obtain rfl : fold = fold' := h .fold
  obtain rfl : zero = zero' := h .zero
  obtain rfl : methods = methods' := h .methods
  rfl

theorem has_union (a b : RuleGroups) (group : RuleGroup) :
    (a.union b).has group = (a.has group || b.has group) := by
  cases group <;> rfl

theorem has_none (group : RuleGroup) : none.has group = false := by
  cases group <;> rfl

/-- A token chooses a group if it is the name of the group, or that of all groups. -/
theorem has_token_iff {group : RuleGroup} :
    (∃ groups, ofToken? word = some groups ∧ groups.has group = true) ↔
      word = group.name ∨ word = "all" := by
  unfold ofToken?
  split <;> cases group <;> simp_all [has, all, none, RuleGroup.name]

theorem isNone_ofToken?_iff : (ofToken? word).isNone = true ↔ word ∉ known := by
  unfold ofToken?
  split <;> simp_all [known, names]

/-! ## Tokens -/

/-- The tokens of a text are its parts between commas, each of them without the blanks around it and
    with ASCII letters in lower case. -/
def HasTokens (text : String) (ts : List String) : Prop :=
  ∃ parts, Text.Splits ',' text.toList parts ∧
    List.Forall₂ (fun part word =>
      ∃ core, Text.Trims part core ∧ word = String.ofList (core.map Char.toLower)) parts ts

theorem hasTokens_iff : HasTokens text ts ↔ ts = tokens text := by
  have htoken : ∀ part word, (∃ core, Text.Trims part core ∧
      word = String.ofList (core.map Char.toLower)) ↔ token part = word := by
    intro part word
    simp only [Text.trims_iff, exists_eq_left', token]
    exact eq_comm
  simp only [HasTokens, Text.splits_iff, exists_eq_left', htoken]
  rw [← List.forall₂_map_left_iff, List.forall₂_eq_eq_eq, tokens]
  exact eq_comm

theorem tokens_join (text more : String) :
    tokens (text ++ "," ++ more) = tokens text ++ tokens more := by
  have hjoin : (text ++ "," ++ more).toList = text.toList ++ ',' :: more.toList := by
    simp
  rw [tokens, hjoin, Text.fields_append, List.map_append, tokens, tokens]

/-- Parts that differ in case and in the blanks around them are the same token. -/
theorem token_eq_of_respells {part part' : List Char} (h : Text.Respells part part') :
    token part = token part' := by
  rw [token, token, h.trim_toLower_eq]

/-! ## Reading tokens -/

theorem has_parse_iff (text : String) (group : RuleGroup) :
    (parse text).1.has group = true ↔ group.name ∈ tokens text ∨ "all" ∈ tokens text := by
  have hmember : (parse text).1.has group = true ↔
      ∃ word ∈ tokens text, ∃ groups, ofToken? word = some groups ∧ groups.has group = true :=
    @member_parse_iff (·.has group) (has_union · · group) (has_none group) text
  simp only [hmember, has_token_iff]
  constructor
  · rintro ⟨word, hword, rfl | rfl⟩
    · exact Or.inl hword
    · exact Or.inr hword
  · rintro (hname | hall)
    · exact ⟨_, hname, Or.inl rfl⟩
    · exact ⟨_, hall, Or.inr rfl⟩

theorem warnings_parse (text : String) :
    (parse text).2 = ((tokens text).filter (· ∉ known)).map .unknownRuleGroup := by
  have hunknown : ∀ word : String, (ofToken? word).isNone = decide (word ∉ known) := by
    intro word
    rw [Bool.eq_iff_iff, isNone_ofToken?_iff, decide_eq_true_eq]
  simp only [parse, hunknown]

/-- What two lists of choices choose is chosen by the one or by the other. -/
theorem foldl_union_append (choices more : List RuleGroups) :
    (choices ++ more).foldl union none
      = (choices.foldl union none).union (more.foldl union none) := by
  calc (choices ++ more).foldl union none
      = more.foldl union ((choices.foldl union none).union none) := by
        rw [List.foldl_append, union_none]
    _ = (choices.foldl union none).union (more.foldl union none) := List.foldl_assoc

theorem parse_join (text more : String) :
    parse (text ++ "," ++ more)
      = ((parse text).1.union (parse more).1, (parse text).2 ++ (parse more).2) := by
  rw [parse, parse, parse, tokens_join, List.filterMap_append, foldl_union_append,
    List.filter_append, List.map_append]

/-- Two texts with the same set of tokens choose the same groups. -/
theorem groups_parse_congr (h : ∀ word, word ∈ tokens text ↔ word ∈ tokens other) :
    (parse text).1 = (parse other).1 := by
  apply ext_has
  intro group
  rw [Bool.eq_iff_iff, has_parse_iff, has_parse_iff, h, h]

/-- If every part of each of two texts is in the other, up to case and blanks around it, then they
    choose the same groups. -/
theorem parse_of_respelled {parts parts' : List (List Char)}
    (hparts : Text.Splits ',' text.toList parts) (hparts' : Text.Splits ',' other.toList parts')
    (hthere : ∀ part ∈ parts, ∃ part' ∈ parts', Text.Respells part part')
    (hback : ∀ part' ∈ parts', ∃ part ∈ parts, Text.Respells part part') :
    (parse text).1 = (parse other).1 := by
  obtain rfl : Text.fields ',' text.toList = parts := Text.splits_iff.mp hparts
  obtain rfl : Text.fields ',' other.toList = parts' := Text.splits_iff.mp hparts'
  apply groups_parse_congr
  intro word
  rw [tokens, tokens, List.mem_map, List.mem_map]
  constructor
  · rintro ⟨part, hpart, rfl⟩
    obtain ⟨part', hpart', hrespells⟩ := hthere part hpart
    exact ⟨part', hpart', (token_eq_of_respells hrespells).symm⟩
  · rintro ⟨part', hpart', rfl⟩
    obtain ⟨part, hpart, hrespells⟩ := hback part' hpart'
    exact ⟨part, hpart, token_eq_of_respells hrespells⟩

/-- What it means that a text is read as the union of its tokens. -/
structure ReadsTokens (text : String) : Prop where
  tokens : ∀ ts, HasTokens text ts ↔ ts = tokens text
  /-- A group is chosen if its name is a token, or the name of all groups is. -/
  group : ∀ group, (parse text).1.has group = true ↔
    group.name ∈ RuleGroups.tokens text ∨ "all" ∈ RuleGroups.tokens text
  /-- Every token that is not known has its warning, in the order of the text. -/
  warnings : (parse text).2 = ((RuleGroups.tokens text).filter
    (· ∉ ["fold", "zero", "methods", "all", "none", ""])).map .unknownRuleGroup
  /-- Joining two texts joins their choices and their warnings. -/
  join : ∀ more, parse (text ++ "," ++ more)
    = ((parse text).1.union (parse more).1, (parse text).2 ++ (parse more).2)
  /-- The order, the number, the case and the padding of the parts do not matter for the choice. -/
  respelled : ∀ other parts parts', Text.Splits ',' text.toList parts →
    Text.Splits ',' other.toList parts' →
    (∀ part ∈ parts, ∃ part' ∈ parts', Text.Respells part part') →
    (∀ part' ∈ parts', ∃ part ∈ parts, Text.Respells part part') →
    (parse text).1 = (parse other).1

/-- Every text is read as the union of its tokens. -/
theorem parse_reads_tokens (text : String) : ReadsTokens text where
  tokens _ := hasTokens_iff
  group := has_parse_iff text
  warnings := warnings_parse text
  join := parse_join text
  respelled _ _ _ := parse_of_respelled

/-- The tokens of a text with blanks, an empty part and a word that names no group. -/
theorem parse_reads_tokens_sample :
    (parse " Zero ,bogus,,FOLD").1.has .fold = true ∧
      (parse " Zero ,bogus,,FOLD").1.has .methods = false ∧
      (parse " Zero ,bogus,,FOLD").2 = [.unknownRuleGroup "bogus"] := by
  obtain ⟨-, hgroup, hwarnings, -, -⟩ := parse_reads_tokens " Zero ,bogus,,FOLD"
  refine ⟨(hgroup .fold).mpr (by decide), ?_, ?_⟩
  · rw [← Bool.not_eq_true, hgroup]
    decide
  · rw [hwarnings]
    decide

end RuleGroups

end ValueGraph
