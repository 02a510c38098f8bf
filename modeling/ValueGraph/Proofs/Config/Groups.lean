/-
  ValueGraph.Proofs.Config.Groups

  Which groups of rules a text chooses.

  What a text chooses is what one of its tokens chooses (`member_parse_iff`), so a
  text chooses no group if none of its tokens is a name of one.  The token `none`
  chooses no group, but a token that is not known chooses none either, and nor
  does an empty one; only a text that is blank as a whole is taken for no choice
  at all.  Rules are therefore switched off by more than an explicit `none`
  (`separators_disable`), and `only_none_disables_iff` says by what.
-/
import ValueGraph.Config

namespace ValueGraph

namespace RuleGroups

/-- The tokens that choose a group. -/
def names : List String := ["fold", "zero", "methods", "all"]

/-- Whether a choice has any group in it. -/
def chooses (groups : RuleGroups) : Bool := groups.fold || groups.zero || groups.methods

theorem eq_none_iff {groups : RuleGroups} : groups = none ↔ groups.chooses = false := by
  obtain ⟨fold, zero, methods⟩ := groups
  simp [none, chooses, and_assoc]

theorem chooses_union (a b : RuleGroups) : (a.union b).chooses = (a.chooses || b.chooses) := by
  simp only [union, chooses]
  ac_rfl

/-- A known token chooses a group, unless it is `none` or empty. -/
theorem chooses_token_iff {token : String} :
    (∃ groups, ofToken? token = some groups ∧ groups.chooses = true) ↔ token ∈ names := by
  unfold ofToken?
  split <;> simp_all [names, chooses, all, none]

/-! ## Reading a choice -/

section Member

variable {member : RuleGroups → Bool}

theorem member_foldl_union (hunion : ∀ a b, member (a.union b) = (member a || member b))
    (choices : List RuleGroups) (start : RuleGroups) :
    member (choices.foldl union start) = (member start || choices.any member) := by
  induction choices generalizing start with
  | nil => simp
  | cons first rest ih => rw [List.foldl_cons, ih, hunion, List.any_cons, Bool.or_assoc]

/-- What is asked of a choice group by group holds of what a text chooses exactly if it holds of
    what one of its tokens chooses. -/
theorem member_parse_iff (hunion : ∀ a b, member (a.union b) = (member a || member b))
    (hnone : member none = false) (text : String) :
    member (parse text).1 = true ↔
      ∃ token ∈ tokens text, ∃ groups, ofToken? token = some groups ∧ member groups = true := by
  rw [parse, member_foldl_union hunion, hnone, Bool.false_or, List.any_eq_true]
  constructor
  · rintro ⟨groups, hchoice, hmember⟩
    obtain ⟨token, htoken, hgroups⟩ := List.mem_filterMap.mp hchoice
    exact ⟨token, htoken, groups, hgroups, hmember⟩
  · rintro ⟨token, htoken, groups, hgroups, hmember⟩
    exact ⟨groups, List.mem_filterMap.mpr ⟨token, htoken, hgroups⟩, hmember⟩

end Member

/-- A text chooses no group exactly if none of its tokens is a name of one. -/
theorem parse_eq_none_iff (text : String) :
    (parse text).1 = none ↔ ∀ token ∈ tokens text, token ∉ names := by
  rw [eq_none_iff, ← Bool.not_eq_true, member_parse_iff chooses_union rfl]
  simp only [chooses_token_iff, not_exists, not_and]

end RuleGroups

namespace Config

variable {config : Config} {text : String}

/-! ## The two texts -/

theorem groups_applyPasses (config : Config) (text : String) :
    (config.applyPasses text).1.groups = config.groups := by
  simp only [applyPasses]
  split <;> rfl

theorem groups_applyGroups_of_blank (hblank : Text.trim text.toList = []) :
    (config.applyGroups text).1.groups = config.groups := by
  rw [applyGroups, if_pos hblank]

theorem groups_applyGroups (htext : Text.trim text.toList ≠ []) :
    (config.applyGroups text).1.groups = (RuleGroups.parse text).1 := by
  rw [applyGroups, if_neg htext]
  rfl

/-- The groups are chosen by the first text alone. -/
theorem groups_ofTexts (rules passes : Option String) :
    (ofTexts rules passes).1.groups
      = ((rules.map standard.applyGroups).getD (standard, [])).1.groups := by
  cases passes with
  | none => rfl
  | some text => exact groups_applyPasses _ text

/-- A text that is not blank switches every rule off exactly if none of its tokens is a name of a
    group.  So "no rules" implies that one of the tokens is `none` just for the texts that are
    blank, or have this token, or have one that is a name. -/
theorem only_none_disables_iff (rules : String) (passes : Option String) :
    ((ofTexts (some rules) passes).1.groups = .none ↔
        Text.trim rules.toList ≠ [] ∧
          ∀ token ∈ RuleGroups.tokens rules, token ∉ RuleGroups.names) ∧
      (((ofTexts (some rules) passes).1.groups = .none → "none" ∈ RuleGroups.tokens rules) ↔
        Text.trim rules.toList = [] ∨ "none" ∈ RuleGroups.tokens rules ∨
          ∃ token ∈ RuleGroups.tokens rules, token ∈ RuleGroups.names) := by
  have hdisables : (ofTexts (some rules) passes).1.groups = .none ↔
      Text.trim rules.toList ≠ [] ∧
        ∀ token ∈ RuleGroups.tokens rules, token ∉ RuleGroups.names := by
    rw [groups_ofTexts, Option.map_some, Option.getD_some]
    by_cases hblank : Text.trim rules.toList = []
    · -- A blank text keeps the standard choice, which is not empty.
      have hall : standard.groups ≠ .none := by decide
      simp only [groups_applyGroups_of_blank hblank, hall, hblank, ne_eq, not_true_eq_false,
        false_and]
    · simp only [groups_applyGroups hblank, RuleGroups.parse_eq_none_iff, ne_eq, hblank,
        not_false_eq_true, true_and]
  refine ⟨hdisables, ?_⟩
  have hnames : (∃ token ∈ RuleGroups.tokens rules, token ∈ RuleGroups.names) ↔
      ¬ ∀ token ∈ RuleGroups.tokens rules, token ∉ RuleGroups.names := by
    simp
  rw [hdisables, hnames]
  grind

/-- A separator, and a word that names no group, switch every rule off without a `none`. -/
theorem separators_disable :
    ((ofTexts (some ",") none).1.groups = .none ∧ "none" ∉ RuleGroups.tokens ",") ∧
      (ofTexts (some "bogus") none).1.groups = .none ∧ "none" ∉ RuleGroups.tokens "bogus" := by
  decide

end Config

end ValueGraph
