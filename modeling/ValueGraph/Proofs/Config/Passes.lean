/-
  ValueGraph.Proofs.Config.Passes

  The texts that set the number of passes.

  There are two ways to write a pass setting, the word `fixpoint` in any case and
  a positive count within 32 bits (`PassSetting.Written`), and a text without
  blanks around it is read as a setting exactly if it is written in one of them
  (`parse?_eq_some_iff`).  Any other text leaves a single pass and is warned of
  (`ReadsPasses`).  The two texts of the settings do not meet: the rules come from
  the one and the passes from the other (`passes_by_grammar`).
-/
import ValueGraph.Proofs.Config.Groups
import ValueGraph.Proofs.Decimal.Numeral
import ValueGraph.Proofs.Text.Parts

namespace ValueGraph.Config

variable {t : List Char} {setting : PassSetting} {value : Nat}

/-! ## The grammar -/

/-- How a pass setting is written, without blanks around it. -/
inductive PassSetting.Written : List Char → PassSetting → Prop
  | fixpoint {t : List Char} : Text.SameUpToCase t "fixpoint".toList → Written t .fixpoint
  | atMost {t : List Char} {count : UInt32} :
      Decimal.WrittenCount t count.toNat → 0 < count → Written t (.atMost count)

/-- The word is in lower case already. -/
theorem sameUpToCase_fixpoint_iff :
    Text.SameUpToCase t "fixpoint".toList ↔ t.map Char.toLower = "fixpoint".toList := by
  have hlower : "fixpoint".toList.map Char.toLower = "fixpoint".toList := by decide
  rw [Text.SameUpToCase, hlower]

/-- A digit is no letter, and a plus sign is none either. -/
theorem not_sameUpToCase_of_writtenCount (h : Decimal.WrittenCount t value) :
    ¬ Text.SameUpToCase t "fixpoint".toList := by
  intro hword
  have hmem : 'f' ∈ t.map Char.toLower := by
    rw [sameUpToCase_fixpoint_iff.mp hword]
    decide
  obtain ⟨c, hc, hlower⟩ := List.mem_map.mp hmem
  rcases h.isDigit c hc with rfl | hdigit
  · exact absurd hlower (by decide)
  · simp only [Char.isDigit, Bool.and_eq_true, decide_eq_true_eq] at hdigit
    have hsame : c.toLower = c := by
      unfold Char.toLower
      rw [dif_neg]
      rintro ⟨hupper, -⟩
      exact absurd (UInt32.le_trans hupper hdigit.2) (by decide)
    rw [hsame] at hlower
    subst hlower
    exact absurd hdigit.2 (by decide)

/-- A text is read as the settings that it is written for, and as no other. -/
theorem parse?_eq_some_iff : PassSetting.parse? t = some setting ↔ setting.Written t := by
  rw [PassSetting.parse?]
  by_cases hword : Text.SameUpToCase t "fixpoint".toList
  · rw [if_pos (sameUpToCase_fixpoint_iff.mp hword)]
    constructor
    · intro h
      cases h
      exact .fixpoint hword
    · intro h
      cases h with
      | fixpoint _ => rfl
      | atMost hcount _ => exact absurd hword (not_sameUpToCase_of_writtenCount hcount)
  · rw [if_neg (mt sameUpToCase_fixpoint_iff.mpr hword)]
    constructor
    · intro h
      split at h
      case h_2 => cases h
      case h_1 count hcount =>
        obtain ⟨hpositive, hsetting⟩ := Option.ite_none_right_eq_some.mp h
        cases hsetting
        exact .atMost (Decimal.count?_eq_some_iff.mp hcount) hpositive
    · intro h
      cases h with
      | fixpoint hsame => exact absurd hsame hword
      | atMost hcount hpositive =>
          rw [Decimal.count?_eq_some_iff.mpr hcount]
          exact if_pos hpositive

/-! ## The two texts -/

/-- What two texts choose: so many passes, whether the last of them has to leave nothing to do, and
    warnings besides those about the rules.  The groups of rules are those of the first text. -/
structure Chooses (rules passes : Option String) (passLimit : Nat) (mustSettle : Bool)
    (warnings : List Warning) : Prop where
  passLimit : (ofTexts rules passes).1.passLimit.toNat = passLimit
  mustSettle : (ofTexts rules passes).1.mustSettle = mustSettle
  groups : (ofTexts rules passes).1.groups = (ofTexts rules none).1.groups
  warnings : (ofTexts rules passes).2 = (ofTexts rules none).2 ++ warnings

theorem applyGroups_eq_withGroups (config : Config) (text : String) :
    ∃ groups, (config.applyGroups text).1 = config.withGroups groups := by
  rw [applyGroups]
  split
  · exact ⟨config.groups, rfl⟩
  · exact ⟨_, rfl⟩

/-- Without a text about passes there is one pass. -/
theorem chooses_none (rules : Option String) : Chooses rules none 1 false [] := by
  have hwarnings := (List.append_nil (ofTexts rules none).2).symm
  cases rules with
  | none => exact ⟨rfl, rfl, rfl, hwarnings⟩
  | some text =>
      obtain ⟨groups, hgroups⟩ := applyGroups_eq_withGroups standard text
      have hconfig : (ofTexts (some text) none).1 = standard.withGroups groups := hgroups
      refine ⟨?_, ?_, rfl, hwarnings⟩
      · rw [hconfig]
        rfl
      · rw [hconfig]
        rfl

theorem ofTexts_some (rules : Option String) (passes : String) :
    ofTexts rules (some passes) = (((ofTexts rules none).1.applyPasses passes).1,
      (ofTexts rules none).2 ++ ((ofTexts rules none).1.applyPasses passes).2) := by
  have hnone : (ofTexts rules none).2 = ((rules.map standard.applyGroups).getD (standard, [])).2 :=
    List.append_nil _
  rw [hnone]
  rfl

/-- Settings that are read from the second text are chosen as they are read. -/
theorem chooses_of_applyPasses {rules : Option String} {passes : String} {passLimit : Nat}
    {mustSettle : Bool} {warnings : List Warning}
    (hlimit : ((ofTexts rules none).1.applyPasses passes).1.passLimit.toNat = passLimit)
    (hsettle : ((ofTexts rules none).1.applyPasses passes).1.mustSettle = mustSettle)
    (hwarnings : ((ofTexts rules none).1.applyPasses passes).2 = warnings) :
    Chooses rules (some passes) passLimit mustSettle warnings := by
  rw [← hlimit, ← hsettle, ← hwarnings]
  have hgroups := groups_applyPasses (ofTexts rules none).1 passes
  exact ⟨by rw [ofTexts_some], by rw [ofTexts_some], by rw [ofTexts_some, hgroups],
    by rw [ofTexts_some]⟩

/-- What a text about passes chooses, `t` being the text without the blanks around it.  The word
    allows passes up to a fixed limit, which have to be enough; a positive count allows so many; and
    every other text leaves one pass and is warned of. -/
structure ReadsPasses (rules : Option String) (passes : String) (t : List Char) : Prop where
  fixpoint : Text.SameUpToCase t "fixpoint".toList →
    Chooses rules (some passes) settleLimit.toNat true []
  count : ∀ value, Decimal.WrittenCount t value → 1 ≤ value → value < UInt32.size →
    Chooses rules (some passes) value false []
  other : ¬ Text.SameUpToCase t "fixpoint".toList →
    (∀ value, Decimal.WrittenCount t value → value = 0 ∨ UInt32.size ≤ value) →
    Chooses rules (some passes) 1 false [.invalidPasses (String.ofList t)]

theorem readsPasses {rules : Option String} {passes : String} (ht : Text.Trims passes.toList t) :
    ReadsPasses rules passes t := by
  obtain ⟨hlimit, hsettle, -, -⟩ := chooses_none rules
  have htrim : Text.trim passes.toList = t := Text.trims_iff.mp ht
  constructor
  case fixpoint =>
    intro hword
    have hparse : PassSetting.parse? t = some .fixpoint := parse?_eq_some_iff.mpr (.fixpoint hword)
    apply chooses_of_applyPasses <;> rw [applyPasses, htrim, hparse] <;> rfl
  case count =>
    intro value hcount hpositive hroom
    have hvalue : (UInt32.ofNat value).toNat = value := UInt32.toNat_ofNat_of_lt' hroom
    have hparse : PassSetting.parse? t = some (.atMost (.ofNat value)) := by
      apply parse?_eq_some_iff.mpr
      refine .atMost (by rwa [hvalue]) ?_
      rw [UInt32.lt_iff_toNat_lt, hvalue]
      exact hpositive
    apply chooses_of_applyPasses <;> rw [applyPasses, htrim, hparse]
    · exact hvalue
    · exact hsettle
  case other =>
    intro hword hcounts
    have hparse : PassSetting.parse? t = none := by
      rw [Option.eq_none_iff_forall_ne_some]
      intro setting hsetting
      cases parse?_eq_some_iff.mp hsetting with
      | fixpoint hsame => exact hword hsame
      | @atMost count hcount hpositive =>
          have hlt : count.toNat < UInt32.size := count.toNat_lt_size
          have hpos : 0 < count.toNat := UInt32.lt_iff_toNat_lt.mp hpositive
          have hbounds := hcounts count.toNat hcount
          omega
    apply chooses_of_applyPasses <;> rw [applyPasses, htrim, hparse]
    · exact hlimit
    · exact hsettle

/-- Every text about passes chooses a positive number of them, whatever the other text is. -/
theorem exists_chooses (passes : Option String) :
    ∃ passLimit mustSettle warnings, 1 ≤ passLimit ∧
      ∀ rules, Chooses rules passes passLimit mustSettle warnings := by
  cases passes with
  | none => exact ⟨1, false, [], le_rfl, chooses_none⟩
  | some passes =>
      have hreads : ∀ rules, ReadsPasses rules passes (Text.trim passes.toList) :=
        fun rules => readsPasses (Text.trims_trim _)
      by_cases hword : Text.SameUpToCase (Text.trim passes.toList) "fixpoint".toList
      · exact ⟨_, _, _, by decide, fun rules => (hreads rules).fixpoint hword⟩
      by_cases hcount : ∃ value, Decimal.WrittenCount (Text.trim passes.toList) value ∧
          1 ≤ value ∧ value < UInt32.size
      · obtain ⟨value, hcount, hpositive, hroom⟩ := hcount
        exact ⟨_, _, _, hpositive, fun rules => (hreads rules).count value hcount hpositive hroom⟩
      · refine ⟨_, _, _, le_rfl, fun rules => (hreads rules).other hword fun value hwritten => ?_⟩
        by_contra hbounds
        exact hcount ⟨value, hwritten, by omega, by omega⟩

theorem trims_toString (n : Nat) : Text.Trims (toString n).toList (Nat.toDigits 10 n) := by
  rw [Nat.toString_eq_repr, Nat.toList_repr]
  apply Text.trims_self
  intro c hc
  exact Text.isBlank_of_isDigit (Nat.isDigit_of_mem_toDigits (by decide) (by decide) hc)

/-- What the two texts of the settings have to do with the number of passes. -/
structure PassesByGrammar (rules : Option String) : Prop where
  /-- The second text is accepted exactly on its grammar. -/
  reads : ∀ passes t, Text.Trims passes.toList t → ReadsPasses rules passes t
  positive : ∀ passes, 1 ≤ (ofTexts rules passes).1.passLimit.toNat
  /-- Every positive number of 32 bits is chosen by its decimal text. -/
  decimal : ∀ n : Nat, 1 ≤ n → n < UInt32.size → Chooses rules (some (toString n)) n false []
  /-- The first text has no influence on the passes. -/
  passes : ∀ rules' passes,
    (ofTexts rules passes).1.passLimit = (ofTexts rules' passes).1.passLimit ∧
      (ofTexts rules passes).1.mustSettle = (ofTexts rules' passes).1.mustSettle
  /-- The second text has no influence on the groups of rules. -/
  groups : ∀ passes passes', (ofTexts rules passes).1.groups = (ofTexts rules passes').1.groups

/-- The number of passes comes from the second text alone, by the grammar of pass settings. -/
theorem passes_by_grammar (rules : Option String) : PassesByGrammar rules where
  reads _ _ := readsPasses
  positive passes := by
    obtain ⟨passLimit, mustSettle, warnings, hpositive, hchooses⟩ := exists_chooses passes
    rw [(hchooses rules).passLimit]
    exact hpositive
  decimal n := by
    have hcount : Decimal.WrittenCount (Nat.toDigits 10 n) n := .plain (Decimal.numeral_toDigits n)
    exact (readsPasses (trims_toString n)).count n hcount
  passes rules' passes := by
    obtain ⟨passLimit, mustSettle, warnings, -, hchooses⟩ := exists_chooses passes
    rw [← UInt32.toNat_inj, (hchooses rules).passLimit, (hchooses rules').passLimit,
      (hchooses rules).mustSettle, (hchooses rules').mustSettle]
    exact ⟨rfl, rfl⟩
  groups passes passes' := by
    obtain ⟨_, _, _, -, hchooses⟩ := exists_chooses passes
    obtain ⟨_, _, _, -, hchooses'⟩ := exists_chooses passes'
    rw [(hchooses rules).groups, (hchooses' rules).groups]

/-- A count with a sign, a leading zero and blanks around it, and one that is a unit too large. -/
theorem passes_by_grammar_sample :
    Chooses (some "zero") (some "\t+07 ") 7 false [] ∧
      Chooses (some "zero") (some "4294967296") 1 false [.invalidPasses "4294967296"] := by
  have hgrammar := passes_by_grammar (some "zero")
  have hseven : Decimal.WrittenCount "+07".toList 7 :=
    Decimal.writtenCount_iff.mpr
      (Decimal.numeral_iff.mpr ⟨by decide, List.all_eq_true.mp (by decide), by decide⟩)
  have hlarge : Decimal.WrittenCount "4294967296".toList 4294967296 :=
    Decimal.writtenCount_iff.mpr
      (Decimal.numeral_iff.mpr ⟨by decide, List.all_eq_true.mp (by decide), by decide⟩)
  refine ⟨?_, ?_⟩
  · have hreads := hgrammar.reads "\t+07 " "+07".toList (Text.trims_iff.mpr (by decide))
    exact hreads.count 7 hseven (by decide) (by decide)
  · have hreads := hgrammar.reads "4294967296" "4294967296".toList (Text.trims_iff.mpr (by decide))
    refine hreads.other (not_sameUpToCase_of_writtenCount hlarge) fun value hvalue => ?_
    rw [hvalue.unique hlarge]
    exact Or.inr (by decide)

end ValueGraph.Config
