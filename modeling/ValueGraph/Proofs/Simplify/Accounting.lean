/-
  ValueGraph.Proofs.Simplify.Accounting

  What a run reports accounts for what it does.

  A run reports that it begins, and then every pass reports in its turn.  That
  each of these reports is so, and that each pass begins where the one before has
  ended, is `Rules.Accounts`; what the passes have stored adds up
  (`Accounts.size_eq`).

  A pass that reports no replacement has kept its root, and the run does no other
  after it.  So all reports but the last one have replacements in them, and the
  last one tells whether the passes have settled (`ends_passes_reported`).  If a
  run has to settle, its answer can be read off its last report
  (`simplify_accounts`).
-/
import ValueGraph.Proofs.Simplify.Induction
import ValueGraph.Proofs.Simplify.Report

namespace ValueGraph

/-! ## Consecutive reports -/

/-- The reports describe consecutive passes, from `root` over `g` to `r` over `h`. -/
inductive Rules.Accounts (rules : Rules) :
    Graph → NodeId → List PassReport → Graph → NodeId → Prop
  | done {g : Graph} {root : NodeId} : rules.Accounts g root [] g root
  | pass {g h g' : Graph} {root image r : NodeId} {report : PassReport}
      {reports : List PassReport} :
      report.Describes rules g root h image → rules.Accounts h image reports g' r →
      rules.Accounts g root (report :: reports) g' r

/-- The events of several passes. -/
def PassReport.eventsOf (reports : List PassReport) : List Event := reports.flatMap events

/-- What several passes have stored. -/
def PassReport.storedBy (reports : List PassReport) : Nat := (reports.map stored).sum

namespace Rules

variable {rules : Rules} {g h g' : Graph} {root image r : NodeId}
  {reports more : List PassReport}

theorem Accounts.append (hfirst : rules.Accounts g root reports h image)
    (hmore : rules.Accounts h image more g' r) :
    rules.Accounts g root (reports ++ more) g' r := by
  induction hfirst with
  | done => exact hmore
  | pass hreport _ ih => exact .pass hreport (ih hmore)

/-- What the passes have stored is all that the graph has grown by. -/
theorem Accounts.size_eq (haccounts : rules.Accounts g root reports h r) :
    h.size = g.size + PassReport.storedBy reports := by
  induction haccounts with
  | done => rfl
  | pass hreport _ ih =>
      have hsize := hreport.size_eq
      rw [PassReport.storedBy, List.map_cons, List.sum_cons, ← PassReport.storedBy]
      omega

end Rules

/-! ## The passes of a run -/

namespace Rules

/-- What up to `count` passes report, the first of them with the given number. -/
structure Reported (rules : Rules) (count number : Nat) (root : NodeId) (w : Workspace)
    (reports : List PassReport) (answer : NodeId × Bool) (w' : Workspace) : Prop where
  log_eq : w'.log.toList = w.log.toList ++ PassReport.eventsOf reports
  accounts : rules.Accounts w.graph root reports w'.graph answer.1
  number_eq : reports.map (·.number) = List.range' number reports.length
  length_le : reports.length ≤ count
  settled : answer.2 = true → ∃ earlier last, reports = earlier ++ [last] ∧
    (∀ report ∈ earlier, report.rewrites ≠ []) ∧ last.rewrites = []
  unsettled : answer.2 = false →
    reports.length = count ∧ ∀ report ∈ reports, report.rewrites ≠ []

variable {rules : Rules} {w w₁ w' : Workspace} {root image : NodeId} {t : Term}
  {count number : Nat} {report : PassReport} {reports : List PassReport} {answer : NodeId × Bool}

theorem reported_none (rules : Rules) (number : Nat) (root : NodeId) (w : Workspace) :
    rules.Reported 0 number root w [] (root, false) w where
  log_eq := (List.append_nil _).symm
  accounts := .done
  number_eq := rfl
  length_le := Nat.le_refl _
  settled := nofun
  unsettled _ := ⟨rfl, nofun⟩

/-- A pass that keeps its root is the only one. -/
theorem reported_last (hnumber : report.number = number)
    (hlog : w'.log.toList = w.log.toList ++ report.events)
    (hreport : report.Describes rules w.graph root w'.graph root) :
    rules.Reported (count + 1) number root w [report] (root, true) w' where
  log_eq := by rw [hlog, PassReport.eventsOf, List.flatMap_singleton]
  accounts := .pass hreport .done
  number_eq := congrArg (fun n => [n]) hnumber
  length_le := Nat.succ_le_succ (Nat.zero_le count)
  settled _ := ⟨[], report, rfl, nofun, hreport.rewrites_eq_nil_iff.mpr rfl⟩
  unsettled := nofun

/-- A pass that changes its root is followed by the others. -/
theorem Reported.cons (hnumber : report.number = number)
    (hlog : w₁.log.toList = w.log.toList ++ report.events)
    (hreport : report.Describes rules w.graph root w₁.graph image) (hchanged : image ≠ root)
    (hrest : rules.Reported count (number + 1) image w₁ reports answer w') :
    rules.Reported (count + 1) number root w (report :: reports) answer w' where
  log_eq := by
    rw [hrest.log_eq, hlog, List.append_assoc, PassReport.eventsOf, PassReport.eventsOf,
      List.flatMap_cons]
  accounts := .pass hreport hrest.accounts
  number_eq := by
    rw [List.map_cons, List.length_cons, List.range'_succ, hnumber, hrest.number_eq]
  length_le := Nat.succ_le_succ hrest.length_le
  settled hsettled := by
    obtain ⟨earlier, last, rfl, hearlier, hlast⟩ := hrest.settled hsettled
    have hnonempty : report.rewrites ≠ [] := mt hreport.rewrites_eq_nil_iff.mp hchanged
    exact ⟨report :: earlier, last, rfl, List.forall_mem_cons.mpr ⟨hnonempty, hearlier⟩, hlast⟩
  unsettled hunsettled := by
    obtain ⟨hlength, hall⟩ := hrest.unsettled hunsettled
    have hnonempty : report.rewrites ≠ [] := mt hreport.rewrites_eq_nil_iff.mp hchanged
    exact ⟨congrArg (· + 1) hlength, List.forall_mem_cons.mpr ⟨hnonempty, hall⟩⟩

theorem ends_passes_reported (hroot : w.graph.Unfolds root t) (count number : Nat) :
    Ends (rules.passes count number root) w
      (fun answer w' => (∃ t', w'.graph.Unfolds answer.1 t') ∧
        ∃ reports, rules.Reported count number root w reports answer w')
      (·.graph.Full) := by
  induction count generalizing root t w number with
  | zero => exact Ends.pure ⟨⟨t, hroot⟩, [], reported_none rules number root w⟩
  | succ count ih =>
      refine (ends_pass_reports hroot number).bind ?_
      rintro image w₁ ⟨⟨t', himage⟩, report, hnumber, hlog, hreport⟩
      by_cases hkept : image = root
      · rw [if_pos hkept]
        subst hkept
        exact Ends.pure ⟨⟨t', himage⟩, [report], reported_last hnumber hlog hreport⟩
      · rw [if_neg hkept]
        refine (ih himage (number + 1)).mono ?_
        rintro answer w₂ ⟨hterm, reports, hreports⟩
        exact ⟨hterm, report :: reports, .cons hnumber hlog hreport hkept hreports⟩

end Rules

/-! ## A whole run -/

/-- What a run with the given settings reports, in all passes but the last one and in that, and what
    it tells of the answer. -/
structure Config.Accounts (config : Config) (root : NodeId) (w : Workspace)
    (earlier : List PassReport) (last : PassReport) (answer : Except RunError NodeId)
    (w' : Workspace) : Prop where
  log_eq : w'.log.toList = w.log.toList
    ++ .started root config.passLimit :: PassReport.eventsOf (earlier ++ [last])
  accounts : ∃ r, config.toRules.Accounts w.graph root (earlier ++ [last]) w'.graph r ∧
    (answer = .ok r ∨ answer = .error (.unsettled config.passes) ∧ config.mustSettle = true)
  stored_eq : w'.graph.size = w.graph.size + PassReport.storedBy (earlier ++ [last])
  number_eq : earlier.map (·.number) = List.range' 1 earlier.length
  last_number_eq : last.number
    = if earlier.length < config.passes.toNat then earlier.length + 1 else config.confirmingPass
  length_le : earlier.length ≤ config.passes.toNat
  confirmed : earlier.length = config.passes.toNat → config.mustSettle = true
  earlier_ne_nil : ∀ report ∈ earlier, report.rewrites ≠ []
  answered_iff : config.mustSettle = true → ((∃ r, answer = .ok r) ↔ last.rewrites = [])

section Run

variable {config : Config} {w w₁ w' : Workspace} {root r : NodeId} {t : Term}
  {settled : Bool} {earlier reports : List PassReport} {last : PassReport}

/-- A run that is over after its passes answers the root that these have led to. -/
theorem Rules.Reported.accounts_of_answered
    (hreports : config.toRules.Reported config.passes.toNat 1 root (w.started config root)
      (earlier ++ [last]) (r, settled) w')
    (hearlier : ∀ report ∈ earlier, report.rewrites ≠ [])
    (hlast : config.mustSettle = true → last.rewrites = []) :
    config.Accounts root w earlier last (.ok r) w' := by
  have hlength := hreports.length_le
  have hnumbers := hreports.number_eq
  rw [List.length_append, List.length_singleton] at hlength hnumbers
  rw [List.map_append, List.range'_1_concat] at hnumbers
  obtain ⟨hnumber, hlastNumber⟩ := List.append_inj' hnumbers rfl
  constructor
  case log_eq =>
    rw [hreports.log_eq, Workspace.started, Array.toList_push, List.append_assoc]
    rfl
  case accounts => exact ⟨r, hreports.accounts, Or.inl rfl⟩
  case stored_eq => exact hreports.accounts.size_eq
  case number_eq => exact hnumber
  case last_number_eq =>
    rw [if_pos (Nat.lt_of_succ_le hlength), Nat.add_comm]
    exact List.singleton_inj.mp hlastNumber
  case length_le => omega
  case confirmed => omega
  case earlier_ne_nil => exact hearlier
  case answered_iff => exact fun hmust => iff_of_true ⟨r, rfl⟩ (hlast hmust)

/-- A run that has to settle, and whose passes have not, does one more. -/
theorem Rules.Reported.accounts_of_confirmed {image : NodeId} {answer : Except RunError NodeId}
    (hreports : config.toRules.Reported config.passes.toNat 1 root (w.started config root)
      earlier (r, false) w₁)
    (hmust : config.mustSettle = true) (hnumber : last.number = config.confirmingPass)
    (hlog : w'.log.toList = w₁.log.toList ++ last.events)
    (hlast : last.Describes config.toRules w₁.graph r w'.graph image)
    (hanswer : answer = if image = r then .ok r else .error (.unsettled config.passes)) :
    config.Accounts root w earlier last answer w' := by
  obtain ⟨hlength, hearlier⟩ := hreports.unsettled rfl
  have haccounts := hreports.accounts.append (.pass hlast .done)
  constructor
  case log_eq =>
    rw [hlog, hreports.log_eq, Workspace.started, Array.toList_push, PassReport.eventsOf,
      PassReport.eventsOf, List.flatMap_append, List.flatMap_singleton]
    simp only [List.append_assoc, List.cons_append, List.nil_append]
  case accounts =>
    refine ⟨image, haccounts, ?_⟩
    by_cases hkept : image = r
    · rw [if_pos hkept, ← hkept] at hanswer
      exact Or.inl hanswer
    · rw [if_neg hkept] at hanswer
      exact Or.inr ⟨hanswer, hmust⟩
  case stored_eq => exact haccounts.size_eq
  case number_eq => rw [hreports.number_eq]
  case last_number_eq => rw [if_neg (by omega), hnumber]
  case length_le => omega
  case confirmed => exact fun _ => hmust
  case earlier_ne_nil => exact hearlier
  case answered_iff =>
    intro _
    rw [hlast.rewrites_eq_nil_iff, hanswer]
    by_cases hkept : image = r
    · rw [if_pos hkept]
      exact iff_of_true ⟨r, rfl⟩ hkept
    · rw [if_neg hkept]
      exact iff_of_false nofun hkept

theorem ends_conclude_accounts
    (hreports : config.toRules.Reported config.passes.toNat 1 root (w.started config root)
      reports (r, settled) w₁)
    (hterm : w₁.graph.Unfolds r t) :
    Ends (config.conclude (r, settled)) w₁
      (fun answer w' => ∃ earlier last, config.Accounts root w earlier last answer w')
      (·.graph.Full) := by
  rw [Config.conclude]
  cases settled with
  | true =>
      -- The last of the passes has kept its root.
      obtain ⟨earlier, last, rfl, hearlier, hlast⟩ := hreports.settled rfl
      rw [if_pos (Or.inl rfl)]
      exact Ends.pure ⟨earlier, last, hreports.accounts_of_answered hearlier fun _ => hlast⟩
  | false =>
      -- Every pass has changed its root; if the run has to settle, the confirming pass is the last.
      obtain ⟨hlength, hall⟩ := hreports.unsettled rfl
      cases hmust : config.mustSettle with
      | false =>
          rw [if_pos (by simp)]
          -- At least one pass is allowed, so there is a last one.
          have hpos := config.passes_pos
          have hnonempty : reports ≠ [] := List.ne_nil_of_length_pos (hlength ▸ hpos)
          obtain ⟨earlier, last, rfl⟩ := (List.eq_nil_or_concat' reports).resolve_left hnonempty
          refine Ends.pure ⟨earlier, last, hreports.accounts_of_answered ?_ ?_⟩
          · exact fun report hreport => hall report (List.mem_append_left _ hreport)
          · intro h
            exact absurd (hmust.symm.trans h) Bool.false_ne_true
      | true =>
          rw [if_neg (by simp)]
          refine (Rules.ends_pass_reports hterm config.confirmingPass).bind ?_
          rintro image w' ⟨-, last, hnumber, hlog, hlast⟩
          exact Ends.pure ⟨reports, last,
            hreports.accounts_of_confirmed hmust hnumber hlog hlast rfl⟩

/-- What a run reports accounts for what it does.  It reports that it begins, and then each of its
    passes in order: every replacement when it is done, and in the end how many there were and how
    many nodes the pass has stored.  The passes are numbered from one, and the confirming pass,
    which only a run does that has to settle, by the number that comes next as far as 32 bits
    allow.  The numbers of stored nodes add up to what the graph has grown by.  A pass reports no
    replacement exactly if it keeps the root that it was given, which none but the last one does;
    and a run that has to settle answers a root exactly if its last pass reports none.  Only a full
    graph can stop a run from a sound root. -/
theorem simplify_accounts (config : Config) (w : Workspace) (root : NodeId)
    (hsound : w.graph.Sound root) (hstored : w.graph.contains root = true) :
    Ends (simplify config root) w
      (fun answer w' => ∃ earlier last, config.Accounts root w earlier last answer w')
      (·.graph.Full) := by
  obtain ⟨t, hroot⟩ := Graph.exists_unfolds_iff.mpr hsound
  have hroot' : (w.started config root).graph.Unfolds root t := hroot
  rw [Ends, simplify_eq_conclude hstored]
  refine (Rules.ends_passes_reported hroot' config.passes.toNat 1).bind ?_
  rintro ⟨r, settled⟩ w₁ ⟨⟨t', hterm⟩, reports, hreports⟩
  exact ends_conclude_accounts hreports hterm

/-- The run on the small graph stores two nodes, and its last pass has nothing left to replace. -/
theorem simplify_accounts_sample :
    Graph.sample.Sound ⟨3⟩ ∧ Graph.sample.contains ⟨3⟩ = true ∧
      ∃ w', simplify ⟨.all, 1, true⟩ ⟨3⟩ (.ofGraph .sample) = .ok (.ok ⟨5⟩) w' ∧
        ∃ earlier last,
          Config.Accounts ⟨.all, 1, true⟩ ⟨3⟩ (.ofGraph .sample) earlier last (.ok ⟨5⟩) w' ∧
          PassReport.storedBy (earlier ++ [last]) = 2 ∧ last.rewrites = [] := by
  have hends := simplify_accounts ⟨.all, 1, true⟩ (.ofGraph .sample) ⟨3⟩ Graph.sample_sound rfl
  obtain ⟨earlier, last, haccounts⟩ := hends.of_ok (a := .ok ⟨5⟩) rfl
  refine ⟨Graph.sample_sound, rfl, _, rfl, earlier, last, haccounts, ?_, ?_⟩
  · exact Nat.add_left_cancel haccounts.stored_eq.symm
  · exact (haccounts.answered_iff rfl).mp ⟨_, rfl⟩

end Run

end ValueGraph
