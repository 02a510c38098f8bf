/-
  ValueGraph.Proofs.Simplify.Tower

  No fixed number of passes is enough.

  A tower is a comparison with zero of a three-way compare with zero of a
  three-way compare with zero, and so on down to an integer argument
  (`Graph.Tower`).  A rule opens the topmost compare only when the pass has left
  the operands of the comparison, and it applies once to a node; so a pass takes
  one level off (`Tower.ends_pass_succ`), and a tower without levels is canonical
  (`Tower.pass_zero`).  By induction on the passes, `n` of them leave `k - n` of
  `k` levels (`Tower.ends_passes`), and a run that has to settle answers exactly
  if it may do as many passes as the tower has levels (`simplify_tower`).

  Towers can be built with any compares over any graph with room for them
  (`exists_tower`).
-/
import ValueGraph.Proofs.Graph.Growth
import ValueGraph.Proofs.Simplify.Convergence
import ValueGraph.Proofs.Simplify.Separation

namespace ValueGraph

open ValueGraph.Graph (Extends)

namespace Graph

/-- A comparison with zero of a tower of three-way compares: `c 0` is an integer argument, each
    `c (j + 1)` compares `c j` with the zero `z j`, and `root` compares the topmost of them, `c k`,
    with the zero `z k`. -/
structure Tower (g : Graph) (op : RelOp) (c z : Nat → NodeId) (k : Nat) (root : NodeId) :
    Prop where
  base : ∃ position, g.node (c 0) = .ok ⟨.leaf (.arg position), .int⟩
  zero : ∀ j ≤ k, g.node (z j) = .ok (.int 0)
  level : ∀ j < k, ∃ m : ArithOp, m.isThreeWay = true ∧
    g.node (c (j + 1)) = .ok ⟨.arithmetic m (c j) (z j), .int⟩
  top : g.node root = .ok (.comparison op (c k) (z k))

variable {g h : Graph} {op : RelOp} {c z : Nat → NodeId} {k j : Nat} {root image : NodeId}
  {rules : Rules}

theorem Tower.mono (htower : g.Tower op c z k root) (hgrown : Extends g h) :
    h.Tower op c z k root where
  base := htower.base.imp fun _ hread => hgrown.node_eq_ok hread
  zero j hj := hgrown.node_eq_ok (htower.zero j hj)
  level j hj := (htower.level j hj).imp fun _ hm => ⟨hm.1, hgrown.node_eq_ok hm.2⟩
  top := hgrown.node_eq_ok htower.top

/-- A tower that is one level lower, under another root. -/
theorem Tower.lower (htower : g.Tower op c z (k + 1) root)
    (htop : g.node image = .ok (.comparison op (c k) (z k))) : g.Tower op c z k image where
  base := htower.base
  zero j hj := htower.zero j (Nat.le_succ_of_le hj)
  level j hj := htower.level j (Nat.lt_succ_of_lt hj)
  top := htop

theorem Tower.unfolds_zero (htower : g.Tower op c z k root) (hj : j ≤ k) :
    g.Unfolds (z j) (.leaf (.int 0) .int) :=
  .stored (htower.zero j hj) .leaf

/-- A canonical term and a zero, as the operands of a comparison or a compare. -/
theorem canonical_beside_zero {t : Term} (ht : rules.Canonical t) :
    ∀ s ∈ [t, .leaf (.int 0) .int], rules.Canonical s := by
  have hzero : rules.Canonical (.leaf (.int 0) .int) := Rules.canonical_leaf _ _
  simp [ht, hzero]

/-- The compares of a tower stand for canonical terms. -/
theorem Tower.exists_canonical (htower : g.Tower op c z k root) (rules : Rules) (hj : j ≤ k) :
    ∃ t, g.Unfolds (c j) t ∧ rules.Canonical t := by
  induction j with
  | zero =>
      obtain ⟨position, hread⟩ := htower.base
      exact ⟨_, .stored hread .leaf, Rules.canonical_leaf _ _⟩
  | succ j ih =>
      obtain ⟨t, ht, hcanonical⟩ := ih (Nat.le_of_succ_le hj)
      obtain ⟨m, -, hread⟩ := htower.level j hj
      have hz := htower.unfolds_zero (Nat.le_of_succ_le hj)
      have hoperands := canonical_beside_zero hcanonical
      exact ⟨_, .stored hread (.arithmetic ht hz), Rules.canonical_iff.mpr ⟨rfl, hoperands⟩⟩

/-- A comparison of a three-way compare with zero is read as the relation between the operands of
    the compare. -/
theorem nodeRule_threeWay {x zero left right : NodeId} {m : ArithOp}
    (hgroup : rules.groups.zero = true) (htop : g.node root = .ok (.comparison op x zero))
    (hx : g.node x = .ok ⟨.arithmetic m left right, .int⟩) (hm : m.isThreeWay = true)
    (hz : g.node zero = .ok (.int 0)) :
    g.nodeRule rules.methods rules.groups root
      = .ok (some ⟨.comparison, .fresh (.comparison op left right)⟩) := by
  have hreads : rules.groups.readsOperands op = true := by
    rw [RuleGroups.readsOperands, hgroup, Bool.true_or]
  have hfold : foldLiterals? op ⟨x, ⟨.arithmetic m left right, .int⟩⟩ ⟨zero, .int 0⟩ = none := by
    cases op <;> rfl
  have hdrop : dropZero? op ⟨x, ⟨.arithmetic m left right, .int⟩⟩ ⟨zero, .int 0⟩
      = some (.fresh (.comparison op left right)) := by
    show Operand.againstZero? op ⟨x, ⟨.arithmetic m left right, .int⟩⟩ = _
    have hrelated : Operand.related? op ⟨x, ⟨.arithmetic m left right, .int⟩⟩
        = some (.fresh (.comparison op left right)) := if_pos hm
    cases op <;> exact hrelated
  have hrule : g.comparisonRule rules.groups op x zero
      = .ok (some (.fresh (.comparison op left right))) := by
    rw [comparisonRule, if_pos hreads, operand_of_node hx, operand_of_node hz]
    show Except.ok (compareRule? _ _ _ _) = _
    rw [compareRule?, hfold, hdrop, hgroup, ite_self]
    rfl
  rw [nodeRule_comparison htop, hrule]
  rfl

end Graph

/-! ## Building towers -/

/-- Stores three-way compares with a zero, one over the other. -/
def buildCompares (zero : NodeId) : NodeId → List ArithOp → Edit NodeId
  | x, [] => return x
  | x, m :: rest => do buildCompares zero (← Graph.arithmetic m x zero) rest

/-- Stores a tower with the given compares, from the lowest to the topmost. -/
def buildTower (position : UInt16) (compares : List ArithOp) (op : RelOp) : Edit NodeId := do
  let x ← Graph.leaf (.arg position) .int
  let zero ← Graph.int 0
  let top ← buildCompares zero x compares
  Graph.comparison op top zero

/-- The levels of a tower with one more level below them. -/
def Graph.Tower.prepend (x : NodeId) (c : Nat → NodeId) : Nat → NodeId
  | 0 => x
  | j + 1 => c j

section Building

variable {g : Graph} {op : RelOp} {compares : List ArithOp}

theorem push_of_room (hroom : g.size < UInt32.size) (node : Node) :
    Graph.push node g = .ok ⟨.ofNat g.size⟩ (g.addNode node) := if_pos hroom

theorem arithmetic_threeWay {m : ArithOp} (hm : m.isThreeWay = true) (x zero : NodeId)
    (hroom : g.size < UInt32.size) :
    Graph.arithmetic m x zero g
      = .ok ⟨.ofNat g.size⟩ (g.addNode ⟨.arithmetic m x zero, .int⟩) := by
  have hty : g.arithmeticType m x = .ok .int := if_pos hm
  rw [Graph.arithmetic, bind_of_ok (Graph.view_of_ok hty)]
  exact push_of_room hroom _

theorem exists_compares (hcompares : ∀ m ∈ compares, m.isThreeWay = true) (zero x : NodeId)
    (hroom : g.size + compares.length ≤ UInt32.size) :
    ∃ (c : Nat → NodeId) (h : Graph),
      buildCompares zero x compares g = .ok (c compares.length) h ∧ c 0 = x ∧ Extends g h ∧
      h.size = g.size + compares.length ∧
      ∀ j < compares.length, ∃ m : ArithOp, m.isThreeWay = true ∧
        h.node (c (j + 1)) = .ok ⟨.arithmetic m (c j) zero, .int⟩ := by
  -- The compare stored first is the lowest, and the others are stored over it.
  induction compares generalizing g x with
  | nil => exact ⟨fun _ => x, g, rfl, rfl, .refl g, rfl, nofun⟩
  | cons m rest ih =>
      obtain ⟨hm, hrest⟩ := List.forall_mem_cons.mp hcompares
      rw [List.length_cons] at hroom ⊢
      have hfirst := arithmetic_threeWay hm x zero (g := g) (by omega)
      have hread := Graph.node_addNode (g := g) (by omega) ⟨.arithmetic m x zero, .int⟩
      obtain ⟨c, h, hrun, hc, hgrown, hsize, hlevel⟩ :=
        ih hrest ⟨.ofNat g.size⟩ (g := g.addNode ⟨.arithmetic m x zero, .int⟩)
          (by rw [Graph.size_addNode]; omega)
      refine ⟨Graph.Tower.prepend x c, h, ?_, rfl, (Extends.addNode g _).trans hgrown, ?_, ?_⟩
      · rw [buildCompares, bind_of_ok hfirst]
        exact hrun
      · rw [hsize, Graph.size_addNode]
        omega
      · intro j hj
        cases j with
        | zero =>
            refine ⟨m, hm, ?_⟩
            show h.node (c 0) = _
            rw [hc]
            exact hgrown.node_eq_ok hread
        | succ j => exact hlevel j (Nat.lt_of_succ_lt_succ hj)

/-- There is a tower with any given compares over every graph with room for it. -/
theorem exists_tower (g : Graph) (position : UInt16)
    (hcompares : ∀ m ∈ compares, m.isThreeWay = true) (op : RelOp)
    (hroom : g.size + compares.length + 3 ≤ UInt32.size) :
    ∃ c z root h, buildTower position compares op g = .ok root h ∧
      h.Tower op c z compares.length root ∧ h.size = g.size + compares.length + 3 := by
  let base : Node := ⟨.leaf (.arg position), .int⟩
  let h₁ := g.addNode base
  let h₂ := h₁.addNode (.int 0)
  let zero : NodeId := ⟨.ofNat h₁.size⟩
  have hsize₁ : h₁.size = g.size + 1 := Graph.size_addNode g base
  have hsize₂ : h₂.size = h₁.size + 1 := Graph.size_addNode h₁ (.int 0)
  have hleaf : Graph.leaf (.arg position) .int g = .ok ⟨.ofNat g.size⟩ h₁ :=
    push_of_room (by omega) base
  have hint : Graph.int 0 h₁ = .ok zero h₂ := push_of_room (by omega) (.int 0)
  obtain ⟨c, h₃, hcompares, hc, hgrown₃, hsize₃, hlevel⟩ :=
    exists_compares hcompares zero ⟨.ofNat g.size⟩ (g := h₂) (by omega)
  let top : Node := .comparison op (c compares.length) zero
  have hcomparison : Graph.comparison op (c compares.length) zero h₃
      = .ok ⟨.ofNat h₃.size⟩ (h₃.addNode top) := push_of_room (by omega) top
  have hgrown : Extends h₃ (h₃.addNode top) := .addNode h₃ top
  refine ⟨c, fun _ => zero, ⟨.ofNat h₃.size⟩, h₃.addNode top, ?_, ?_, ?_⟩
  · rw [buildTower, bind_of_ok hleaf, bind_of_ok hint, bind_of_ok hcompares]
    exact hcomparison
  · constructor
    case base =>
      have hread : h₁.node ⟨.ofNat g.size⟩ = .ok base := Graph.node_addNode (by omega) base
      rw [hc]
      exact ⟨position, hgrown.node_eq_ok (hgrown₃.node_eq_ok
        ((Extends.addNode h₁ (.int 0)).node_eq_ok hread))⟩
    case zero =>
      intro j _
      have hread : h₂.node zero = .ok (.int 0) := Graph.node_addNode (by omega) (.int 0)
      exact hgrown.node_eq_ok (hgrown₃.node_eq_ok hread)
    case level =>
      intro j hj
      obtain ⟨m, hm, hread⟩ := hlevel j hj
      exact ⟨m, hm, hgrown.node_eq_ok hread⟩
    case top => exact Graph.node_addNode (by omega) top
  · rw [Graph.size_addNode]
    omega

end Building

/-! ## What a pass does to a tower -/

section Passes

variable {rules : Rules} {w : Workspace} {op : RelOp} {c z : Nat → NodeId} {k : Nat}
  {root : NodeId}

/-- A pass takes the topmost level off a tower. -/
theorem Graph.Tower.ends_pass_succ (htower : w.graph.Tower op c z (k + 1) root)
    (hgroup : rules.groups.zero = true) (number : Nat) :
    Ends (rules.pass number root) w
      (fun image w' => image ≠ root ∧ w'.graph.Tower op c z k image ∧
        w'.graph.size = w.graph.size + 1)
      (fun _ => UInt32.size ≤ w.graph.size) := by
  obtain ⟨t, ht, hcanonical⟩ := htower.exists_canonical rules (Nat.le_refl (k + 1))
  have hz := htower.unfolds_zero (Nat.le_refl (k + 1))
  have hroot : w.graph.Unfolds root (.comparison op t (.leaf (.int 0) .int) .boolean) :=
    .stored htower.top (.comparison ht hz)
  have hoperands := Graph.canonical_beside_zero hcanonical
  obtain ⟨images, hpass⟩ := Rules.exists_pass_eq_apply hroot hoperands number
  obtain ⟨m, hm, hread⟩ := htower.level k (Nat.lt_succ_self k)
  have hrule := Graph.nodeRule_threeWay hgroup htower.top hread hm
    (htower.zero (k + 1) (Nat.le_refl _))
  rw [Ends, hpass]
  refine (Rules.ends_apply_fresh (w := ⟨w.graph, images, 0, w.log⟩) hrule).bind ?_
  rintro image w' ⟨hroom, rfl, hgraph⟩
  refine (Ends.finish _ _).bind ?_
  rintro _ _ rfl
  refine (Ends.endPass _ _).bind ?_
  rintro _ _ rfl
  dsimp only at hgraph hroom
  -- The new comparison is stored behind all that were there before, the root among them.
  refine Ends.pure ⟨?_, ?_, ?_⟩
  · rintro hsame
    have hlt := hroot.index_lt
    rw [← hsame, Graph.index_ofNat hroom] at hlt
    omega
  · show w'.graph.Tower op c z k _
    rw [hgraph]
    exact (htower.mono (.addNode w.graph _)).lower (Graph.node_addNode hroom _)
  · show w'.graph.size = _
    rw [hgraph]
    exact Graph.size_addNode _ _

/-- A pass keeps a tower without levels. -/
theorem Graph.Tower.pass_zero (htower : w.graph.Tower op c z 0 root) (rules : Rules)
    (number : Nat) :
    ∃ images, rules.pass number root w
      = .ok root ⟨w.graph, images, 0, w.log.push (.passed number 0 0)⟩ := by
  obtain ⟨position, hread⟩ := htower.base
  obtain ⟨t, ht, hcanonical⟩ := htower.exists_canonical rules (Nat.le_refl 0)
  cases ht.unique (.stored hread .leaf)
  have hz := htower.unfolds_zero (Nat.le_refl 0)
  have hroot : w.graph.Unfolds root
      (.comparison op (.leaf (.arg position) .int) (.leaf (.int 0) .int) .boolean) :=
    .stored htower.top (.comparison ht hz)
  -- An integer argument is no literal, no truth value and no compare.
  have hstep : (rules.step? (.comparison op (.leaf (.arg position) .int) (.leaf (.int 0) .int)
      .boolean)).isSome = false := by
    rw [Rules.step?_comparison_isSome]
    simp [Term.intValue?, Term.isIntZero, Term.isTruth, Term.isThreeWay, Term.ty, Ty.isBoolean]
  have hoperands := Graph.canonical_beside_zero hcanonical
  exact Rules.pass_of_canonical hroot
    (Rules.canonical_iff.mpr ⟨by simpa using hstep, hoperands⟩) number

/-- Up to `count` passes take as many levels off a tower, as long as there are any.  They need room
    for as many nodes as the tower has levels. -/
theorem Graph.Tower.ends_passes (htower : w.graph.Tower op c z k root)
    (hgroup : rules.groups.zero = true) (count number : Nat) :
    Ends (rules.passes count number root) w
      (fun answer w' => w'.graph.Tower op c z (k - count) answer.1 ∧
        (answer.2 = true ↔ k < count) ∧ w'.graph.size + (k - count) ≤ w.graph.size + k)
      (fun _ => UInt32.size < w.graph.size + k) := by
  -- The pass that comes first takes the topmost level, if there is one, and leaves the others less.
  induction count generalizing root w k number with
  | zero =>
      exact Ends.pure ⟨htower, iff_of_false Bool.false_ne_true (Nat.not_lt_zero k), Nat.le_refl _⟩
  | succ count ih =>
      cases k with
      | zero =>
          obtain ⟨images, hpass⟩ := htower.pass_zero rules number
          rw [Ends, Rules.passes, bind_of_ok hpass, if_pos rfl]
          rw [Nat.zero_sub]
          exact Ends.pure ⟨htower, iff_of_true rfl (Nat.succ_pos count), Nat.le_refl _⟩
      | succ k =>
          have hpass := htower.ends_pass_succ hgroup number
          refine (hpass.mono_stop fun _ hfull => by omega).bind ?_
          rintro image w₁ ⟨hchanged, htower₁, hsize₁⟩
          rw [if_neg hchanged]
          have hrest := ih htower₁ (number + 1)
          refine (hrest.mono_stop fun _ hfull => by omega).mono ?_
          rintro answer w₂ ⟨htower₂, hsettled, hsize₂⟩
          rw [Nat.add_sub_add_right, Nat.add_lt_add_iff_right]
          exact ⟨htower₂, hsettled, by omega⟩

end Passes

/-! ## Runs on a tower -/

section Run

variable {config : Config} {w : Workspace} {op : RelOp} {c z : Nat → NodeId} {k : Nat}
  {root : NodeId}

/-- What a run has to answer on a tower with `k` levels. -/
inductive Config.TowerOutcome (config : Config) (op : RelOp) (c z : Nat → NodeId) (k : Nat)
    (w' : Workspace) : Except RunError NodeId → Prop
  | lowered {r : NodeId} : (config.mustSettle = true → k ≤ config.passes.toNat) →
      w'.graph.Tower op c z (k - config.passes.toNat) r → config.TowerOutcome op c z k w' (.ok r)
  | unsettled : config.mustSettle = true → config.passes.toNat < k →
      config.TowerOutcome op c z k w' (.error (.unsettled config.passes))

/-- After `n` passes the root is either settled or compares the level `k - n`, and the confirming
    pass tells whether that is the last one. -/
theorem ends_conclude_tower {answer : NodeId × Bool}
    (htower : w.graph.Tower op c z (k - config.passes.toNat) answer.1)
    (hgroup : config.groups.zero = true)
    (hsettled : answer.2 = true ↔ k < config.passes.toNat) :
    Ends (config.conclude answer) w (fun answer w' => config.TowerOutcome op c z k w' answer)
      (fun _ => UInt32.size < w.graph.size + (k - config.passes.toNat)) := by
  obtain ⟨current, settled⟩ := answer
  rw [Config.conclude]
  by_cases hdone : settled = true ∨ ¬ config.mustSettle = true
  · rw [if_pos hdone]
    refine Ends.pure (.lowered (fun hmust => ?_) htower)
    exact (hsettled.mp (hdone.resolve_right fun hfree => hfree hmust)).le
  · rw [if_neg hdone]
    have hmust : config.mustSettle = true := by
      by_contra hfree
      exact hdone (Or.inr hfree)
    cases hlevel : k - config.passes.toNat with
    | zero =>
        rw [hlevel] at htower
        obtain ⟨images, hconfirm⟩ := htower.pass_zero config.toRules config.confirmingPass
        rw [Ends, bind_of_ok hconfirm, if_pos rfl]
        refine Ends.pure (.lowered (fun _ => by omega) ?_)
        rw [hlevel]
        exact htower
    | succ level =>
        rw [hlevel] at htower
        have hrules : config.toRules.groups.zero = true := hgroup
        have hconfirm := htower.ends_pass_succ hrules config.confirmingPass
        refine (hconfirm.mono_stop fun _ hfull => by omega).bind ?_
        rintro image w' ⟨hchanged, -, -⟩
        rw [if_neg hchanged]
        exact Ends.pure (.unsettled hmust (by omega))

theorem ends_simplify_tower (htower : w.graph.Tower op c z k root)
    (hgroup : config.groups.zero = true) (hstored : w.graph.contains root = true) :
    Ends (simplify config root) w (fun answer w' => config.TowerOutcome op c z k w' answer)
      (fun _ => UInt32.size < w.graph.size + k) := by
  have htower' : (w.started config root).graph.Tower op c z k root := htower
  rw [Ends, simplify_eq_conclude hstored]
  refine (htower'.ends_passes hgroup config.passes.toNat 1).bind ?_
  rintro answer w₁ ⟨htower₁, hsettled, hsize⟩
  refine (ends_conclude_tower htower₁ hgroup hsettled).mono_stop fun _ hfull => ?_
  exact Nat.lt_of_lt_of_le hfull hsize

/-- No fixed number of passes is enough: a pass takes one level off a tower of three-way compares.
    With the rules for zeros, a run on a tower with `k` levels that may do `n` passes answers a
    tower with `k - min k n` levels, with the same operator over the same compares; but if it has to
    settle it does so only for `k ≤ n`, when no level is left, and fails otherwise.  The limit of
    the setting `fixpoint` fails for every tower with more than sixteen levels.  All that can stop a
    run is that there is no room for one node for each level. -/
theorem simplify_tower (config : Config) (w : Workspace) (op : RelOp) (c z : Nat → NodeId) (k : Nat)
    (root : NodeId) (htower : w.graph.Tower op c z k root) (hgroup : config.groups.zero = true)
    (hstored : w.graph.contains root = true) :
    Ends (simplify config root) w
      (fun answer w' =>
        (config.mustSettle = true → k ≤ max config.passLimit.toNat 1 →
          ∃ r, answer = .ok r ∧ w'.graph.Tower op c z 0 r) ∧
        (config.mustSettle = true → max config.passLimit.toNat 1 < k →
          answer = .error (.unsettled (max config.passLimit 1))) ∧
        (config.mustSettle = false →
          ∃ r, answer = .ok r ∧
            w'.graph.Tower op c z (k - min k (max config.passLimit.toNat 1)) r) ∧
        (config.mustSettle = true → config.passLimit = Config.settleLimit → 16 < k →
          answer = .error (.unsettled 16)))
      (fun _ => UInt32.size < w.graph.size + k) := by
  refine (ends_simplify_tower htower hgroup hstored).mono ?_
  have hpasses := config.toNat_passes
  have hlimit : config.passLimit = Config.settleLimit →
      config.passes = 16 ∧ config.passes.toNat = 16 := by
    intro hsettle
    rw [Config.passes, hsettle]
    exact ⟨rfl, rfl⟩
  rintro answer w' houtcome
  cases houtcome with
  | @lowered r henough hr =>
      refine ⟨fun hmust hle => ⟨r, rfl, ?_⟩, fun hmust hlt => ?_, fun _ => ⟨r, rfl, ?_⟩,
        fun hmust hsettle hlt => ?_⟩
      · rw [Nat.sub_eq_zero_of_le (by omega)] at hr
        exact hr
      · have hle := henough hmust
        omega
      · have hlevels : k - min k (max config.passLimit.toNat 1) = k - config.passes.toNat := by
          omega
        rw [hlevels]
        exact hr
      · have hle := henough hmust
        have hsixteen := (hlimit hsettle).2
        omega
  | unsettled hmust hfew =>
      refine ⟨fun _ hle => by omega, fun _ _ => rfl, fun hfree => ?_, fun _ hsettle _ => ?_⟩
      · rw [hmust] at hfree
        cases hfree
      · rw [(hlimit hsettle).1]

/-- Seventeen compares of an integer argument are one too many for the limit of `fixpoint`, and a
    limit of seventeen is just enough for them. -/
theorem simplify_tower_seventeen :
    ∃ c z root g, buildTower 0 (List.replicate 17 .cmp) .lt .empty = .ok root g ∧
      g.Tower .lt c z 17 root ∧ g.contains root = true ∧
      (∃ w', simplify (Config.standard.settleWithin Config.settleLimit) root (.ofGraph g)
        = .ok (.error (.unsettled 16)) w') ∧
      ∃ r w', simplify (Config.standard.settleWithin 17) root (.ofGraph g) = .ok (.ok r) w' ∧
        w'.graph.Tower .lt c z 0 r := by
  have hcompares : ∀ m ∈ List.replicate 17 ArithOp.cmp, m.isThreeWay = true := by decide
  obtain ⟨c, z, root, g, hbuild, htower, hsize⟩ :=
    exists_tower .empty 0 hcompares .lt (by decide)
  have hstored : g.contains root = true :=
    Graph.contains_of_index_lt (by rw [hsize]; decide) (Graph.index_lt_of_node htower.top)
  have hroom : ¬ UInt32.size < g.size + 17 := by
    rw [hsize]
    decide
  refine ⟨c, z, root, g, hbuild, htower, hstored, ?_, ?_⟩
  · rcases simplify_tower (Config.standard.settleWithin Config.settleLimit) (.ofGraph g) .lt c z 17
      root htower rfl hstored with ⟨answer, w', hrun, -, -, -, hlimit⟩ | ⟨_, _, -, hfull⟩
    · rw [hlimit rfl rfl (by decide)] at hrun
      exact ⟨w', hrun⟩
    · exact absurd hfull hroom
  · rcases simplify_tower (Config.standard.settleWithin 17) (.ofGraph g) .lt c z 17
      root htower rfl hstored with ⟨answer, w', hrun, henough, -⟩ | ⟨_, _, -, hfull⟩
    · obtain ⟨r, rfl, hr⟩ := henough rfl (by decide)
      exact ⟨r, w', hrun, hr⟩
    · exact absurd hfull hroom

end Run

end ValueGraph
