/-
  ValueGraph.Proofs.Rule.Method

  A table of comparing methods says of each method what the last entry for it
  says, and that alone decides what becomes of a call.

  A table is built by setting one entry after the other.  Each of them takes the
  place of the earlier entries for its method and leaves the other methods as
  they are (`find?_insert`), so by induction on the entries the table finds the
  last operator that a method was given (`find?_ofEntries`).  Which methods it
  has, and how many, follows from what it finds (`mem_methods_iff`,
  `size_ofEntries`).

  A table is only ever asked for the operator of a method, so two tables that
  answer alike are alike to every rule and to every pass (`apply_congr`,
  `pass_congr`).  A call is replaced exactly if the rule for methods is chosen,
  the table has the method and there is an argument, and otherwise nothing at
  all happens (`readsCall`).  The two together are `last_entry_counts`.
-/
import ValueGraph.Proofs.Simplify.Rewriting
import Mathlib.Data.Finset.Card

namespace ValueGraph

namespace MethodTable

/-! ## The entries for a method -/

/-- The entries for one method, in their order. -/
def entriesOf (sig : Signature) (entries : List (Signature × RelOp)) : List (Signature × RelOp) :=
  entries.filter fun entry => entry.1 == sig

/-- The operator of the last entry for a method, if there is one. -/
def lastOp? (entries : List (Signature × RelOp)) (sig : Signature) : Option RelOp :=
  (entriesOf sig entries).getLast?.map Prod.snd

/-- One list of entries is the other in a different order, in which the entries for each method have
    kept theirs. -/
structure Reorders (entries other : List (Signature × RelOp)) : Prop where
  perm : entries.Perm other
  keeps : ∀ sig, entriesOf sig entries = entriesOf sig other

variable {table other : MethodTable} {entries : List (Signature × RelOp)} {sig : Signature}

/-- One more entry is the last one for its method, and for no other. -/
theorem lastOp?_concat (entries : List (Signature × RelOp)) (key sig : Signature) (op : RelOp) :
    lastOp? (entries ++ [(key, op)]) sig = if sig = key then some op else lastOp? entries sig := by
  rw [lastOp?, entriesOf, List.filter_append]
  by_cases hsame : sig = key
  · subst hsame
    simp
  · have happart : (key == sig) = false := by simpa using Ne.symm hsame
    simp [happart, hsame, lastOp?, entriesOf]

/-- There is a last entry for a method exactly if there is an entry for it. -/
theorem isSome_lastOp?_iff : (lastOp? entries sig).isSome = true ↔ sig ∈ entries.map Prod.fst := by
  rw [lastOp?, Option.isSome_map, List.getLast?_isSome, List.mem_map]
  constructor
  · intro hne
    obtain ⟨entry, hentry⟩ := List.exists_mem_of_ne_nil _ hne
    obtain ⟨hmem, hkey⟩ := List.mem_filter.mp hentry
    exact ⟨entry, hmem, eq_of_beq hkey⟩
  · rintro ⟨entry, hmem, rfl⟩
    exact List.ne_nil_of_mem (List.mem_filter.mpr ⟨hmem, beq_self_eq_true _⟩)

/-- Two neighbouring entries for different methods can change places. -/
theorem reorders_swap {first second : Signature × RelOp} (hne : first.1 ≠ second.1)
    (before after : List (Signature × RelOp)) :
    Reorders (before ++ first :: second :: after) (before ++ second :: first :: after) where
  perm := (List.Perm.swap second first after).append_left before
  keeps sig := by
    -- At most one of the two is an entry for the method.
    by_cases hsame : first.1 = sig
    · have happart : (second.1 == sig) = false := by simpa [← hsame] using hne.symm
      simp [entriesOf, List.filter_cons, happart]
    · have happart : (first.1 == sig) = false := by simpa using hsame
      simp [entriesOf, List.filter_cons, happart]

/-! ## Tables -/

theorem ofEntries_concat (entries : List (Signature × RelOp)) (key : Signature) (op : RelOp) :
    ofEntries (entries ++ [(key, op)]) = (ofEntries entries).insert key op := by
  rw [ofEntries, List.foldl_concat, ofEntries]

/-- A table finds what the last entry for a method says. -/
theorem find?_ofEntries (entries : List (Signature × RelOp)) (sig : Signature) :
    (ofEntries entries).find? sig = lastOp? entries sig := by
  -- The induction is from the end of the list, where the entry stands that is set last.
  induction entries using List.reverseRecOn with
  | nil => rfl
  | append_singleton entries entry ih =>
      obtain ⟨key, op⟩ := entry
      rw [ofEntries_concat, find?_insert, lastOp?_concat, ih]

/-- A table has the methods of which it finds an operator. -/
theorem mem_methods_iff (table : MethodTable) (sig : Signature) :
    sig ∈ table.entries.map Prod.fst ↔ (table.find? sig).isSome = true := by
  rw [List.mem_map, Option.isSome_iff_exists]
  constructor
  · rintro ⟨⟨key, op⟩, hmem, rfl⟩
    exact ⟨op, find?_eq_some_iff.mpr hmem⟩
  · rintro ⟨op, hfind⟩
    exact ⟨(sig, op), find?_eq_some_iff.mp hfind, rfl⟩

/-- A table has as many methods as its entries name. -/
theorem size_ofEntries (entries : List (Signature × RelOp)) :
    (ofEntries entries).size = (entries.map Prod.fst).toFinset.card := by
  have hmethods : ((ofEntries entries).entries.map Prod.fst).toFinset
      = (entries.map Prod.fst).toFinset := by
    ext sig
    rw [List.mem_toFinset, List.mem_toFinset, mem_methods_iff, find?_ofEntries, isSome_lastOp?_iff]
  -- A table has no method twice, so counting its entries is counting its methods.
  calc (ofEntries entries).size
      = ((ofEntries entries).entries.map Prod.fst).length := (List.length_map _).symm
    _ = ((ofEntries entries).entries.map Prod.fst).toFinset.card :=
        (List.toFinset_card_of_nodup (ofEntries entries).nodup).symm
    _ = (entries.map Prod.fst).toFinset.card := by rw [hmethods]

theorem isEmpty_eq_of_size_eq (hsize : table.size = other.size) : table.isEmpty = other.isEmpty := by
  rw [isEmpty, isEmpty, Bool.eq_iff_iff, List.isEmpty_iff_length_eq_zero,
    List.isEmpty_iff_length_eq_zero]
  exact Eq.congr_left hsize

/-- Nothing that a table can be asked, and nothing that the rules do with it, tells two tables
    apart. -/
structure Alike (table other : MethodTable) : Prop where
  find? : ∀ sig, table.find? sig = other.find? sig
  size : table.size = other.size
  isEmpty : table.isEmpty = other.isEmpty
  apply : ∀ groups, Rules.apply ⟨table, groups⟩ = Rules.apply ⟨other, groups⟩
  pass : ∀ groups, Rules.pass ⟨table, groups⟩ = Rules.pass ⟨other, groups⟩

end MethodTable

/-! ## Tables that find the same -/

section Congr

variable {table other : MethodTable}

theorem Graph.nodeRule_congr (hfind : ∀ sig, table.find? sig = other.find? sig) (g : Graph)
    (groups : RuleGroups) (id : NodeId) : g.nodeRule table groups id = g.nodeRule other groups id := by
  -- Of all the rules, only the one for calls has the table.
  have hmethod : ∀ sig receiver args,
      g.methodRule table sig receiver args = g.methodRule other sig receiver args := by
    intro sig receiver args
    rw [methodRule, methodRule, hfind]
  have hhandlers : g.ruleHandlers table groups = g.ruleHandlers other groups := by
    simp only [ruleHandlers, hmethod]
  rw [nodeRule, nodeRule, hhandlers]

namespace Rules

theorem apply_congr (hfind : ∀ sig, table.find? sig = other.find? sig) (groups : RuleGroups) :
    Rules.apply ⟨table, groups⟩ = Rules.apply ⟨other, groups⟩ := by
  funext id
  simp only [apply, Graph.nodeRule_congr hfind]

theorem imageOf_congr (hfind : ∀ sig, table.find? sig = other.find? sig) (groups : RuleGroups)
    (depth : Nat) : Rules.imageOf ⟨table, groups⟩ depth = Rules.imageOf ⟨other, groups⟩ depth := by
  induction depth with
  | zero => rfl
  | succ depth ih =>
      funext id
      simp only [imageOf, ih, apply_congr hfind]

theorem pass_congr (hfind : ∀ sig, table.find? sig = other.find? sig) (groups : RuleGroups) :
    Rules.pass ⟨table, groups⟩ = Rules.pass ⟨other, groups⟩ := by
  funext number root
  simp only [pass, imageOf_congr hfind]

end Rules

end Congr

/-- The order of entries for different methods makes no difference. -/
theorem MethodTable.Reorders.alike {entries other : List (Signature × RelOp)}
    (h : Reorders entries other) : (ofEntries entries).Alike (ofEntries other) := by
  have hfind : ∀ sig, (ofEntries entries).find? sig = (ofEntries other).find? sig := by
    intro sig
    rw [find?_ofEntries, find?_ofEntries, lastOp?, lastOp?, h.keeps]
  have hsize : (ofEntries entries).size = (ofEntries other).size := by
    rw [size_ofEntries, size_ofEntries, List.toFinset_eq_of_perm _ _ (h.perm.map Prod.fst)]
  exact {
    find? := hfind
    size := hsize
    isEmpty := isEmpty_eq_of_size_eq hsize
    apply := Rules.apply_congr hfind
    pass := Rules.pass_congr hfind }

/-! ## Calls -/

namespace Graph

variable {g : Graph} {table : MethodTable} {groups : RuleGroups} {id receiver first : NodeId}
  {sig : Signature} {span : Span} {ty : Ty} {args rest : List NodeId} {op : RelOp}

/-- A call of a method in the table with an argument is read as a comparison. -/
theorem nodeRule_of_known (hnode : g.node id = .ok ⟨.virtualCall sig receiver span, ty⟩)
    (hargs : g.args span = .ok (first :: rest)) (hmethods : groups.methods = true)
    (hfind : table.find? sig = some op) :
    g.nodeRule table groups id
      = .ok (some ⟨.method, .fresh (.comparison op receiver first)⟩) := by
  rw [nodeRule_virtualCall hnode, if_pos hmethods, methodRule_of_args hargs, hfind]
  rfl

/-- Any other call is left alone. -/
theorem nodeRule_of_unknown (hnode : g.node id = .ok ⟨.virtualCall sig receiver span, ty⟩)
    (hargs : g.args span = .ok args)
    (hother : groups.methods = false ∨ table.find? sig = none ∨ args = []) :
    g.nodeRule table groups id = .ok none := by
  rw [nodeRule_virtualCall hnode, methodRule_of_args hargs]
  -- In the last two cases it makes no difference whether the rule is chosen.
  rcases hother with hoff | hnone | rfl
  · rw [hoff, if_neg Bool.false_ne_true]
  · rw [hnone]
    exact ite_self _
  · cases table.find? sig <;> exact ite_self _

end Graph

namespace Rules

variable {rules : Rules} {w : Workspace} {id receiver : NodeId} {sig : Signature} {span : Span}
  {ty : Ty} {args : List NodeId}

/-- What applying the rules does to a call of the method `sig` on these arguments. -/
structure ReadsCall (rules : Rules) (w : Workspace) (id : NodeId) (sig : Signature)
    (receiver : NodeId) (args : List NodeId) : Prop where
  /-- If the table has the method, the comparison of the receiver with the first argument is stored
      behind all nodes and answered, and one replacement is counted. -/
  replaced : ∀ op first rest, rules.groups.methods = true → rules.methods.find? sig = some op →
    args = first :: rest → w.graph.size < UInt32.size →
      rules.apply id w = .ok ⟨.ofNat w.graph.size⟩
        ⟨w.graph.addNode (.comparison op receiver first), w.images, w.replaced + 1,
          w.log.push (.replaced .method id ⟨.ofNat w.graph.size⟩)⟩
  /-- Only a full graph stops that, and then nothing is stored or counted. -/
  stopped : ∀ op, rules.groups.methods = true → rules.methods.find? sig = some op → args ≠ [] →
    UInt32.size ≤ w.graph.size → rules.apply id w = .error (.tooManyNodes w.graph.size) w
  /-- In every other case the call is answered, and nothing is stored, counted or reported. -/
  kept : rules.groups.methods = false ∨ rules.methods.find? sig = none ∨ args = [] →
    rules.apply id w = .ok id w

theorem readsCall (hnode : w.graph.node id = .ok ⟨.virtualCall sig receiver span, ty⟩)
    (hargs : w.graph.args span = .ok args) : rules.ReadsCall w id sig receiver args where
  replaced op first rest hmethods hfind hfirst hroom := by
    subst hfirst
    rcases apply_fresh_cases (Graph.nodeRule_of_known hnode hargs hmethods hfind) with
      ⟨-, hrun⟩ | ⟨hfull, -⟩
    · exact hrun
    · omega
  stopped op hmethods hfind hne hfull := by
    obtain ⟨first, rest, rfl⟩ := List.exists_cons_of_ne_nil hne
    rcases apply_fresh_cases (Graph.nodeRule_of_known hnode hargs hmethods hfind) with
      ⟨hroom, -⟩ | ⟨-, hrun⟩
    · omega
    · exact hrun
  kept hother := apply_of_none (Graph.nodeRule_of_unknown hnode hargs hother)

end Rules

/-- Of several entries for a method the last one counts.  The table of a list of entries finds the
    operator of the last entry for a method, and nothing if there is none; it has as many methods as
    the entries name; and however the entries are reordered, if those for each method keep their
    order, the table stays the same to all that use it.  By what a table finds, the rules then read a
    call in bounds, whatever the graph and the groups: if the rule for methods is chosen, the table
    finds an operator and there is an argument, then the call is replaced by one new comparison,
    unless there is no room for it; in every other case the call stays, and nothing else changes. -/
theorem MethodTable.last_entry_counts :
    (∀ entries : List (Signature × RelOp),
      (∀ sig, (ofEntries entries).find? sig = lastOp? entries sig) ∧
        (ofEntries entries).size = (entries.map Prod.fst).toFinset.card ∧
        ∀ other, Reorders entries other → (ofEntries entries).Alike (ofEntries other)) ∧
      ∀ (rules : Rules) (w : Workspace) (id : NodeId) (sig : Signature) (receiver : NodeId)
        (span : Span) (ty : Ty) (args : List NodeId),
        w.graph.node id = .ok ⟨.virtualCall sig receiver span, ty⟩ →
        w.graph.args span = .ok args → rules.ReadsCall w id sig receiver args := by
  refine ⟨fun entries => ⟨?find, ?size, ?order⟩, ?calls⟩
  case find => exact find?_ofEntries entries
  case size => exact size_ofEntries entries
  case order => exact fun other hreorders => hreorders.alike
  case calls =>
    intro rules w id sig receiver span ty args hnode hargs
    exact Rules.readsCall hnode hargs

/-- Three entries, two of them for one method. -/
def MethodTable.overwrittenSample : List (Signature × RelOp) :=
  [(.stringEquals, .eq), (.dateBefore, .lt), (.stringEquals, .ne)]

/-- The table of these entries has two methods and knows the operator that was given last, also when
    the first two entries have changed places.  By it, a test for equal strings becomes `ne`; without
    the rule for methods it stays. -/
theorem MethodTable.last_entry_counts_sample :
    (ofEntries overwrittenSample).find? .stringEquals = some .ne ∧
      (ofEntries overwrittenSample).size = 2 ∧
      Reorders overwrittenSample
        [(.dateBefore, .lt), (.stringEquals, .eq), (.stringEquals, .ne)] ∧
      (ofEntries overwrittenSample).Alike
        (ofEntries [(.dateBefore, .lt), (.stringEquals, .eq), (.stringEquals, .ne)]) ∧
      Graph.equalsSample.node ⟨2⟩ = .ok ⟨.virtualCall .stringEquals ⟨0⟩ ⟨0, 1⟩, .boolean⟩ ∧
      Graph.equalsSample.args ⟨0, 1⟩ = .ok [⟨1⟩] ∧
      Rules.apply ⟨ofEntries overwrittenSample, .all⟩ ⟨2⟩ (.ofGraph .equalsSample)
        = .ok ⟨5⟩ ⟨Graph.equalsSample.addNode (.comparison .ne ⟨0⟩ ⟨1⟩), ∅, 1,
            #[.replaced .method ⟨2⟩ ⟨5⟩]⟩ ∧
      Rules.apply ⟨ofEntries overwrittenSample, ⟨true, true, false⟩⟩ ⟨2⟩ (.ofGraph .equalsSample)
        = .ok ⟨2⟩ (.ofGraph .equalsSample) := by
  obtain ⟨htable, hcalls⟩ := last_entry_counts
  obtain ⟨hfind, hsize, horder⟩ := htable overwrittenSample
  have hknown : (ofEntries overwrittenSample).find? .stringEquals = some .ne := hfind .stringEquals
  have hreorders : Reorders overwrittenSample
      [(.dateBefore, .lt), (.stringEquals, .eq), (.stringEquals, .ne)] :=
    reorders_swap (by decide) [] [(.stringEquals, .ne)]
  have hnode : Graph.equalsSample.node ⟨2⟩
      = .ok ⟨.virtualCall .stringEquals ⟨0⟩ ⟨0, 1⟩, .boolean⟩ := rfl
  have hargs : Graph.equalsSample.args ⟨0, 1⟩ = .ok [⟨1⟩] := rfl
  refine ⟨hknown, hsize.trans (by decide), hreorders, horder _ hreorders, hnode, hargs, ?_, ?_⟩
  · exact (hcalls ⟨_, .all⟩ (.ofGraph .equalsSample) ⟨2⟩ .stringEquals ⟨0⟩ ⟨0, 1⟩ .boolean [⟨1⟩]
      hnode hargs).replaced .ne ⟨1⟩ [] rfl hknown rfl (by decide)
  · exact (hcalls ⟨_, ⟨true, true, false⟩⟩ (.ofGraph .equalsSample) ⟨2⟩ .stringEquals ⟨0⟩ ⟨0, 1⟩
      .boolean [⟨1⟩] hnode hargs).kept (Or.inl rfl)

end ValueGraph
