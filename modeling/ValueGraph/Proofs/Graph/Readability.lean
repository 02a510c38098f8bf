/-
  ValueGraph.Proofs.Graph.Readability

  Texts of nodes decide what the nodes stand for, in the part of a graph that has
  no double, no string and no call (`Plain`).

  A node there has a text, in whatever table of names, and two of them have the
  same text exactly if they stand for the same term but for types
  (`text_decides_term`).
-/
import ValueGraph.Proofs.Graph.Showing
import ValueGraph.Proofs.Term.Readability

namespace ValueGraph

/-- The node is a literal that is no double and no string, a parameter, the receiver, or an operator
    over other nodes. -/
def Node.isPlain (node : Node) : Bool :=
  match node.kind with
  | .leaf (.int _) | .leaf (.long _) | .leaf .null | .leaf (.arg _) | .leaf .this
  | .comparison .. | .arithmetic .. | .negation _ => true
  | .leaf (.double _) | .leaf (.str _) | .virtualCall .. | .staticCall .. => false

namespace Graph

variable {g h : Graph} {root id : NodeId} {node : Node} {t : Term}

/-- The graph below a root is in bounds, has no cycle, and consists of plain nodes. -/
structure Plain (g : Graph) (root : NodeId) : Prop where
  sound : g.Sound root
  contained : ∀ id, g.Reaches root id → g.contains id = true
  plain : ∀ id node, g.Reaches root id → g.node id = .ok node → node.isPlain = true

theorem Spells.isPlain_eq (hspells : g.Spells node t) : node.isPlain = t.label?.isSome := by
  cases hspells with
  | @leaf value ty => cases value <;> rfl
  | comparison | arithmetic | negation | virtualCall | staticCall => rfl

/-- The term of a root over plain nodes is plain. -/
theorem Plain.term_plain (hroot : g.Plain root) (hunfolds : g.Unfolds root t) : t.Plain := by
  intro s hs
  obtain ⟨id, hreach, hread, hspells⟩ := hunfolds.exists_reaches hs
  rw [← hspells.isPlain_eq]
  exact hroot.plain id _ hreach hread

/-- Two roots over plain nodes, in any two graphs and with any two tables of names, each have a text,
    and they have the same text exactly if they stand for the same term but for types. -/
theorem text_decides_term {a b : NodeId} (ha : g.Plain a) (hb : h.Plain b)
    (names names' : NameTable) :
    ∃ s t text text', g.Unfolds a s ∧ h.Unfolds b t ∧
      g.render names a = .ok text ∧ h.render names' b = .ok text' ∧
      (text = text' ↔ s.untyped = t.untyped) := by
  obtain ⟨s, hs⟩ := exists_unfolds_iff.mpr ha.sound
  obtain ⟨t, ht⟩ := exists_unfolds_iff.mpr hb.sound
  refine ⟨s, t, s.render names, t.render names', hs, ht, ?_, ?_, ?_⟩
  · rw [render, hs.unfold_eq_of_contains ha.contained]
    rfl
  · rw [render, ht.unfold_eq_of_contains hb.contained]
    rfl
  · exact (ha.term_plain hs).render_eq_iff (hb.term_plain ht)

/-- In a graph with a node to spare whose stored nodes are all plain, every node that stands for a
    term has plain nodes below it. -/
theorem Unfolds.plain (hroom : g.size < UInt32.size) (hroot : g.Unfolds root t)
    (hplain : ∀ node ∈ g.nodes, node.isPlain = true) : g.Plain root where
  sound := exists_unfolds_iff.mp ⟨t, hroot⟩
  contained _ hreach := hroot.contains_of_reaches hroom hreach
  plain _ _ _ hread := hplain _ (Array.mem_of_getElem? (node_eq_ok_iff.mp hread))

/-- The comparison `(a ne 0) eq 0`, stored in two graphs with different sharing, has one text. -/
theorem text_decides_term_sample :
    sample.Plain ⟨3⟩ ∧ unsharedSample.Plain ⟨5⟩ ∧
      sample.render .initial ⟨3⟩ = unsharedSample.render .initial ⟨5⟩ := by
  have ha : sample.Plain ⟨3⟩ := sample_unfolds.plain (by decide) (by decide)
  have hb : unsharedSample.Plain ⟨5⟩ := unsharedSample_unfolds.plain (by decide) (by decide)
  obtain ⟨s, t, text, text', hs, ht, htext, htext', hiff⟩ :=
    text_decides_term ha hb .initial .initial
  cases hs.unique sample_unfolds
  cases ht.unique unsharedSample_unfolds
  exact ⟨ha, hb, by rw [htext, htext', hiff.mpr rfl]⟩

end Graph

end ValueGraph
