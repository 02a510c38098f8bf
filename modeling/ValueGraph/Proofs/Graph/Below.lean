/-
  ValueGraph.Proofs.Graph.Below

  The part of a graph that a node reaches through operands and arguments, and
  when that part is sound: every node and every argument list in it can be read,
  and no node in it is below itself.  A graph has finitely many identifiers, so
  below a sound root one cannot go down forever (`Sound.acc`); that is the
  induction on which everything said about a sound root rests.
-/
import Mathlib.Data.Fintype.EquivFin
import Mathlib.Logic.Relation
import ValueGraph.Graph.Basic

namespace ValueGraph

instance : Finite NodeId :=
  Finite.of_injective (fun id : NodeId => (⟨id.index, id.index_lt⟩ : Fin UInt32.size))
    fun _ _ h => NodeId.index_inj.mp (Fin.mk.inj h)

namespace Graph

/-- The node `parent` has `child` among its operands and arguments. -/
def IsOperand (g : Graph) (parent child : NodeId) : Prop :=
  ∃ ids, g.children parent = .ok ids ∧ child ∈ ids

/-- A node reaches itself, its operands and arguments, and all that these reach. -/
def Reaches (g : Graph) : NodeId → NodeId → Prop := Relation.ReflTransGen g.IsOperand

/-- The graph below a root is in bounds and has no cycle. -/
structure Sound (g : Graph) (root : NodeId) : Prop where
  readable : ∀ id, g.Reaches root id → ∃ ids, g.children id = .ok ids
  acyclic : ∀ id, g.Reaches root id → ¬ Relation.TransGen g.IsOperand id id

theorem reaches_self (g : Graph) (id : NodeId) : g.Reaches id id := Relation.ReflTransGen.refl

theorem Reaches.trans {g : Graph} {a b c : NodeId} (hab : g.Reaches a b) (hbc : g.Reaches b c) :
    g.Reaches a c :=
  Relation.ReflTransGen.trans hab hbc

theorem IsOperand.reaches {g : Graph} {a b : NodeId} (h : g.IsOperand a b) : g.Reaches a b :=
  Relation.ReflTransGen.single h

/-- What a node reaches is the node itself or reached by one of its operands. -/
theorem reaches_iff {g : Graph} {a c : NodeId} :
    g.Reaches a c ↔ c = a ∨ ∃ b, g.IsOperand a b ∧ g.Reaches b c := by
  rw [Reaches, Relation.ReflTransGen.cases_head_iff, eq_comm]

/-- Whatever a sound root reaches is a sound root. -/
theorem Sound.of_reaches {g : Graph} {root id : NodeId} (h : g.Sound root)
    (hid : g.Reaches root id) : g.Sound id where
  readable other hother := h.readable other (hid.trans hother)
  acyclic other hother := h.acyclic other (hid.trans hother)

/-- Below a sound root one cannot go down forever. -/
theorem Sound.acc {g : Graph} {root : NodeId} (h : g.Sound root) :
    Acc (fun child parent => g.IsOperand parent child) root := by
  -- "Properly below, and reached from the root" is transitive and irreflexive on a finite type.
  let below : NodeId → NodeId → Prop := fun low high =>
    g.Reaches root high ∧ Relation.TransGen g.IsOperand high low
  have htrans : IsTrans NodeId below :=
    ⟨fun _ _ _ hab hbc => ⟨hbc.1, hbc.2.trans hab.2⟩⟩
  have hirrefl : Std.Irrefl below := ⟨fun id hid => h.acyclic id hid.1 hid.2⟩
  have hwf : WellFounded below := Finite.wellFounded_of_trans_of_irrefl below
  have hacc : ∀ id, g.Reaches root id →
      Acc (fun child parent => g.IsOperand parent child) id := by
    intro id
    induction id using hwf.induction with
    | _ id ih =>
        intro hid
        refine Acc.intro id fun child hchild => ?_
        exact ih child ⟨hid, Relation.TransGen.single hchild⟩ (hid.trans hchild.reaches)
  exact hacc root (g.reaches_self root)

end Graph

end ValueGraph
