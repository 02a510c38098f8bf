/-
  ValueGraph.Rule.Method

  The rule for calls of comparing methods: such a call is the comparison of its
  receiver with its first argument.
-/
import ValueGraph.MethodTable
import ValueGraph.Rule.Replacement

namespace ValueGraph

/-- The comparison that a call stands for.  The arguments are looked at only if the table has the
    method; without an argument there is nothing to compare with. -/
def Graph.methodRule (g : Graph) (table : MethodTable) (sig : Signature) (receiver : NodeId)
    (args : Span) : Except Fault (Option Replacement) :=
  match table.find? sig with
  | none => .ok none
  | some op => do
    let ids ← g.args args
    return ids.head?.map fun first => .fresh (.comparison op receiver first)

/-- Where the arguments are there, the rule is decided by what the table finds and by the first of
    them. -/
theorem Graph.methodRule_of_args {g : Graph} {args : Span} {ids : List NodeId}
    (hargs : g.args args = .ok ids) (table : MethodTable) (sig : Signature) (receiver : NodeId) :
    g.methodRule table sig receiver args
      = .ok ((table.find? sig).bind fun op =>
          ids.head?.map fun first => .fresh (.comparison op receiver first)) := by
  rw [methodRule]
  cases table.find? sig with
  | none => rfl
  | some op =>
      simp only [hargs]
      rfl

end ValueGraph
