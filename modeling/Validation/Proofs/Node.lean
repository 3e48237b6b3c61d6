import Validation.Node.Basic

/-!
# Trees of nodes

Induction over a tree: what holds of a node as soon as it holds of the nodes right below holds of
every node.
-/

namespace Validation.Node

variable {P : Node → Prop}

mutual

/-- **Induction over trees.** -/
theorem induction (h : ∀ n : Node, (∀ k ∈ n.children, P k.node) → P n) : ∀ n, P n
  | ⟨_, _, _, _, children⟩ => h _ (inductionAll h children)

theorem inductionAll (h : ∀ n : Node, (∀ k ∈ n.children, P k.node) → P n) :
    ∀ children : List (Child Node), ∀ k ∈ children, P k.node
  | [], _, hk => absurd hk List.not_mem_nil
  | ⟨_, node⟩ :: rest, k, hk =>
    (List.mem_cons.1 hk).elim (fun heq => heq ▸ induction h node) (inductionAll h rest k)

end

theorem nodes_eq (n : Node) : n.nodes = n :: nodesOf n.children := by
  obtain ⟨location, type, constraints, cascade, children⟩ := n
  rw [nodes]

theorem mem_nodesOf {m : Node} {children : List (Child Node)} :
    m ∈ nodesOf children ↔ ∃ k ∈ children, m ∈ k.node.nodes := by
  induction children with
  | nil => simp [nodesOf]
  | cons k rest ih =>
    rw [nodesOf, List.mem_append, ih]
    simp

theorem mem_nodes {m n : Node} : m ∈ n.nodes ↔ m = n ∨ ∃ k ∈ n.children, m ∈ k.node.nodes := by
  rw [nodes_eq, List.mem_cons, mem_nodesOf]

theorem mem_nodes_self (n : Node) : n ∈ n.nodes := mem_nodes.2 (.inl rfl)

theorem mem_nodes_of_child {k : Child Node} {n : Node} :
    ∀ {m : Node}, m ∈ n.nodes → k ∈ m.children → k.node ∈ n.nodes := by
  induction n using Node.induction with
  | h n ih =>
    intro m hm hk
    rcases mem_nodes.1 hm with rfl | ⟨j, hj, hm⟩
    · exact mem_nodes.2 (.inr ⟨k, hk, mem_nodes_self k.node⟩)
    · exact mem_nodes.2 (.inr ⟨j, hj, ih j hj hm hk⟩)

theorem mem_cascades {n : Node} {name : String} :
    name ∈ n.cascades ↔ ∃ m ∈ n.nodes, m.cascade = some name := by
  rw [cascades, List.mem_eraseDups, List.mem_filterMap]

end Validation.Node
