import Validation.Proofs.Declared.Placement

/-!
# How the nodes of a tree are formed

The nodes of the tree of a type are of two sorts: those that are formed of a type, with children for
the types nested right in it, and those that extractors lead to, which have no children.

* `Analyser.Formed`: how the children of a node come from its type.
* `formed_of_build`: all nodes of a tree with children are formed so.
-/

namespace Validation

theorem Location.depth_child (l : Location) (step : Segment) :
    (l.child step).depth = l.depth + 1 := List.length_append

namespace Analyser

variable {a : Analyser}

/-- A child for a type nested right in that of the node, one step further. -/
def ForNested (n : Node) (k : Child Node) : Prop :=
  ∃ p ∈ n.type.nested, k.wrapper = p.1 ∧ k.node.location = n.location.child p.1.step ∧
    k.node.type = p.2.type

/-- **How a node is formed of a type** that does not lie too deep: constraints are placed there, so that
some come to extractors, and the types nested right in the type have children in their order. -/
structure Formed (a : Analyser) (n : Node) : Prop where
  depth : n.location.depth ≤ a.config.maxTypeDepth
  children : ∃ cs placed nested, a.Divides n.type cs placed ∧
    n.children = placed.groups.map (extractedChild n.location) ++ nested ∧
    (nested.map (·.wrapper)).Sublist (n.type.nested.map (·.1)) ∧
    ∀ k ∈ nested, ForNested n k ∧ k.node.location.depth ≤ a.config.maxTypeDepth

/-- **The nodes of a built tree** are formed of types, or have no children. -/
theorem formed_of_build : ∀ (t : AnnotatedType) (location : Location) (s : ConstraintCache)
    (n : Node) (s' : ConstraintCache), Gives (a.build location t) s n s' →
      (n.location = location ∧ n.type = t.type ∧ a.Formed n) ∧
        ∀ m ∈ n.nodes, a.Formed m ∨ m.children = [] := by
  intro t
  induction t using AnnotatedType.induction with
  | h t ih =>
    intro location s n s' h
    obtain ⟨hdepth, placed, s₁, cascade, nested, hplaced, hnested, -, hn⟩ := build_gives h
    obtain ⟨cs, -, hdivides⟩ :=
      (foldlM_place_gives (p := ⟨location, t.type⟩) divides_nil).1 placed hplaced
    rw [buildNested_eq] at hnested
    have hchildren := buildParts_gives hnested
    have hparts : ∀ k ∈ nested, (∃ p ∈ t.type.nested, k.wrapper = p.1 ∧
        k.node.location = location.child p.1.step ∧ k.node.type = p.2.type) ∧
        k.node.location.depth ≤ a.config.maxTypeDepth ∧
        ∀ m ∈ k.node.nodes, a.Formed m ∨ m.children = [] := by
      refine hchildren.forall_mem fun p hp m ⟨s₁, s₂, hm⟩ => ?_
      obtain ⟨⟨hlocation, htype, hformed⟩, hnodes⟩ := ih p hp _ s₁ m s₂ hm
      exact ⟨⟨p, hp, rfl, hlocation, htype⟩, hformed.depth, hnodes⟩
    have hformed : a.Formed n := by
      subst hn
      exact ⟨hdepth, cs, placed, nested, hdivides, rfl, hchildren.wrapper_sublist,
        fun k hk => ⟨(hparts k hk).1, (hparts k hk).2.1⟩⟩
    refine ⟨⟨by rw [hn], by rw [hn], hformed⟩, fun m hm => ?_⟩
    rcases Node.mem_nodes.1 hm with rfl | ⟨k, hk, hm⟩
    · exact .inl hformed
    · rw [hn] at hk
      rcases List.mem_append.1 hk with hk | hk
      · -- there is nothing below what an extractor leads to
        obtain ⟨g, -, rfl⟩ := List.mem_map.1 hk
        rcases Node.mem_nodes.1 hm with rfl | ⟨k, hk, -⟩
        · exact .inr rfl
        · cases hk
      · exact (hparts k hk).2.2 m hm

end Analyser

end Validation
