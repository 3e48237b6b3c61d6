import Validation.Proofs.Except
import Validation.Proofs.Node
import Validation.Proofs.Order

/-!
# The criterion of a tree by recursion

What a node contributes to its criterion, said of the node alone: at each place in the order of
checks its own constraints in the order of their declarations, and then the parts whose last place
it is. A part is wrapped once, at the last place of any constraint in it, and the parts of one
place come **latest declared first**.

* `Node.last`: the last place of a node and of all nodes below it.
* `Node.finished`: the criterion of a node, from those of the nodes right below.
* `Node.unit`: the criteria that a node has collected when some places are done.
* `finished_of_mem_nodes`: where a tree has a criterion, every node of it has.
-/

namespace Validation

open Constraint (Deferred)

/-- The criteria with those that are made one after another pushed to them. -/
def ShapedCriteria.pushAll (cs : ShapedCriteria) (deferred : List Deferred) :
    Except AnalysisError ShapedCriteria :=
  deferred.foldlM (fun unit c => do unit.push (← c ())) cs

namespace Node

mutual

/-- The last place of the constraints of a node and of the nodes below it. -/
def last : Node → Order
  | ⟨_, _, constraints, _, children⟩ => Order.latest (constraints.map (·.order) ++ lasts children)

/-- The last places of children. -/
def lasts : List (Child Node) → List Order
  | [] => []
  | ⟨_, node⟩ :: rest => last node :: lasts rest

end

/-- The criteria of a node's own constraints, with their places. -/
def own (n : Node) : List (Order × Deferred) :=
  n.constraints.map fun c => (c.order, fun _ => c.process n.position)

mutual

/-- The criterion of a node: what it collects at each place in ascending order, and the class that
it cascades into last. -/
def finished (link : Linker) : Node → Except AnalysisError ShapedCriterion
  | ⟨location, type, constraints, cascade, children⟩ =>
    let n : Node := ⟨location, type, constraints, cascade, children⟩
    let unit := (Order.sort (·.1) (n.own ++ parts link children)).map (·.2)
    let linked := cascade.toList.map fun name _ => ShapedCriterion.onValues <$> link name
    Constraint.combine type.shape (unit ++ linked)

/-- The wrapped criteria of children, with their last places, the latest declared first. -/
def parts (link : Linker) : List (Child Node) → List (Order × Deferred)
  | [] => []
  | ⟨wrapper, node⟩ :: rest =>
    parts link rest ++
      [(node.last, fun _ => do return .onValues (← wrapper.wrap (← finished link node)))]

end

/-- The wrapped criterion of a child, with its last place. -/
def part (link : Linker) (k : Child Node) : Order × Deferred :=
  (k.node.last, fun _ => do return .onValues (← k.wrapper.wrap (← k.node.finished link)))

/-- All that a node collects, in the order in which it does. -/
def contributions (link : Linker) (n : Node) : List (Order × Deferred) :=
  Order.sort (·.1) (n.own ++ parts link n.children)

/-- The criterion of the class that a node cascades into. -/
def linked (link : Linker) (n : Node) : List Deferred :=
  n.cascade.toList.map fun name _ => ShapedCriterion.onValues <$> link name

/-- The criteria that a node has collected when the places `d` are done. -/
def unit (link : Linker) (d : Order → Bool) (n : Node) : Except AnalysisError ShapedCriteria :=
  (ShapedCriteria.empty n.type.shape).pushAll
    (((n.contributions link).filter (d ·.1)).map (·.2))

variable {link : Linker} {n : Node} {d : Order → Bool}

theorem last_eq (n : Node) :
    n.last = Order.latest (n.constraints.map (·.order) ++ n.children.map (·.node.last)) := by
  have hlasts : ∀ children : List (Child Node), lasts children = children.map (·.node.last) := by
    intro children
    induction children with
    | nil => rfl
    | cons k rest ih => rw [lasts, ih]; rfl
  obtain ⟨location, type, constraints, cascade, children⟩ := n
  rw [last, hlasts]

theorem finished_eq (link : Linker) (n : Node) :
    n.finished link =
      Constraint.combine n.type.shape ((n.contributions link).map (·.2) ++ n.linked link) := by
  obtain ⟨location, type, constraints, cascade, children⟩ := n
  rw [finished]
  rfl

end Node

namespace ShapedCriteria

theorem pushAll_cons_eq_ok {cs out : ShapedCriteria} {c : Deferred} {rest : List Deferred} :
    cs.pushAll (c :: rest) = .ok out ↔
      ∃ s, c () = .ok s ∧ ∃ cs', cs.push s = .ok cs' ∧ cs'.pushAll rest = .ok out := by
  simp only [pushAll, foldlM_cons_eq_ok, bind_eq_ok]
  constructor
  · rintro ⟨cs', ⟨s, hs, hpush⟩, hrest⟩
    exact ⟨s, hs, cs', hpush, hrest⟩
  · rintro ⟨s, hs, cs', hpush, hrest⟩
    exact ⟨cs', ⟨s, hs, hpush⟩, hrest⟩

theorem pushAll_append_eq_ok {cs out : ShapedCriteria} {l l' : List Deferred} :
    cs.pushAll (l ++ l') = .ok out ↔ ∃ cs', cs.pushAll l = .ok cs' ∧ cs'.pushAll l' = .ok out :=
  foldlM_append_eq_ok

@[simp]
theorem pushAll_nil {cs out : ShapedCriteria} : cs.pushAll [] = .ok out ↔ cs = out := by
  simp [pushAll]

theorem combine_eq_ok {shape : Shape} {deferred : List Deferred} {s : ShapedCriterion} :
    Constraint.combine shape deferred = .ok s ↔
      ∃ cs, (ShapedCriteria.empty shape).pushAll deferred = .ok cs ∧ cs.simplify = s := by
  simp only [Constraint.combine, bind_eq_ok, pure_eq_ok]
  rfl

/-- Everything that is pushed has been made. -/
theorem made_of_pushAll {cs out : ShapedCriteria} {deferred : List Deferred}
    (h : cs.pushAll deferred = .ok out) : ∀ c ∈ deferred, ∃ s, c () = .ok s := by
  induction deferred generalizing cs with
  | nil => simp
  | cons c rest ih =>
    obtain ⟨s, hs, cs', -, hrest⟩ := pushAll_cons_eq_ok.1 h
    intro c' hc'
    rcases List.mem_cons.1 hc' with rfl | hc'
    · exact ⟨s, hs⟩
    · exact ih hrest c' hc'

end ShapedCriteria

namespace Node

variable {link : Linker} {n : Node} {d : Order → Bool}

/-- The last place is done exactly when those of the constraints and of the children are. -/
theorem done_last (hd : Order.DownClosed d) (n : Node) :
    d n.last = (d none && n.constraints.all (d ·.order) && n.children.all (d ·.node.last)) := by
  rw [last_eq, hd.latest, List.all_append, List.all_map, List.all_map, Bool.and_assoc]
  rfl

/-- **The parts come latest declared first.** -/
theorem parts_eq (link : Linker) (children : List (Child Node)) :
    parts link children = (children.map (part link)).reverse := by
  induction children with
  | nil => rfl
  | cons k rest ih => rw [parts, ih, List.map_cons, List.reverse_cons]; rfl

theorem mem_parts {e : Order × Deferred} {children : List (Child Node)} :
    e ∈ parts link children ↔ ∃ k ∈ children, part link k = e := by
  rw [parts_eq, List.mem_reverse, List.mem_map]

theorem part_eq_ok {k : Child Node} {s : ShapedCriterion} :
    (part link k).2 () = .ok s ↔ ∃ t, k.node.finished link = .ok t ∧
      ∃ c, k.wrapper.wrap t = .ok c ∧ .onValues c = s := by
  simp only [part, bind_eq_ok, pure_eq_ok]

theorem last_mem (n : Node) :
    n.last = none ∨ ∃ m ∈ n.nodes, ∃ c ∈ m.constraints, c.order = n.last := by
  induction n using Node.induction with
  | _ n ih =>
    rw [last_eq]
    rcases Order.latest_mem (n.constraints.map (·.order) ++ n.children.map (·.node.last)) with h | h
    · exact .inl h
    rw [List.mem_append, List.mem_map, List.mem_map] at h
    rcases h with ⟨c, hc, heq⟩ | ⟨k, hk, heq⟩
    · exact .inr ⟨n, mem_nodes_self n, c, hc, heq⟩
    · rw [← heq]
      refine (ih k hk).imp_right ?_
      rintro ⟨m, hm, c, hc, hlast⟩
      exact ⟨m, mem_nodes.2 (.inr ⟨k, hk, hm⟩), c, hc, hlast⟩

theorem own_place {e : Order × Deferred} (he : e ∈ n.own) : e.1 ∈ bucketOrders n := by
  obtain ⟨c, hc, rfl⟩ := List.mem_map.1 he
  exact Order.mem_bucketOrders.2 (.inr ⟨n, mem_nodes_self n, c, hc, rfl⟩)

theorem parts_place {e : Order × Deferred} (he : e ∈ parts link n.children) :
    e.1 ∈ bucketOrders n := by
  obtain ⟨k, hk, rfl⟩ := mem_parts.1 he
  refine Order.mem_bucketOrders.2 ((last_mem k.node).imp_right ?_)
  rintro ⟨m, hm, c, hc, hlast⟩
  exact ⟨m, mem_nodes.2 (.inr ⟨k, hk, hm⟩), c, hc, hlast⟩

/-- **Nothing is lost and nothing is added**: what a node collects are its own constraints and its
parts. -/
theorem mem_contributions {e : Order × Deferred} :
    e ∈ n.contributions link ↔ e ∈ n.own ∨ e ∈ parts link n.children := by
  rw [contributions, Order.mem_sort, List.mem_append]

theorem sorted_contributions (link : Linker) (n : Node) : Order.Sorted (n.contributions link) :=
  Order.sorted_sort _

/-- What a node collects at one place. -/
theorem contributions_at (link : Linker) (n : Node) (o : Order) :
    (n.contributions link).filter (·.1 == o) =
      n.own.filter (·.1 == o) ++ (parts link n.children).filter (·.1 == o) := by
  rw [contributions, Order.filter_sort, List.filter_append]

/-- **One bucket more.** To what a node has before a place its own constraints of the place are
added, and then the parts whose last place it is. -/
theorem unit_upTo_eq_ok (o : Order) {u : ShapedCriteria} :
    n.unit link (Order.upTo o) = .ok u ↔
      ∃ u₀, n.unit link (Order.before o) = .ok u₀ ∧
        ∃ u₁, u₀.pushAll ((n.own.filter (·.1 == o)).map (·.2)) = .ok u₁ ∧
          u₁.pushAll (((parts link n.children).filter (·.1 == o)).map (·.2)) = .ok u := by
  rw [unit, Order.filter_upTo (sorted_contributions link n) o, contributions_at, List.map_append,
    List.map_append, ShapedCriteria.pushAll_append_eq_ok]
  simp only [ShapedCriteria.pushAll_append_eq_ok]
  rfl

/-- Where the last place is done, all places are. -/
theorem filter_contributions (hd : Order.DownClosed d) (hlast : d n.last = true) :
    (n.contributions link).filter (d ·.1) = n.contributions link := by
  rw [done_last hd, Bool.and_eq_true, Bool.and_eq_true, List.all_eq_true, List.all_eq_true] at hlast
  obtain ⟨⟨-, hown⟩, hparts⟩ := hlast
  rw [List.filter_eq_self]
  intro e he
  rcases mem_contributions.1 he with he | he
  · obtain ⟨c, hc, rfl⟩ := List.mem_map.1 he
    exact hown c hc
  · obtain ⟨k, hk, rfl⟩ := mem_parts.1 he
    exact hparts k hk

/-- A node has its criterion when all places are done and the class it cascades into is linked. -/
theorem finished_eq_ok (hd : Order.DownClosed d) (hlast : d n.last = true) {s : ShapedCriterion} :
    n.finished link = .ok s ↔ ∃ u, n.unit link d = .ok u ∧
      ∃ u', u.pushAll (n.linked link) = .ok u' ∧ u'.simplify = s := by
  rw [finished_eq, ShapedCriteria.combine_eq_ok, unit, filter_contributions hd hlast]
  simp only [ShapedCriteria.pushAll_append_eq_ok]
  constructor
  · rintro ⟨u', ⟨u, hu, hlinked⟩, hs⟩
    exact ⟨u, hu, u', hlinked, hs⟩
  · rintro ⟨u, hu, u', hlinked, hs⟩
    exact ⟨u', ⟨u, hu, hlinked⟩, hs⟩

/-- A node that collects everything in the end has collected something at any time before. -/
theorem unit_of_all {u : ShapedCriteria} (h : n.unit link (fun _ => true) = .ok u)
    (hd : Order.DownClosed d) : ∃ u, n.unit link d = .ok u := by
  rw [unit, List.filter_true, ← Order.filter_append_filter (sorted_contributions link n) hd,
    List.map_append] at h
  obtain ⟨u₀, hu₀, -⟩ := ShapedCriteria.pushAll_append_eq_ok.1 h
  exact ⟨u₀, hu₀⟩

theorem unit_of_finished {s : ShapedCriterion} (h : n.finished link = .ok s)
    (hd : Order.DownClosed d) : ∃ u, n.unit link d = .ok u := by
  obtain ⟨u, hu, -⟩ := (finished_eq_ok (fun _ _ _ _ => rfl) rfl).1 h
  exact unit_of_all hu hd

/-- **Every node of a tree with a criterion has one.** -/
theorem finished_of_mem_nodes {s : ShapedCriterion} (h : n.finished link = .ok s) :
    ∀ m ∈ n.nodes, ∃ s, m.finished link = .ok s := by
  induction n using Node.induction generalizing s with
  | _ n ih =>
    intro m hm
    rcases mem_nodes.1 hm with rfl | ⟨k, hk, hm⟩
    · exact ⟨s, h⟩
    rw [finished_eq, ShapedCriteria.combine_eq_ok] at h
    obtain ⟨u, hu, -⟩ := h
    have hpart : part link k ∈ n.contributions link :=
      mem_contributions.2 (.inr (mem_parts.2 ⟨k, hk, rfl⟩))
    obtain ⟨w, hw⟩ := ShapedCriteria.made_of_pushAll hu _
      (List.mem_append_left _ (List.mem_map_of_mem hpart))
    obtain ⟨t, ht, -⟩ := part_eq_ok.1 hw
    exact ih k hk ht m hm

end Node

end Validation
