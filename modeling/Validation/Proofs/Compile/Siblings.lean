import Mathlib
import Validation.Catalog.Builtin
import Validation.Proofs.Build
import Validation.Proofs.Compile.Refinement
import Validation.Proofs.Compile.Schedule

/-!
# The latest declared sibling is checked first

Parts that are finished in one bucket are added to the node above in the order of a sweep from the
last slot to the first. So where no constraint has a place of its own, an object's properties are
checked from the last to the first, and the values of a map before its keys.

* `validate_of_unordered`: the trial of a node without places.
* `validate_class`, `validate_map`: the trials of a class and of a map type.
-/

namespace Validation

open Constraint (Deferred)

namespace Node

/-- No constraint of the tree has a place in the order of checks. -/
def Unordered (n : Node) : Prop := ∀ m ∈ n.nodes, ∀ c ∈ m.constraints, c.order = none

/-- The trial of the constraints of a node itself. -/
def ownTrial (n : Node) (v : Value) : Trial Verdict :=
  Trial.first (fun c => trialOf (fun _ => c.process n.position) v) n.constraints

/-- The trial of a child on a value of the node above. -/
def childTrial (link : Linker) (k : Child Node) (v : Value) : Trial Verdict :=
  trialOf (part link k).2 v

/-- The trial of the class that a node cascades into. -/
def cascadeTrial (link : Linker) (n : Node) (v : Value) : Trial Verdict :=
  Trial.first (trialOf · v) (n.linked link)

variable {link : Linker} {n : Node}

theorem Unordered.last (h : n.Unordered) : n.last = none := by
  rcases last_mem n with hnone | ⟨m, hm, c, hc, hlast⟩
  · exact hnone
  · rw [← hlast, h m hm c hc]

theorem Unordered.child (h : n.Unordered) {k : Child Node} (hk : k ∈ n.children) :
    k.node.Unordered := fun m hm => h m (mem_nodes.2 (.inr ⟨k, hk, hm⟩))

/-- Without places a node collects its own constraints and then its parts. -/
theorem Unordered.contributions (h : n.Unordered) :
    n.contributions link = n.own ++ parts link n.children := by
  have hplace : ∀ e ∈ n.own ++ parts link n.children, e.1 = none := by
    intro e he
    rcases List.mem_append.1 he with he | he
    · obtain ⟨c, hc, rfl⟩ := List.mem_map.1 he
      exact h n (mem_nodes_self n) c hc
    · obtain ⟨k, hk, rfl⟩ := mem_parts.1 he
      exact (h.child hk).last
  rw [Node.contributions, Order.sort]
  refine List.mergeSort_of_pairwise (List.pairwise_of_forall_mem_list fun a ha b hb => ?_)
  rw [hplace a ha, Order.none_le]

/-- **Without places the parts run from the latest declared to the first.** -/
theorem validate_of_unordered {s : ShapedCriterion} (h : n.finished link = .ok s)
    (hn : n.Unordered) (v : Value) :
    s.lift.validate v = (n.ownTrial v).andThen fun _ =>
      (Trial.first (childTrial link · v) n.children.reverse).andThen fun _ =>
        n.cascadeTrial link v := by
  have hown : Trial.first (trialOf · v) (n.own.map (·.2)) = n.ownTrial v := by
    rw [own, List.map_map, Trial.first_map]
    rfl
  have hparts : Trial.first (trialOf · v) ((parts link n.children).map (·.2)) =
      Trial.first (childTrial link · v) n.children.reverse := by
    rw [parts_eq, ← List.map_reverse, List.map_map, Trial.first_map]
    rfl
  rw [validate_finished h, hn.contributions, List.map_append, List.append_assoc, Trial.first_append,
    Trial.first_append, hown, hparts]
  rfl

theorem finished_of_isEmpty (h : n.isEmpty = true) :
    n.finished link = .ok (.truth n.type.shape) := by
  obtain ⟨location, type, constraints, cascade, children⟩ := n
  simp only [isEmpty, Bool.and_eq_true, List.isEmpty_iff, Option.isNone_iff_eq_none] at h
  obtain ⟨⟨rfl, rfl⟩, rfl⟩ := h
  have hnone : (⟨location, type, [], none, []⟩ : Node).contributions link = [] := by
    simp [contributions, own, parts, Order.sort]
  refine finished_eq_ok_iff.2 ⟨[], ?_, rfl⟩
  rw [hnone]
  exact .nil

/-- A node with nothing to check adds nothing to the node above. -/
theorem childTrial_of_isEmpty {w : Wrapper} {m : Node} (hm : m.isEmpty = true) (v : Value) :
    childTrial link ⟨w, m⟩ v = .pass := by
  rw [childTrial, trialOf, part]
  simp only [finished_of_isEmpty hm, ok_bind]
  rw [Wrapper.wrap]
  split
  case h_1 s hs =>
    obtain ⟨c, hc, hs⟩ := bind_eq_ok.1 hs
    split at hc
    · cases hc
      rw [← pure_eq_ok.1 hs]
      rfl
    · cases hc
  case h_2 => rfl

theorem first_keep (w : Wrapper) (m : Node) (v : Value) :
    Trial.first (childTrial link · v) (Analyser.keep w m) = childTrial link ⟨w, m⟩ v := by
  unfold Analyser.keep
  split_ifs with hm
  · rw [childTrial_of_isEmpty hm]
    rfl
  · rw [Trial.first, Trial.first, Trial.andThen_pass]

theorem keep_reverse (w : Wrapper) (m : Node) :
    (Analyser.keep w m).reverse = Analyser.keep w m := by
  unfold Analyser.keep
  split_ifs <;> rfl

/-- A failure of a property's value is reported at the property. -/
theorem childTrial_property (link : Linker) (accessor : Accessor) (m : Node)
    (className : String) (fields : List (String × Value)) :
    ∃ t : Trial Verdict, childTrial link ⟨.property accessor, m⟩ (.object className fields) =
      t.mapFailure (·.within (.property accessor.name)) := by
  unfold childTrial trialOf
  split
  case h_2 => exact ⟨Trial.pass, rfl⟩
  case h_1 s hs =>
    obtain ⟨t, -, c, hc, rfl⟩ := part_eq_ok.1 hs
    obtain ⟨-, rfl⟩ := Wrapper.wrap_eq_ok.1 hc
    split_ifs
    · exact ⟨Trial.pass, rfl⟩
    · exact ⟨_, rfl⟩

end Node

section Class

variable {link : Linker} {a : Analyser} {cache cache' : ConstraintCache} {n : Node}
  {c : Criterion.On Value}

/-- The trial of an effective property on an object. -/
def propertyTrial (link : Linker) (p : Property × Node) (v : Value) : Trial Verdict :=
  Node.childTrial link ⟨.property p.1.accessor, p.2⟩ v

/-- **A class without places** checks an object by its own constraints and then by the effective
properties, from the last to the first. -/
theorem validate_class {schema : ClassSchema} {members : List (Property × Node)}
    (hbuild : a.BuildsClass schema n members) (hn : n.Unordered) (hc : compile link n = .ok c)
    (v : Value) :
    c.validate v = (n.ownTrial v).andThen fun _ =>
      Trial.first (propertyTrial link · v) members.reverse := by
  obtain ⟨s, hs, rfl⟩ := compile_eq_ok_iff.1 hc
  obtain ⟨⟨_, _, hgives⟩, -, hchildren⟩ := hbuild
  have hcascade : n.cascadeTrial link v = .pass := by
    obtain ⟨_, _, _, -, -, rfl⟩ := Analyser.buildClass_gives.1 hgives
    rfl
  have hparts : ∀ p : Property × Node,
      Trial.first (Node.childTrial link · v) (Analyser.keep (.property p.1.accessor) p.2).reverse =
        propertyTrial link p v := by
    intro p
    rw [Node.keep_reverse, Node.first_keep]
    rfl
  rw [Node.validate_of_unordered hs hn, hchildren, List.reverse_flatMap, Trial.first_flatMap,
    hcascade]
  simp only [Function.comp_apply, hparts, Trial.andThen_pass]

/-- A failure of an effective property has the property's name at the head of its path. -/
theorem head_path_of_propertyTrial {answer : String → Value → Verdict} {p : Property × Node}
    {className : String} {fields : List (String × Value)} {f : Failure}
    (h : (propertyTrial link p (.object className fields)).verdict answer = .error f) :
    f.path.head? = some (.property p.1.name) := by
  obtain ⟨t, ht⟩ := Node.childTrial_property link p.1.accessor p.2 className fields
  rw [propertyTrial, ht, Trial.verdict_mapFailure] at h
  cases hv : t.verdict answer with
  | ok => rw [hv] at h; cases h
  | error g => rw [hv] at h; cases h; rfl

/-- **The failure of a property is the one that is reported** exactly when all properties declared
after it pass. -/
theorem reported_property_iff {schema : ClassSchema} {pre post : List (Property × Node)}
    {p : Property × Node} (hbuild : a.BuildsClass schema n (pre ++ p :: post)) (hn : n.Unordered)
    (hc : compile link n = .ok c) {answer : String → Value → Verdict} {className : String}
    {fields : List (String × Value)} {f : Failure}
    (hown : (n.ownTrial (.object className fields)).verdict answer = .ok ())
    (hp : (propertyTrial link p (.object className fields)).verdict answer = .error f) :
    (∃ g, (c.validate (.object className fields)).verdict answer = .error g ∧
        g.path.head? = some (.property p.1.name)) ↔
      ∀ q ∈ post, (propertyTrial link q (.object className fields)).verdict answer = .ok () := by
  have hreverse : (pre ++ p :: post).reverse = post.reverse ++ p :: pre.reverse := by simp
  rw [validate_class hbuild hn hc, Trial.verdict_andThen, hown, hreverse]
  constructor
  · rintro ⟨g, hg, hhead⟩
    obtain ⟨passed, q, rest, hsplit, hpassed, hq⟩ := Trial.verdict_first_error.1 hg
    have hname : q.1.name = p.1.name := by
      have h := (head_path_of_propertyTrial hq).symm.trans hhead
      exact Step.property.inj (Option.some.inj h)
    -- one property has the name, so what has passed are the properties declared after it
    have hnodup : ((post.reverse ++ p :: pre.reverse).map (·.1.name)).Nodup := by
      rw [← hreverse, List.map_reverse, List.nodup_reverse]
      have hnames := schema.nodup_effectiveProperties a.config.propertySource
      rwa [← hbuild.2.1, List.map_map] at hnames
    have hpq : q = p :=
      List.inj_on_of_nodup_map hnodup (by rw [hsplit]; simp) (by simp) hname
    subst hpq
    rw [hsplit] at hnodup
    have hmem := hnodup.of_map
    have hnot : q ∉ passed ∧ q ∉ rest := by
      rw [List.nodup_append, List.nodup_cons] at hmem
      exact ⟨fun h => hmem.2.2 q h q List.mem_cons_self rfl, hmem.2.1.1⟩
    obtain ⟨hpost, -, -⟩ := (List.append_cons_inj_of_notMem hnot.1 hnot.2).1 hsplit.symm
    intro b hb
    exact hpassed b (hpost ▸ List.mem_reverse.2 hb)
  · intro hpost
    exact ⟨f, Trial.verdict_first_error.2 ⟨_, p, _, rfl, fun b hb => hpost b (List.mem_reverse.1 hb),
      hp⟩, head_path_of_propertyTrial hp⟩

/-- **A map type without places** checks the values over the whole map before the keys. -/
theorem validate_map {location : Location} {key value : AnnotatedType}
    {annotations : List Annotation}
    (hbuild : Gives (a.build location ⟨.map key value, annotations⟩) cache n cache')
    (hn : n.Unordered) (hc : compile link n = .ok c) :
    ∃ k m others, n.children =
        others ++ Analyser.keep .mapKey k ++ Analyser.keep .mapValue m ∧
      ∀ v, c.validate v = (n.ownTrial v).andThen fun _ =>
        (Node.childTrial link ⟨.mapValue, m⟩ v).andThen fun _ =>
          (Node.childTrial link ⟨.mapKey, k⟩ v).andThen fun _ =>
            (Trial.first (Node.childTrial link · v) others.reverse).andThen fun _ =>
              n.cascadeTrial link v := by
  obtain ⟨s, hs, rfl⟩ := compile_eq_ok_iff.1 hc
  obtain ⟨-, placed, _, cascade, nested, -, hnested, -, hnode⟩ := Analyser.build_gives hbuild
  obtain ⟨k, m, _, -, -, rfl⟩ := Analyser.buildNested_map_gives hnested
  have hchildren : n.children = placed.groups.map (Analyser.extractedChild location) ++
      Analyser.keep .mapKey k ++ Analyser.keep .mapValue m := by
    rw [hnode, List.append_assoc]
  refine ⟨k, m, _, hchildren, fun v => ?_⟩
  -- the children run in reverse, so the values come before the keys
  rw [Node.validate_of_unordered hs hn, hchildren, List.reverse_append, List.reverse_append,
    Node.keep_reverse, Node.keep_reverse, Trial.first_append, Trial.first_append, Node.first_keep,
    Node.first_keep]
  simp only [Trial.andThen_assoc]

end Class

/-- **Siblings of one bucket run from the latest declared to the first.** At every node of a tree the
checks of one child run before those of a child declared after it exactly when its last place is
earlier. So of the failing properties of an object of a class without places one is reported exactly
if all properties declared after it pass, and a map without places has its values checked before its
keys. -/
theorem siblings_run_latest_declared_first {link : Linker} {n : Node} {c : Criterion.On Value}
    (hc : compile link n = .ok c) :
    (∀ m ∈ n.nodes, ∃ s, m.finished link = .ok s ∧
      (∀ v, s.lift.validate v =
        (Trial.first (fun t => trialOf (m.turnOf link t) v) m.schedule).andThen fun _ =>
          m.cascadeTrial link v) ∧
      ∀ i j, i < j → ∀ hj : j < m.children.length, ∀ hi : i < m.children.length,
        (m.schedule.idxOf (.part i) < m.schedule.idxOf (.part j) ↔
          Order.before m.children[j].node.last m.children[i].node.last = true)) ∧
    (∀ (a : Analyser) (schema : ClassSchema) (pre : List (Property × Node)) (p : Property × Node)
        (post : List (Property × Node)),
      a.BuildsClass schema n (pre ++ p :: post) → n.Unordered →
      ∀ (answer : String → Value → Verdict) (className : String) (fields : List (String × Value))
        (f : Failure),
        (n.ownTrial (.object className fields)).verdict answer = .ok () →
        (propertyTrial link p (.object className fields)).verdict answer = .error f →
        ((∃ g, (c.validate (.object className fields)).verdict answer = .error g ∧
            g.path.head? = some (.property p.1.name)) ↔
          ∀ q ∈ post,
            (propertyTrial link q (.object className fields)).verdict answer = .ok ())) ∧
    (∀ (a : Analyser) (location : Location) (key value : AnnotatedType)
        (annotations : List Annotation) (cache cache' : ConstraintCache),
      Gives (a.build location ⟨.map key value, annotations⟩) cache n cache' → n.Unordered →
      ∃ k m others, n.children =
          others ++ Analyser.keep .mapKey k ++ Analyser.keep .mapValue m ∧
        ∀ v, c.validate v = (n.ownTrial v).andThen fun _ =>
          (Node.childTrial link ⟨.mapValue, m⟩ v).andThen fun _ =>
            (Node.childTrial link ⟨.mapKey, k⟩ v).andThen fun _ =>
              (Trial.first (Node.childTrial link · v) others.reverse).andThen fun _ =>
                n.cascadeTrial link v) := by
  refine ⟨?_, ?_, ?_⟩
  · intro m hm
    obtain ⟨s₀, hs₀, -⟩ := compile_eq_ok_iff.1 hc
    obtain ⟨s, hs⟩ := Node.finished_of_mem_nodes hs₀ m hm
    exact ⟨s, hs, Node.validate_schedule hs, fun i j hij hj _ => Node.idxOf_part_lt hij hj⟩
  · intro a schema pre p post hbuild hn answer className fields f hown hp
    exact reported_property_iff hbuild hn hc hown hp
  · intro a location key value annotations cache cache' hbuild hn
    exact validate_map hbuild hn hc

namespace Pair

/-- A text that must not be null. -/
def presentText : AnnotatedType := ⟨.text, [.constraint ⟨"not_null", .empty⟩]⟩

/-- A class of two texts that must not be null. -/
def schema : ClassSchema :=
  ⟨"Pair", [], [⟨"left", presentText, none⟩, ⟨"right", presentText, none⟩]⟩

/-- The analyser of an engine with that class alone. -/
def analyser : Analyser := ⟨{}, .builtin, Extractor.defaults, [schema.name]⟩

/-- The node of a text that must not be null. -/
def node (location : Location) : Node :=
  ⟨location, .text, [.assemble Builtin.notNull .empty []], none, []⟩

/-- The node of a property of the class. -/
def member (name : String) : Property × Node :=
  (⟨name, presentText, none⟩, node ⟨"Pair", [.property name]⟩)

/-- The tree of the class. -/
def tree : Node :=
  ⟨.ofRoot "Pair", .classOf "Pair", [], none,
    [⟨.property ⟨"left", none⟩, (member "left").2⟩, ⟨.property ⟨"right", none⟩, (member "right").2⟩]⟩

/-- The type of maps between such texts. -/
def mapType : AnnotatedType := ⟨.map presentText presentText, []⟩

/-- The tree of the map type. -/
def mapTree : Node :=
  ⟨.ofRoot "Map", mapType.type, [], none,
    [⟨.mapKey, node ⟨"Map", [.mapKey]⟩⟩, ⟨.mapValue, node ⟨"Map", [.mapValue]⟩⟩]⟩

/-- Where a failure is reported when a new engine with the class validates an object of it. -/
def reportedAt (fields : List (String × Value)) : Option String :=
  match Engine.build {} .builtin [] [] [schema] with
  | .error _ => none
  | .ok e =>
    match (Engine.validator (.ofClass "Pair")).run e with
    | (.error _, _) => none
    | (.ok validator, e) =>
      match e.evaluate 1 validator.criterion (.object "Pair" fields) with
      | some (.error f, _) => some (Failure.pathText f.path)
      | _ => none

end Pair

/-- The class and the map type of two texts, neither of them with a text. -/
theorem siblings_of_pair :
    (∃ c, compile Engine.linked Pair.tree = .ok c ∧
      (Pair.tree.schedule.idxOf (.part 0) < Pair.tree.schedule.idxOf (.part 1) ↔
        Order.before none none = true) ∧
      ∃ g, (c.validate (.object "Pair" [])).verdict Engine.detached = .error g ∧
        g.path.head? = some (.property "right")) ∧
    ∃ c, compile Engine.linked Pair.mapTree = .ok c ∧
      ∃ k m others, Pair.mapTree.children =
          others ++ Analyser.keep .mapKey k ++ Analyser.keep .mapValue m ∧
        ∀ v, c.validate v = (Pair.mapTree.ownTrial v).andThen fun _ =>
          (Node.childTrial Engine.linked ⟨.mapValue, m⟩ v).andThen fun _ =>
            (Node.childTrial Engine.linked ⟨.mapKey, k⟩ v).andThen fun _ =>
              (Trial.first (Node.childTrial Engine.linked · v) others.reverse).andThen fun _ =>
                Pair.mapTree.cascadeTrial Engine.linked v := by
  have hunordered : Pair.tree.Unordered ∧ Pair.mapTree.Unordered := by
    constructor <;>
      simp [Node.Unordered, Pair.tree, Pair.mapTree, Pair.member, Pair.node, Node.nodes,
        Node.nodesOf] <;> rfl
  have hcompiles : ∀ {n : Node}, (compile Engine.linked n).toOption.isSome = true →
      ∃ c, compile Engine.linked n = .ok c := by
    intro n h
    cases hc : compile Engine.linked n with
    | ok c => exact ⟨c, rfl⟩
    | error e => rw [hc] at h; cases h
  constructor
  · obtain ⟨c, hc⟩ := hcompiles (n := Pair.tree) (by cbv)
    refine ⟨c, hc, ?_, ?_⟩
    · obtain ⟨s, -, -, hpart⟩ := (siblings_run_latest_declared_first hc).1 Pair.tree
        (Node.mem_nodes_self _)
      exact hpart 0 1 (by decide) (by decide) (by decide)
    · have hbuild : Pair.analyser.BuildsClass Pair.schema Pair.tree
          ([Pair.member "left"] ++ Pair.member "right" :: []) := ⟨⟨.empty, _, rfl⟩, rfl, rfl⟩
      exact ((siblings_run_latest_declared_first hc).2.1 Pair.analyser Pair.schema
        [Pair.member "left"] (Pair.member "right") [] hbuild hunordered.1 Engine.detached "Pair" []
        ⟨"not_null", "must not be null", [], .null, [.property "right"]⟩ rfl (by cbv)).2 (by simp)
  · obtain ⟨c, hc⟩ := hcompiles (n := Pair.mapTree) (by cbv)
    exact ⟨c, hc, (siblings_run_latest_declared_first hc).2.2 Pair.analyser (.ofRoot "Map")
      Pair.presentText Pair.presentText [] .empty _ rfl hunordered.2⟩

/-- Where both texts are null the one declared last is reported, although the one declared first
fails as well. -/
theorem right_is_reported_before_left :
    Pair.reportedAt [("right", .text "r")] = some "left" ∧ Pair.reportedAt [] = some "right" := by
  constructor <;> cbv

end Validation
