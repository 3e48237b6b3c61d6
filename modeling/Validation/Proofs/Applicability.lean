import Validation.Proofs.Compile.Errors
import Validation.Proofs.Delivery
import Validation.Proofs.Engine.History

/-!
# Trees of standard kinds compile

The builder puts a constraint where its kind applies, or where it applies to what an extractor leads
to, and the compiler makes a criterion of it there, wraps it and pushes it. For the standard kinds and
the default extractors the two agree: what is built compiles, unless the value of an attribute is bad.
Two things are left out, for which it does not hold. The constraints of a class itself are put on its
tree without a look at where they apply. And where a scalar type is written as the element of a
collection, as a key or value of a map or as the content of an optional, its criteria test scalars,
which the wrappers of these do not support.

* `DeclaredType.holdsReferences`: no scalar type is written in such a place.
* `Analyser.applies_of_built`: the constraints of a tree apply where they are.
* `Analyser.fits_of_laid`: the nodes of a tree fit.
* `built_trees_compile`: the trees of an engine compile, unless the value of an attribute is bad.
-/

namespace Validation

open AnalysisError (IsBadValue)

/-- **Whether the types that are written in the type are those of references**, where the members of a
container are: the elements of an array may be scalars. -/
def DeclaredType.holdsReferences : DeclaredType → Bool
  | array ⟨element, _⟩ => element.holdsReferences
  | collection _ ⟨element, _⟩ => element.isReference && element.holdsReferences
  | map ⟨key, _⟩ ⟨value, _⟩ =>
    key.isReference && key.holdsReferences && value.isReference && value.holdsReferences
  | optional ⟨content, _⟩ => content.isReference && content.holdsReferences
  | _ => true

namespace DeclaredType

theorem holdsReferences_array {element : AnnotatedType} :
    (array element).holdsReferences = element.type.holdsReferences := by
  obtain ⟨type, annotations⟩ := element
  rw [holdsReferences]

theorem holdsReferences_collection {kind : CollectionKind} {element : AnnotatedType} :
    (collection kind element).holdsReferences = true ↔
      element.type.isReference = true ∧ element.type.holdsReferences = true := by
  obtain ⟨type, annotations⟩ := element
  rw [holdsReferences, Bool.and_eq_true]

theorem holdsReferences_map {key value : AnnotatedType} :
    (map key value).holdsReferences = true ↔
      (key.type.isReference = true ∧ key.type.holdsReferences = true) ∧
        value.type.isReference = true ∧ value.type.holdsReferences = true := by
  obtain ⟨type, annotations⟩ := key
  obtain ⟨type', annotations'⟩ := value
  simp only [holdsReferences, Bool.and_eq_true, and_assoc]

theorem holdsReferences_optional {content : AnnotatedType} :
    (optional content).holdsReferences = true ↔
      content.type.isReference = true ∧ content.type.holdsReferences = true := by
  obtain ⟨type, annotations⟩ := content
  rw [holdsReferences, Bool.and_eq_true]

end DeclaredType

namespace Analyser

variable {a : Analyser} {P : Constraint → Prop} {declares : String → Property → Prop} {link : Linker}

theorem applies_of_extractorFor? {kind : Kind} {type : DeclaredType} {index : Nat}
    {extractor : Extractor} {held : DeclaredType}
    (h : a.extractorFor? kind type = some (index, extractor, held)) : kind.applies held = true := by
  obtain ⟨⟨x, i⟩, -, hx⟩ := List.exists_of_findSome?_eq_some h
  obtain ⟨found, hfound, heq⟩ := Option.map_eq_some_iff.1 hx
  cases heq
  exact (Option.filter_eq_some_iff.1 hfound).2

/-- **The constraints of a tree apply where they are.** -/
theorem applies_of_built {t : AnnotatedType} : ∀ {location : Location} {n : Node},
    a.Built P t location n → ∀ m ∈ n.nodes, ∀ c ∈ m.constraints, c.kind.applies m.type = true := by
  induction t using AnnotatedType.induction with
  | h t ih =>
    intro location n h
    obtain ⟨placed, cascade, nested, hplaced, -, hnested, rfl⟩ := built_iff.1 h
    have hbelow : ∀ k ∈ nested, ∀ m ∈ k.node.nodes, ∀ c ∈ m.constraints,
        c.kind.applies m.type = true := hnested.forall_mem fun p hp n hn => ih p hp hn
    intro m hm
    rcases Node.mem_nodes.1 hm with rfl | ⟨k, hk, hm⟩
    · exact fun c hc => (hplaced.own c hc).1
    rcases List.mem_append.1 hk with hk | hk
    · obtain ⟨g, hg, rfl⟩ := List.mem_map.1 hk
      rcases Node.mem_nodes.1 hm with rfl | ⟨k, hk, -⟩
      · exact fun c hc => applies_of_extractorFor? ((hplaced.grouped g hg).2 c hc).2.1
      · cases hk
    · exact hbelow k hk m hm

/-- **What a wrapper joins**: a part is below a reference, and of a shape that the wrapper supports. -/
theorem Joins.supports {w : Wrapper} {type held : DeclaredType} (h : a.Joins declares w type held)
    (hextractors : a.extractors = Extractor.defaults)
    (hdeclares : ∀ name p, declares name p → p.type.type.holdsReferences = true)
    (htype : type.holdsReferences = true) :
    type.shape = .reference ∧ w.supports held.shape = true ∧ held.holdsReferences = true := by
  have hshape : ∀ {type : DeclaredType}, type.isReference = true →
      (type.shape == .reference) = true :=
    fun h => beq_iff_eq.2 (Builtin.shape_of_isReference h)
  cases h with
  | property hp => exact ⟨rfl, rfl, hdeclares _ _ hp⟩
  | arrayElement =>
    rw [DeclaredType.holdsReferences_array] at htype
    exact ⟨rfl, rfl, htype⟩
  | iterableElement =>
    obtain ⟨hreference, hholds⟩ := DeclaredType.holdsReferences_collection.1 htype
    exact ⟨rfl, hshape hreference, hholds⟩
  | mapKey =>
    obtain ⟨⟨hreference, hholds⟩, -⟩ := DeclaredType.holdsReferences_map.1 htype
    exact ⟨rfl, hshape hreference, hholds⟩
  | mapValue =>
    obtain ⟨-, hreference, hholds⟩ := DeclaredType.holdsReferences_map.1 htype
    exact ⟨rfl, hshape hreference, hholds⟩
  | optionalValue =>
    obtain ⟨hreference, hholds⟩ := DeclaredType.holdsReferences_optional.1 htype
    exact ⟨rfl, hshape hreference, hholds⟩
  | extracted hmem hheld =>
    rw [hextractors, Extractor.defaults, List.mem_cons, List.mem_singleton] at hmem
    -- out of an optional scalar comes a scalar, and out of another optional its content
    rcases hmem with rfl | rfl
    · cases type <;> cases hheld
      exact ⟨rfl, rfl, rfl⟩
    · cases type <;> cases hheld
      exact ⟨rfl, rfl, (DeclaredType.holdsReferences_optional.1 htype).2⟩

/-- The types at the nodes of a tree hold references if the type of its root does. -/
theorem holdsReferences_of_laid (hextractors : a.extractors = Extractor.defaults)
    (hdeclares : ∀ name p, declares name p → p.type.type.holdsReferences = true) {n : Node}
    (hlaid : ∀ m ∈ n.nodes, a.Laid P declares m) (hn : n.type.holdsReferences = true) :
    ∀ m ∈ n.nodes, m.type.holdsReferences = true := by
  induction n using Node.induction with
  | h n ih =>
    intro m hm
    rcases Node.mem_nodes.1 hm with rfl | ⟨k, hk, hm⟩
    · exact hn
    · have hjoins := (hlaid n (Node.mem_nodes_self n)).child k hk
      obtain ⟨-, -, hheld⟩ := hjoins.supports hextractors hdeclares hn
      exact ih k hk (fun m hm => hlaid m (Node.mem_nodes.2 (.inr ⟨k, hk, hm⟩))) hheld m hm

/-- The constraints of the tree of a class apply where they are if none is of the class itself. -/
theorem applies_of_builtClass {schema : ClassSchema} (hnone : schema.declarations = []) {n : Node}
    (h : a.BuiltClass P schema n) :
    ∀ m ∈ n.nodes, ∀ c ∈ m.constraints, c.kind.applies m.type = true := by
  obtain ⟨constraints, children, hown, hchildren, rfl⟩ := builtClass_iff.1 h
  rw [hnone, List.forall₂_nil_left_iff] at hown
  have hbelow : ∀ k ∈ children, ∀ m ∈ k.node.nodes, ∀ c ∈ m.constraints,
      c.kind.applies m.type = true := hchildren.forall_mem fun p _ n hn => applies_of_built hn
  intro m hm
  rcases Node.mem_nodes.1 hm with rfl | ⟨k, hk, hm⟩
  · rw [hown]
    exact nofun
  · exact hbelow k hk m hm

/-- **The nodes of a tree fit** if its constraints apply where they are and deliver there. -/
theorem fits_of_laid (hextractors : a.extractors = Extractor.defaults)
    (hdeclares : ∀ name p, declares name p → p.type.type.holdsReferences = true)
    (hlink : ∀ name, (link name).isOk = true) {n : Node}
    (hlaid : ∀ m ∈ n.nodes, a.Laid Constraint.Delivers declares m)
    (hn : n.type.holdsReferences = true)
    (happlies : ∀ m ∈ n.nodes, ∀ c ∈ m.constraints, c.kind.applies m.type = true) :
    ∀ m ∈ n.nodes, m.Fits IsBadValue link := by
  intro m hm
  have hholds := holdsReferences_of_laid hextractors hdeclares hlaid hn m hm
  refine ⟨fun c hc e he => ?_, fun name hname => ?_, fun k hk => ?_⟩
  · obtain ⟨d, kind, -, hdelivers, -⟩ := (hlaid m hm).own c hc
    exact (hdelivers.process m.position (happlies m hm c hc)).of_error he
  · obtain ⟨htype, -⟩ := (hlaid m hm).cascade name hname
    refine ⟨by rw [htype]; rfl, fun e he => ?_⟩
    obtain ⟨c, hc⟩ := exists_of_isOk (hlink name)
    rw [hc] at he
    cases he
  · obtain ⟨hshape, hsupports, -⟩ := ((hlaid m hm).child k hk).supports hextractors hdeclares hholds
    exact ⟨hshape, hsupports⟩

end Analyser

/-- **What a root is declared with.** The types that are written in its type are those of references.
For a class that goes for its properties, and there are no constraints of the class itself. -/
def Engine.HoldsReferences (e : Engine) : Root → Prop
  | .ofType type => type.type.holdsReferences = true
  | .ofClass name => ∀ schema, e.schema? name = some schema →
      schema.declarations = [] ∧ ∀ p ∈ schema.properties, p.type.type.holdsReferences = true

/-- **The nodes of a tree that an engine holds fit.** -/
theorem Engine.Orderly.fits {e : Engine} {root : Root} {t : Node} {link : Linker}
    (he : Orderly Constraint.Delivers Catalog.IsStandard e)
    (hextractors : e.extractors = Extractor.defaults) (ht : e.trees.lookup root = some t)
    (hroot : e.HoldsReferences root) (hlink : ∀ name, (link name).isOk = true) :
    ∀ m ∈ t.nodes, m.Fits IsBadValue link := by
  obtain ⟨names, -, hbuilt⟩ := he.isBuilt delivers_assemble ht
  cases root with
  | ofType type =>
    -- the tree of a type has no properties in it
    have hlaid : ∀ m ∈ t.nodes,
        (e.analyserOf names).Laid Constraint.Delivers (fun _ _ => False) m :=
      Analyser.laid_of_built hbuilt
    have htype : t.type.holdsReferences = true := by
      rw [Analyser.type_of_built hbuilt]
      exact hroot
    exact Analyser.fits_of_laid (a := e.analyserOf names) hextractors nofun hlink hlaid htype
      (Analyser.applies_of_built hbuilt)
  | ofClass name =>
    obtain ⟨schema, hschema, hbuilt⟩ := hbuilt
    obtain ⟨hnone, hproperties⟩ := hroot schema hschema
    have hlaid : ∀ m ∈ t.nodes,
        (e.analyserOf names).Laid Constraint.Delivers (fun _ p => p ∈ schema.properties) m :=
      Analyser.laid_of_builtClass hbuilt fun p hp => ClassSchema.mem_of_mem_effectiveProperties hp
    have htype : t.type.holdsReferences = true := by
      obtain ⟨constraints, children, -, -, rfl⟩ := hbuilt
      rfl
    exact Analyser.fits_of_laid (a := e.analyserOf names) hextractors (fun _ p => hproperties p) hlink
      hlaid htype (Analyser.applies_of_builtClass hnone hbuilt)

open Session in
/-- **What is built compiles.** Let a tree be asked for after any history of a new engine with the
standard kinds and the default extractors: that of an annotated type or that of a class without
constraints of its own, where no scalar type is written as the element of a collection, as a key or
value of a map or as the content of an optional. Then the tree compiles with every linker that does
not fail, unless the value of an attribute is bad: no factory is missing, and no criterion is of a
shape that does not fit. -/
theorem built_trees_compile {config : Config} {classes : List ClassSchema} {e : Engine}
    (hbuild : Engine.build config .builtin [] [] classes = .ok e) (history : List Action)
    {root : Root} (hroot : ((start e).after history).engine.HoldsReferences root) {t : Node}
    {e' : Engine} (htree : Gives (Engine.tree root) ((start e).after history).engine t e')
    {link : Linker} (hlink : ∀ name, (link name).isOk = true) :
    (∃ c, compile link t = .ok c) ∨ ∃ error, compile link t = .error error ∧ error.IsBadValue := by
  obtain ⟨catalog, classes', hkinds, heq⟩ := Engine.build_eq_ok hbuild
  cases hkinds
  have hextractors : e.extractors = Extractor.defaults := by
    rw [heq]
    rfl
  have hstandard : ∀ kind ∈ e.catalog.kinds, kind.Every Catalog.IsStandard := by
    rw [heq]
    exact Catalog.standard_builtin
  obtain ⟨he, -⟩ := Engine.orderly_build (P := Constraint.Delivers) hbuild hstandard
  obtain ⟨hafter, hlater⟩ := (OrderlyBy.start he).after delivers_assemble history
  obtain ⟨hran, hlookup, -⟩ :=
    (Engine.leads_tree delivers_assemble hafter.engine root).of_gives htree
  -- making the tree has changed no class
  have hroot' : e'.HoldsReferences root := by
    cases root with
    | ofType type => exact hroot
    | ofClass name =>
      intro schema hschema
      rw [Engine.schema?, hran.classes] at hschema
      exact hroot schema hschema
  have hfits := hran.orderly.fits
    (hran.grows.extractors.trans (hlater.grows.extractors.trans hextractors)) hlookup hroot' hlink
  cases hcompile : compile link t with
  | ok c => exact .inl ⟨c, rfl⟩
  | error error => exact .inr ⟨error, rfl, error_of_compile hfits hcompile⟩

namespace Parcel

/-- Parcels with a weight that may be missing, and with notes. The sender's card is of no region that
there is. -/
def classes : List ClassSchema :=
  [⟨"Parcel", [], [⟨"weight", ⟨.optionalScalar .int, [.constraint ⟨"range", .empty⟩]⟩, none⟩,
    ⟨"notes", .plain (.collection .list ⟨.text, [.constraint ⟨"not_empty", .empty⟩]⟩), none⟩,
    ⟨"sender", ⟨.text, [.constraint ⟨"id_card", Attributes.empty.insert "region" (.text "moon")⟩]⟩,
      none⟩]⟩]

/-- A new engine with the classes. -/
def engine : Engine := ⟨{}, .builtin, Extractor.defaults, classes, .empty, [], [], []⟩

/-- The error code of compiling the tree of a root, if the tree is built. -/
def errorCode? (root : Root) : Option String :=
  match outcome (Engine.tree root) engine with
  | (.ok t, _) =>
    match compile Engine.linked t with
    | .ok _ => none
    | .error error => some error.code
  | (.error _, _) => none

end Parcel

/-- The weight is checked with an extractor, by a kind that only expands, and the notes one by one. But
there is no region of that name. -/
theorem unknown_region_is_bad_value : ∃ t e' error,
    Gives (Engine.tree (.ofClass "Parcel")) Parcel.engine t e' ∧
      t.nodes.map (·.type.render) = ["Parcel", "OptionalInt", "int", "List<String>", "String", "String"] ∧
      compile Engine.linked t = .error error ∧ error.IsBadValue ∧ error.code = "invalid_attribute" := by
  have hbuild : Engine.build {} .builtin [] [] Parcel.classes = .ok Parcel.engine := rfl
  have hcode : Parcel.errorCode? (.ofClass "Parcel") = some "invalid_attribute" := by cbv
  have htypes : (outcome (Engine.tree (.ofClass "Parcel")) Parcel.engine).1.toOption.map
      (fun t => t.nodes.map (·.type.render)) =
        some ["Parcel", "OptionalInt", "int", "List<String>", "String", "String"] := by cbv
  unfold Parcel.errorCode? at hcode
  split at hcode
  case h_2 => cases hcode
  case h_1 t e' htree =>
    rw [htree] at htypes
    have hroot : Parcel.engine.HoldsReferences (.ofClass "Parcel") := by
      intro schema hschema
      cases hschema
      exact ⟨rfl, by decide⟩
    split at hcode
    case h_1 => cases hcode
    case h_2 error herror =>
      have hlink : ∀ name, (Engine.linked name).isOk = true := fun _ => rfl
      rcases built_trees_compile hbuild [] hroot htree hlink with ⟨c, hc⟩ | ⟨error', herror', hbad⟩
      · rw [herror] at hc
        cases hc
      · rw [herror] at herror'
        cases herror'
        exact ⟨t, e', error, htree, Option.some.inj htypes, herror, hbad, Option.some.inj hcode⟩

/-- A scalar type that is written as the element of a list is built, but does not compile. -/
example : Parcel.errorCode? (.ofType (.plain (.collection .list
    ⟨.scalar .int, [.constraint ⟨"positive", .empty⟩]⟩))) = some "unsupported_shape" := by cbv

end Validation
