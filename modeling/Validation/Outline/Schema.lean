import Validation.Constraint.Basic
import Validation.Engine.Basic
import Validation.Outline.Criterion

/-!
# Outlines of definitions

Kinds, constraints, types, class schemas, wrappers and engines.
-/

namespace Validation

namespace Attribute

mutual

/-- The outline of an attribute value. -/
def outline : Attribute → String
  | bool b => Outline.tuple "Bool" [Outline.bool b]
  | int n => Outline.tuple "Int" [Outline.int n]
  | float bits => Outline.tuple "Float" [Decimal.Format.double.marked bits.toNat]
  | text s => Outline.tuple "Str" [Text.quoted s]
  | list items => Outline.tuple "List" [Outline.list (outlines items)]

/-- The outlines of attribute values. -/
def outlines : List Attribute → List String
  | [] => []
  | a :: rest => outline a :: outlines rest

end

end Attribute

/-- The outline of attributes. -/
def Attributes.outline (a : Attributes) : String :=
  Outline.tuple "Attributes" [Outline.map (a.entries.map fun (name, v) => (name, v.outline))]

/-- The outline of an attribute of a kind. -/
def AttributeSpec.outline (s : AttributeSpec) : String :=
  Outline.record "AttributeSpec"
    [("name", Text.quoted s.name), ("default", Outline.option Attribute.outline s.default)]

/-- The outline of a source. -/
def Source.outline : Source → String
  | literal value => Outline.tuple "Literal" [value.outline]
  | outer name => Outline.tuple "PassThrough" [Text.quoted name]
  | computed _ => "Computed(<fn>)"

/-- The outline of a part, given that of its kind. -/
def Part.outline (target : String) (sources : List (String × Source)) : String :=
  Outline.record "CombinedConstraint"
    [("target", target),
      ("attributes", Outline.list (sources.map fun (name, source) =>
        Outline.tuple "" [Text.quoted name, source.outline]))]

namespace Kind

mutual

/-- The outline of a kind. -/
def outline : Kind → String
  | ⟨name, order, message, attributes, factories, parts⟩ =>
    Outline.record "ConstraintMetadata"
      [("name", Text.quoted name), ("order", Outline.option Outline.int order),
        ("message", Outline.option Text.quoted message),
        ("attributes", Outline.list (attributes.map AttributeSpec.outline)),
        ("factories", toString factories.length), ("combined", Outline.list (partOutlines parts))]

/-- The outlines of parts. -/
def partOutlines : List (Part Kind) → List String
  | [] => []
  | ⟨target, sources⟩ :: rest => Part.outline (outline target) sources :: partOutlines rest

end

end Kind

namespace Constraint

mutual

/-- The outline of a constraint. -/
def outline : Constraint → String
  | ⟨kind, attributes, order, message, parts⟩ =>
    Outline.record "Constraint"
      [("kind", Text.quoted kind.name), ("attributes", attributes.outline),
        ("order", Outline.option Outline.int order),
        ("message", Outline.option Text.quoted message),
        ("combined", Outline.list (outlines parts))]

/-- The outlines of constraints. -/
def outlines : List Constraint → List String
  | [] => []
  | c :: rest => outline c :: outlines rest

end

end Constraint

/-- The outline of a declaration. -/
def Declaration.outline (d : Declaration) : String :=
  Outline.record "ConstraintDeclaration"
    [("kind", Text.quoted d.kind), ("attributes", d.attributes.outline)]

/-- The outline of an annotation. -/
def Annotation.outline : Annotation → String
  | constraint d => Outline.tuple "Constraint" [d.outline]
  | constraints ds => Outline.tuple "ConstraintList" [Outline.list (ds.map Declaration.outline)]
  | cascade => "Cascade"
  | other name => Outline.tuple "Other" [Text.quoted name]

/-- The outline of an annotated type, given that of its type. -/
def AnnotatedType.outlineOf (type : String) (annotations : List Annotation) : String :=
  Outline.record "AnnotatedType"
    [("ty", type), ("annotations", Outline.list (annotations.map Annotation.outline))]

/-- The outline of a declared type. -/
def DeclaredType.outline : DeclaredType → String
  | scalar kind => Outline.tuple "Primitive" [kind.outline]
  | boxed kind => Outline.tuple "Boxed" [kind.outline]
  | text => "String"
  | array ⟨element, anns⟩ => Outline.tuple "Array" [AnnotatedType.outlineOf element.outline anns]
  | collection kind ⟨element, anns⟩ =>
    Outline.tuple "Iterable" [kind.name, AnnotatedType.outlineOf element.outline anns]
  | map ⟨key, keyAnns⟩ ⟨value, valueAnns⟩ =>
    Outline.tuple "Map" [AnnotatedType.outlineOf key.outline keyAnns,
      AnnotatedType.outlineOf value.outline valueAnns]
  | optional ⟨content, anns⟩ =>
    Outline.tuple "Optional" [AnnotatedType.outlineOf content.outline anns]
  | optionalScalar kind => Outline.tuple "OptionalPrimitive" [kind.outline]
  | classOf name => Outline.tuple "Class" [Text.quoted name]
  | any => "Any"

/-- The outline of an annotated type. -/
def AnnotatedType.outline (t : AnnotatedType) : String :=
  AnnotatedType.outlineOf t.type.outline t.annotations

/-- The outline of a property source. -/
def PropertySource.outline : PropertySource → String
  | field => "Field"
  | getter => "Getter"

/-- The outline of a property. -/
def Property.outline (p : Property) : String :=
  Outline.record "PropertySchema"
    [("name", Text.quoted p.name), ("ty", p.type.outline), ("source", p.source.outline)]

/-- The outline of a class schema. -/
def ClassSchema.outline (c : ClassSchema) : String :=
  Outline.record "ClassSchema"
    [("name", Text.quoted c.name),
      ("annotations", Outline.list (c.annotations.map Annotation.outline)),
      ("properties", Outline.list (c.properties.map Property.outline))]

/-- The outline of an accessor. -/
def Accessor.outline (a : Accessor) : String :=
  Outline.record "PropertyAccessor" [("name", Text.quoted a.name), ("source", a.source.outline)]

/-- The outline of an extractor. -/
def Extractor.outline (e : Extractor) : String :=
  Outline.excerpt "ValueExtractor" [("name", Text.quoted e.name)]

/-- The outline of a wrapper. -/
def Wrapper.outline : Wrapper → String
  | property accessor => Outline.tuple "Property" [accessor.outline]
  | arrayElement => "ArrayElement"
  | iterableElement => "IterableElement"
  | mapKey => "MapKey"
  | mapValue => "MapValue"
  | optionalValue => "OptionalValue"
  | extracted extractor => Outline.tuple "Extracted" [extractor.outline]

/-- The outline of engine settings. -/
def Config.outline (c : Config) : String :=
  Outline.record "EngineConfig"
    [("property_source", c.propertySource.outline), ("eager_cascade", Outline.bool c.eagerCascade),
      ("max_type_depth", toString c.maxTypeDepth)]

/-- The outline of an engine: its settings, and how much it holds. -/
def Engine.outline (e : Engine) : String :=
  Outline.excerpt "ValidationEngine"
    [("config", e.config.outline), ("constraint_kinds", toString e.catalog.size),
      ("classes", toString e.classes.length), ("trees", toString e.trees.length),
      ("compiled", toString e.compiled.length)]

end Validation
