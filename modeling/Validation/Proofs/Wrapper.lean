import Validation.Wrapper.Basic

/-!
# From a whole to its parts

The check of a whole passes or fails without a look at its part, or it tries what the wrapper comes to:
the value itself or what it holds, a property, or the members one after another. What is said of checks
and does not depend on which wrapper it is follows from this alone.

* `Wrapper.Enters`: how a wrapper comes from a whole to its parts, and by which steps.
* `Wrapper.Tries`, `tries_check`: what the check of a whole tries.
-/

namespace Validation.Wrapper

/-- **How a wrapper comes from a whole to a part**, and the steps it puts in front of the paths of
failures there. -/
inductive Enters : Wrapper → Value → List Step → Value → Prop
  | property {accessor : Accessor} {className : String} {fields : List (String × Value)} :
      Enters (.property accessor) (.object className fields) [.property accessor.name]
        (accessor.read (.object className fields))
  | arrayElement {items : List Value} {position : Nat} {item : Value}
      (h : items[position]? = some item) :
      Enters .arrayElement (.list items) [.index position] item
  | iterableElement {items : List Value} {position : Nat} {item : Value}
      (h : items[position]? = some item) :
      Enters .iterableElement (.list items) [.index position] item
  | mapKey {entries : List (Value × Value)} {entry : Value × Value} (h : entry ∈ entries) :
      Enters .mapKey (.map entries) [.key entry.1] entry.1
  | mapValue {entries : List (Value × Value)} {entry : Value × Value} (h : entry ∈ entries) :
      Enters .mapValue (.map entries) [.key entry.1] entry.2
  | held {content : Value} : Enters .optionalValue (.optional (some content)) [] content
  | empty : Enters .optionalValue (.optional none) [] .null
  | plain {v : Value} (h : ∀ content, v ≠ .optional content) : Enters .optionalValue v [] v
  | found {extractor : Extractor} {v held : Value} (h : extractor.extract v = some held) :
      Enters (.extracted extractor) v [] held
  | absent {extractor : Extractor} {v : Value} (h : extractor.extract v = none) :
      Enters (.extracted extractor) v [] .null

/-- **What the check of a whole tries**, in the parts that the wrapper comes to. -/
inductive Tries (w : Wrapper) (inner : Criterion.On Value) (v : Value) : Trial Verdict → Prop
  | nothing : Tries w inner v .pass
  | mismatch {expected : String} : Tries w inner v (.fail (.typeMismatch expected v))
  | part {x : Value} (h : w.Enters v [] x) : Tries w inner v (inner.validate x)
  | member {step : Step} {x : Value} (h : w.Enters v [step] x) :
      Tries w inner v ((inner.validate x).mapFailure (·.within step))
  | members {α : Type} {members : List α} {step : α → Step} {part : α → Value}
      (h : ∀ m ∈ members, w.Enters v [step m] (part m)) :
      Tries w inner v (Trial.first (fun m =>
        (inner.validate (part m)).mapFailure (·.within (step m))) members)

variable {w : Wrapper} {inner : Criterion.On Value}

theorem tries_checkElements (expected : String) (v : Value)
    (h : ∀ items position item, items[position]? = some item →
      w.Enters (.list items) [.index position] item) :
    w.Tries inner v (checkElements expected inner v) := by
  unfold checkElements
  split
  · exact .nothing
  · exact .members fun m hm => h _ _ _ (List.mem_zipIdx_iff_getElem?.1 hm)
  · exact .mismatch

theorem tries_checkEntries (side : Value × Value → Value) (v : Value)
    (h : ∀ entries entry, entry ∈ entries → w.Enters (.map entries) [.key entry.1] (side entry)) :
    w.Tries inner v (checkEntries side inner v) := by
  unfold checkEntries
  split
  · exact .nothing
  · exact .members fun entry hentry => h _ entry hentry
  · exact .mismatch

/-- **The check of a whole**, wrapper by wrapper. -/
theorem tries_check (w : Wrapper) (shape : Shape) (inner : Criterion.On Value) (v : Value) :
    w.Tries inner v (w.check shape inner v) := by
  cases w with
  | property accessor =>
    rw [check]
    unfold checkProperty
    split
    · exact .nothing
    · exact .member .property
    · exact .mismatch
  | arrayElement => exact tries_checkElements _ v fun _ _ _ h => .arrayElement h
  | iterableElement => exact tries_checkElements _ v fun _ _ _ h => .iterableElement h
  | mapKey => exact tries_checkEntries _ v fun _ _ h => .mapKey h
  | mapValue => exact tries_checkEntries _ v fun _ _ h => .mapValue h
  | optionalValue =>
    rw [check]
    unfold checkOptional
    split
    case h_1 content =>
      cases content with
      | none => exact .part .empty
      | some content => exact .part .held
    case h_2 h => exact .part (.plain h)
  | extracted extractor =>
    rw [check]
    unfold checkExtracted
    split
    case h_1 held h => exact .part (.found h)
    case h_2 h =>
      split
      · exact .nothing
      · exact .part (.absent h)

end Validation.Wrapper
