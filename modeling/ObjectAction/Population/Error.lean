/-
Why an operation on a population fails, and what is said about it.
-/
namespace ObjectAction

inductive PopulationError where
  | unknownClass (name : String)
  | unknownAttribute (className name : String)
  /-- A derived attribute cannot be written. -/
  | readOnlyAttribute (className name : String)
  | attributeType (className name expected got : String)
  | unknownRelationship (source target relationship : String) (phrase : Option String)
  /-- The relationship can be read in several ways, and no phrase tells which. -/
  | ambiguousRelationship (source target relationship : String)
  | alreadyRelated (source target relationship : String)
  | notRelated (source target relationship : String)
  /-- No instance of that class and id exists, or not any more. -/
  | notTracked (ref : String)
  | unknownSymbol (name : String)
  | unknownFunction (name : String)
  | unknownOperation (owner name : String)
  | unknownEnumerator (enumeration name : String)
  | missingArgument (name : String)
  | definedTwice (className : String)
  | reflexiveWithoutPhrases (relationship : String)
  | reflexiveWithLink (relationship : String)
  /-- For a reason that only a native operation gives. -/
  | invalidModel (reason : String)
  deriving DecidableEq, Repr

def PopulationError.message : PopulationError → String
  | unknownClass name => s!"unknown class '{name}'"
  | unknownAttribute className name => s!"class '{className}' has no attribute '{name}'"
  | readOnlyAttribute className name =>
    s!"attribute '{className}.{name}' is derived and cannot be written"
  | attributeType className name expected got =>
    s!"attribute '{className}.{name}' expects {expected}, got {got}"
  | unknownRelationship source target relationship phrase =>
    let suffix := match phrase with
      | some p => s!".'{p}'"
      | none => ""
    s!"no relationship {relationship}{suffix} from {source} to {target}"
  | ambiguousRelationship source target relationship =>
    s!"relationship {relationship} between {source} and {target} needs a phrase"
  | alreadyRelated source target relationship =>
    s!"{source} and {target} are already related across {relationship}"
  | notRelated source target relationship =>
    s!"{source} and {target} are not related across {relationship}"
  | notTracked ref => s!"instance {ref} is not tracked by the domain"
  | unknownSymbol name => s!"unknown symbol '{name}'"
  | unknownFunction name => s!"unknown function '{name}'"
  | unknownOperation owner name => s!"'{owner}' has no operation '{name}'"
  | unknownEnumerator enumeration name => s!"unknown enumerator '{enumeration}::{name}'"
  | missingArgument name => s!"missing argument '{name}'"
  | definedTwice className => s!"invalid model: class '{className}' is defined twice"
  | reflexiveWithoutPhrases relationship =>
    s!"invalid model: reflexive association {relationship} needs a distinct phrase on each end"
  | reflexiveWithLink relationship =>
    s!"invalid model: reflexive association {relationship} cannot have a link class"
  | invalidModel reason => s!"invalid model: {reason}"

end ObjectAction
