import CachedRun.Value
import CachedRun.Xml.Canonical

/-!
# Validators

A validator is a condition on values beyond their binding: the text of a literal is one of a list,
or the root element of a document belongs to a schema.

**Belonging to a schema** is read off the root's tag alone. Either the namespace of its name, less
the slashes at its end, begins the schema's location, or the attribute for schema locations lists
the schema.
-/

set_option autoImplicit false

namespace CachedRun

/-- A condition on values. -/
inductive Validator where
  | allowed (values : List String)
  | schema (location : String)
  deriving Repr, DecidableEq

/-- Why a value is rejected. -/
inductive Rejection where
  | notAllowed
  | unexpectedType
  | foreignRoot (name schema : String)
  | notXml (flaw : Xml.Flaw)
  deriving Repr, DecidableEq

def Rejection.message : Rejection → String
  | .notAllowed => "Input is none of the allowed values"
  | .unexpectedType => "Unexpected input type"
  | .foreignRoot name schema => s!"root element '{name}' does not belong to schema '{schema}'"
  | .notXml flaw => s!"not well-formed XML: {flaw.message}"

/-- Whether the namespace of a root begins the location of a schema. -/
def spaceMatches (schema : String) (space : String) : Bool :=
  space ≠ "" &&
    (Text.dropStart? (Text.dropEndWhile (· == '/') space.toList) schema.toList).isSome

/-- Whether a root belongs to a schema. -/
def Xml.Root.belongsTo (root : Xml.Root) (schema : String) : Bool :=
  root.space.any (spaceMatches schema)
    || root.location.any fun location => (Text.words location.toList).contains schema.toList

namespace Validator

/-- Why a validator rejects a value; nothing if it accepts it. -/
def check (validator : Validator) (v : Value) : Option Rejection :=
  match validator with
  | .allowed values =>
    match v.literalText? with
    | some text => if text ∈ values then none else some .notAllowed
    | none => some .unexpectedType
  | .schema location =>
    match v.document? with
    | none => some .unexpectedType
    | some document =>
      match Xml.root document with
      | .ok root =>
        if root.belongsTo location then none else some (.foreignRoot root.name location)
      | .error flaw => some (.notXml flaw)

end Validator

end CachedRun
