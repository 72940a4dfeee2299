import LayeredConfig.Environment
import LayeredConfig.Property.Keys

namespace LayeredConfig

/-!
Documents: property sources read from a resource, with what they say about
profiles.

The scope of a document is the list of profile expressions under which it
counts; a document without scope counts always.
-/

structure Document where
  source : Property.Source
  /-- The scope as written; empty for a document that counts always. -/
  scope : List String
  /-- The scope as expressions. -/
  expressions : List Profile.Expression
  /-- The profiles to activate. -/
  active : List String
  /-- The profiles to include. -/
  included : List String

namespace Document

/-- Read what a source says about profiles, with the placeholders of each entry resolved. -/
def ofSource (environment : Environment) (source : Property.Source) : Except Error Document := do
  let scope ← environment.resolveItems (source.list? Property.Keys.onProfile)
  let expressions ← Profile.parseAll scope
  let active ← environment.resolveItems (source.list? Property.Keys.activeProfiles)
  let included ← environment.resolveItems (source.list? Property.Keys.includedProfiles)
  return { source, scope, expressions, active, included }

/-- Whether the environment accepts the scope, which must have an entry for that. -/
def isAccepted (document : Document) (environment : Environment) : Bool :=
  environment.accepts document.expressions

/-- What a pass over the documents is after. -/
inductive Pass where
  /-- The documents of the profile at hand, or those without scope. -/
  | regular
  /-- Documents with a scope that no profile brought in and that count all the same. -/
  | leftover
  deriving DecidableEq, Repr

/-- Whether a pass with the given profile takes the document. -/
def isTaken (document : Document) (pass : Pass) (profile : Option String)
    (environment : Environment) : Bool :=
  match pass, profile with
  | .regular, none => document.scope.isEmpty
  | .regular, some name => decide (name ∈ document.scope) && document.isAccepted environment
  | .leftover, none => !document.scope.isEmpty && document.isAccepted environment
  | .leftover, some _ => false

/-- What a document says about profiles does not hang on the name of its source. -/
theorem ofSource_congr {environment : Environment} {left right : Property.Source}
    (same : left.properties = right.properties) {document : Document}
    (read : ofSource environment left = .ok document) :
    ofSource environment right = .ok { document with source := right } := by
  simp only [ofSource, Property.Source.list?_congr same] at read ⊢
  cases limited : environment.resolveItems (right.list? Property.Keys.onProfile) with
  | error error => simp [limited, bind, Except.bind] at read
  | ok scope =>
      cases parsed : Profile.parseAll scope with
      | error error => simp [limited, parsed, bind, Except.bind] at read
      | ok expressions =>
          cases activated : environment.resolveItems (right.list? Property.Keys.activeProfiles) with
          | error error => simp [limited, parsed, activated, bind, Except.bind] at read
          | ok active =>
              cases added : environment.resolveItems
                  (right.list? Property.Keys.includedProfiles) with
              | error error => simp [limited, parsed, activated, added, bind, Except.bind] at read
              | ok included =>
                  simp only [limited, parsed, activated, added, bind, Except.bind, pure,
                    Except.pure, Except.ok.injEq] at read ⊢
                  subst read
                  rfl

end Document
end LayeredConfig
