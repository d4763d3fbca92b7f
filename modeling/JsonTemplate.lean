import JsonTemplate.Describe
import JsonTemplate.Function.Typed
import JsonTemplate.Proofs.Outcome
import JsonTemplate.Proofs.Compilation
import JsonTemplate.Proofs.Expansion
import JsonTemplate.Proofs.Names
import JsonTemplate.Proofs.Invariant
import JsonTemplate.Proofs.Library
import JsonTemplate.Proofs.Options
import JsonTemplate.Proofs.Scoping
import JsonTemplate.Proofs.Checking
import JsonTemplate.Proofs.Relaxation
import JsonTemplate.Proofs.Policy
import JsonTemplate.Proofs.Nesting
import JsonTemplate.Proofs.Inlining
import JsonTemplate.Proofs.Precedence
import JsonTemplate.Proofs.Grammar
import JsonTemplate.Proofs.Reading
import JsonTemplate.Proofs.Parsing
import JsonTemplate.Proofs.Spelling
import JsonTemplate.Proofs.Scanning
import JsonTemplate.Proofs.Macros
import JsonTemplate.Proofs.Writable
import JsonTemplate.Proofs.Rendering
import JsonTemplate.Proofs.Associativity
import JsonTemplate.Proofs.Likeness
import JsonTemplate.Proofs.Renaming
import JsonTemplate.Proofs.Uniformity
import JsonTemplate.Proofs.Dependence
import JsonTemplate.Proofs.Spans
import JsonTemplate.Proofs.Mapping
import JsonTemplate.Proofs.Dispatch
import JsonTemplate.Proofs.Hostless
import JsonTemplate.Proofs.Delivery
import JsonTemplate.Proofs.Messages
import JsonTemplate.Proofs.Answers
import JsonTemplate.Proofs.MissingKeys
import JsonTemplate.Proofs.Nodes
import JsonTemplate.Proofs.Layout
import JsonTemplate.Proofs.Enclosure
import JsonTemplate.Proofs.Blame
import JsonTemplate.Proofs.Pointers
import JsonTemplate.Proofs.Mirroring
import JsonTemplate.Proofs.Occurrences
import JsonTemplate.Proofs.Resolution
import JsonTemplate.Proofs.Bounded
import JsonTemplate.Proofs.Recursion
import JsonTemplate.Proofs.Records
import JsonTemplate.Proofs.Removal
import JsonTemplate.Proofs.Resemblance
import JsonTemplate.Proofs.Parametricity
import JsonTemplate.Proofs.Concealment
import JsonTemplate.Proofs.Exactness
import JsonTemplate.Proofs.Conversion
import JsonTemplate.Proofs.Fusion
import JsonTemplate.Proofs.Acceptance
import JsonTemplate.Proofs.Keys
import JsonTemplate.Proofs.Binding
import JsonTemplate.Proofs.Scopes
import JsonTemplate.Proofs.Places
import JsonTemplate.Proofs.Phrases
import JsonTemplate.Proofs.Rereading
import JsonTemplate.Proofs.Moving
import JsonTemplate.Proofs.Frames
import JsonTemplate.Proofs.Standing
import JsonTemplate.Proofs.Rescanning
import JsonTemplate.Proofs.Excerpts
import JsonTemplate.Proofs.Equality
import JsonTemplate.Proofs.Quoting
import JsonTemplate.Proofs.Lines
import JsonTemplate.Proofs.Stopping
import JsonTemplate.Proofs.Underlines
import JsonTemplate.Proofs.Operands
import JsonTemplate.Proofs.Flattening
import JsonTemplate.Proofs.Splitting
import JsonTemplate.Proofs.Collecting
import JsonTemplate.Proofs.Prefixes
