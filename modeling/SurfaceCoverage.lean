import SurfaceCoverage.Analysis
import SurfaceCoverage.Assessment
import SurfaceCoverage.Configuration
import SurfaceCoverage.Evidence
import SurfaceCoverage.Evidence.Aliases
import SurfaceCoverage.Evidence.Script
import SurfaceCoverage.Failure
import SurfaceCoverage.Imports
import SurfaceCoverage.Log
import SurfaceCoverage.Log.Conversion
import SurfaceCoverage.Log.Directive
import SurfaceCoverage.Log.Message
import SurfaceCoverage.Lookup.Candidates
import SurfaceCoverage.Lookup.Guard
import SurfaceCoverage.Lookup.Scope
import SurfaceCoverage.Lookup.Search
import SurfaceCoverage.Lookup.Trail
import SurfaceCoverage.MemberList
import SurfaceCoverage.MemberSession
import SurfaceCoverage.Module
import SurfaceCoverage.Names.Expansion
import SurfaceCoverage.Names.Items
import SurfaceCoverage.Number.Binary64
import SurfaceCoverage.Number.Decimal
import SurfaceCoverage.Number.Numeral
import SurfaceCoverage.Project.Encoding
import SurfaceCoverage.Project.Files
import SurfaceCoverage.Project.Path
import SurfaceCoverage.Project.Resolution
import SurfaceCoverage.Proofs.Trail
import SurfaceCoverage.Script
import SurfaceCoverage.Script.Elements
import SurfaceCoverage.Script.Expressions
import SurfaceCoverage.Script.Goal
import SurfaceCoverage.Script.Patterns
import SurfaceCoverage.Script.Reader
import SurfaceCoverage.Script.Statements
import SurfaceCoverage.Script.Token
import SurfaceCoverage.Script.Types
import SurfaceCoverage.Settings
import SurfaceCoverage.SingleFile
import SurfaceCoverage.Strategy
import SurfaceCoverage.Strategy.Expose
import SurfaceCoverage.Strategy.Instance
import SurfaceCoverage.Strategy.Options
import SurfaceCoverage.Strategy.Registry
import SurfaceCoverage.Strategy.Slots
import SurfaceCoverage.Surface
import SurfaceCoverage.Template.Mentions
import SurfaceCoverage.Template.Outlets
import SurfaceCoverage.Text
import SurfaceCoverage.Text.Digits
import SurfaceCoverage.Text.Letters
import SurfaceCoverage.Text.Printable
import SurfaceCoverage.Text.Quoted
import SurfaceCoverage.Text.Scan
import SurfaceCoverage.Tree.Kind
import SurfaceCoverage.Tree.Literal
import SurfaceCoverage.Tree.Node
import SurfaceCoverage.Tree.Shape
import SurfaceCoverage.Value
import SurfaceCoverage.Yaml
import SurfaceCoverage.Yaml.Built
import SurfaceCoverage.Yaml.Character
import SurfaceCoverage.Yaml.Constant
import SurfaceCoverage.Yaml.Fault
import SurfaceCoverage.Yaml.Node
import SurfaceCoverage.Yaml.Scalar
import SurfaceCoverage.Yaml.Tag
import SurfaceCoverage.Yaml.Token
import SurfaceCoverage.Proofs.Walk
import SurfaceCoverage.Proofs.Absence
import SurfaceCoverage.Proofs.Descendants
import SurfaceCoverage.Proofs.Offers
import SurfaceCoverage.Proofs.PairGraph
import SurfaceCoverage.Proofs.Keys
import SurfaceCoverage.Proofs.ItemOrigins
import SurfaceCoverage.Proofs.Literals
import SurfaceCoverage.Proofs.Spelling
import SurfaceCoverage.Proofs.LiteralReading
import SurfaceCoverage.Proofs.Region
import SurfaceCoverage.Proofs.Routes
import SurfaceCoverage.Proofs.Asking
import SurfaceCoverage.Proofs.Extraction
import SurfaceCoverage.Proofs.Transparency
import SurfaceCoverage.Proofs.GivenInputs
import SurfaceCoverage.Proofs.Likeness
import SurfaceCoverage.Proofs.Attaining
import SurfaceCoverage.Proofs.Insertion
import SurfaceCoverage.Proofs.Growth
import SurfaceCoverage.Proofs.Naming
import SurfaceCoverage.Proofs.PlainExpansion
import SurfaceCoverage.Proofs.Placed
import SurfaceCoverage.Proofs.Faults
import SurfaceCoverage.Proofs.Descent
import SurfaceCoverage.Proofs.Endless
import SurfaceCoverage.Proofs.Acyclic
import SurfaceCoverage.Proofs.Cycles
import SurfaceCoverage.Proofs.Links
import SurfaceCoverage.Proofs.Indirection
import SurfaceCoverage.Proofs.Dispatch
import SurfaceCoverage.Proofs.SoleSite
import SurfaceCoverage.Proofs.Inertness
import SurfaceCoverage.Proofs.Journal
import SurfaceCoverage.Proofs.Scanning
import SurfaceCoverage.Proofs.Markup
import SurfaceCoverage.Proofs.Pieces
import SurfaceCoverage.Proofs.TagAttributes
import SurfaceCoverage.Proofs.Outlets
import SurfaceCoverage.Proofs.SlotDirectives
import SurfaceCoverage.Proofs.DefaultContent
import SurfaceCoverage.Proofs.ElementContent
import SurfaceCoverage.Proofs.SlotEvidence
import SurfaceCoverage.Proofs.Modifiers
import SurfaceCoverage.Proofs.Pooling
import SurfaceCoverage.Proofs.Specifiers
import SurfaceCoverage.Proofs.Dependencies
import SurfaceCoverage.Proofs.SectionAttributes
import SurfaceCoverage.Proofs.Sections
import SurfaceCoverage.Proofs.Wrapping
import SurfaceCoverage.Proofs.Hiding
import SurfaceCoverage.Proofs.Casts
import SurfaceCoverage.Proofs.Guard
import SurfaceCoverage.Proofs.Readings
import SurfaceCoverage.Proofs.Merging
import SurfaceCoverage.Proofs.Fallback
import SurfaceCoverage.Proofs.ListForms
import SurfaceCoverage.Proofs.OwnScopes
import SurfaceCoverage.Proofs.DispatchOrder
import SurfaceCoverage.Proofs.Grafting
import SurfaceCoverage.Proofs.GraftedItems
import SurfaceCoverage.Proofs.GraftedCandidates
import SurfaceCoverage.Proofs.Correspondence
import SurfaceCoverage.Proofs.GraftedLookups
import SurfaceCoverage.Proofs.Precedence
import SurfaceCoverage.Proofs.Repetition
import SurfaceCoverage.Proofs.InnerDeclarations
import SurfaceCoverage.Proofs.TypeForms
import SurfaceCoverage.Proofs.ShownNames
import SurfaceCoverage.Proofs.OptionOrder
import SurfaceCoverage.Proofs.ModuleIdentity
import SurfaceCoverage.Proofs.CamelCase
import SurfaceCoverage.Proofs.DocumentOrder
import SurfaceCoverage.Proofs.BoundWords
import SurfaceCoverage.Proofs.FileReading
import SurfaceCoverage.Proofs.OrderedNames
