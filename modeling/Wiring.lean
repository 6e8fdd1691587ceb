import Wiring.ConfigClass
import Wiring.Definition
import Wiring.Environment
import Wiring.Event
import Wiring.Failure
import Wiring.Importers
import Wiring.Json.Basic
import Wiring.Json.Printer
import Wiring.Json.Reader
import Wiring.LogFilter
import Wiring.Metadata.Cache
import Wiring.Metadata.ClassInfo
import Wiring.Metadata.Descriptor
import Wiring.Metadata.Index
import Wiring.Metadata.Tag
import Wiring.NameFilter
import Wiring.OrderedMap
import Wiring.Placeholder
import Wiring.Problem
import Wiring.Proofs.Accumulation
import Wiring.Proofs.Attribution
import Wiring.Proofs.Behaviour
import Wiring.Proofs.Bookkeeping
import Wiring.Proofs.BrokenLines
import Wiring.Proofs.Candidates
import Wiring.Proofs.Changes
import Wiring.Proofs.Closure
import Wiring.Proofs.Conduct
import Wiring.Proofs.Contributions
import Wiring.Proofs.CutOff
import Wiring.Proofs.DeclarationOrder
import Wiring.Proofs.DecodedEscapes
import Wiring.Proofs.DefaultMethods
import Wiring.Proofs.DependencyOrder
import Wiring.Proofs.DepthBound
import Wiring.Proofs.Diagnosis
import Wiring.Proofs.Endings
import Wiring.Proofs.Exclusions
import Wiring.Proofs.Groups
import Wiring.Proofs.ImportClosure
import Wiring.Proofs.ImportedBy
import Wiring.Proofs.JoinedTexts
import Wiring.Proofs.KeptValues
import Wiring.Proofs.Leftovers
import Wiring.Proofs.LoadedSeeds
import Wiring.Proofs.LogicalLines
import Wiring.Proofs.MetaTags
import Wiring.Proofs.Methods
import Wiring.Proofs.Mirroring
import Wiring.Proofs.Mirroring.Steps
import Wiring.Proofs.Mirroring.Twins
import Wiring.Proofs.Moments
import Wiring.Proofs.Moves
import Wiring.Proofs.Outcome
import Wiring.Proofs.PlaceholderModes
import Wiring.Proofs.Precedence
import Wiring.Proofs.PropertyLookups
import Wiring.Proofs.Quiet
import Wiring.Proofs.RememberedReads
import Wiring.Proofs.Repetition
import Wiring.Proofs.ScannedLines
import Wiring.Proofs.Schedule
import Wiring.Proofs.SourceCalls
import Wiring.Proofs.SourcePlaces
import Wiring.Proofs.Superclasses
import Wiring.Proofs.Supertypes
import Wiring.Proofs.Survival
import Wiring.Proofs.Tours
import Wiring.Proofs.UnicodeEscapes
import Wiring.Proofs.WrittenDescriptors
import Wiring.Proofs.WrittenProperties
import Wiring.Properties.Escape
import Wiring.Properties.File
import Wiring.Properties.Line
import Wiring.Property.Loading
import Wiring.Property.Source
import Wiring.Property.Sources
import Wiring.Resolver.Basic
import Wiring.Resolver.Candidate
import Wiring.Resolver.Imports
import Wiring.Resolver.Methods
import Wiring.Resolver.Walk
import Wiring.Resource
import Wiring.Run
import Wiring.Run.Deferred
import Wiring.Run.Imports
import Wiring.Run.Sources
import Wiring.Run.State
import Wiring.Run.Steps
import Wiring.Run.Strategies
import Wiring.Scan
import Wiring.Script
import Wiring.Settings
import Wiring.Strategy
import Wiring.Text
import Wiring.Text.Alphanumeric
import Wiring.Text.Digit
import Wiring.Text.LetterCase
import Wiring.Toml.Number
import Wiring.Toml.Reader
import Wiring.Toml.Value
import Wiring.View
import Wiring.WellKnown
