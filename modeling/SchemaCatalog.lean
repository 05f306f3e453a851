import SchemaCatalog.Attempt
import SchemaCatalog.Catalog.Assembly
import SchemaCatalog.Catalog.Basic
import SchemaCatalog.Catalog.Entries
import SchemaCatalog.Catalog.Links
import SchemaCatalog.Catalog.Operations
import SchemaCatalog.Catalog.TypeUse
import SchemaCatalog.Catalog.Written
import SchemaCatalog.Command.Arguments
import SchemaCatalog.Command.Collection
import SchemaCatalog.Command.LogLevel
import SchemaCatalog.Command.Run
import SchemaCatalog.Document.Basic
import SchemaCatalog.Document.Grammar
import SchemaCatalog.Document.Implements
import SchemaCatalog.Document.Outline
import SchemaCatalog.Document.Scanner
import SchemaCatalog.Document.StringValue
import SchemaCatalog.Error
import SchemaCatalog.Files.Loading
import SchemaCatalog.Files.Path
import SchemaCatalog.Files.Tree
import SchemaCatalog.Fragment.Basic
import SchemaCatalog.Fragment.Fault
import SchemaCatalog.Fragment.Grammar
import SchemaCatalog.Fragment.Merge
import SchemaCatalog.Fragment.Printer
import SchemaCatalog.Fragment.Scanner
import SchemaCatalog.Fragment.StringValue
import SchemaCatalog.Introspection.Answer
import SchemaCatalog.Introspection.Decoding
import SchemaCatalog.Introspection.Printer
import SchemaCatalog.Introspection.Schema
import SchemaCatalog.Json.Basic
import SchemaCatalog.Json.Number
import SchemaCatalog.Json.Reader
import SchemaCatalog.Json.Writer
import SchemaCatalog.Lexeme.Basic
import SchemaCatalog.Lexeme.Scanner
import SchemaCatalog.Location
import SchemaCatalog.Log
import SchemaCatalog.Name
import SchemaCatalog.Number.Binary64
import SchemaCatalog.Number.Decimal
import SchemaCatalog.Number.Shortest
import SchemaCatalog.Proofs.Annotations
import SchemaCatalog.Proofs.BareCatalogs
import SchemaCatalog.Proofs.BareDefinitions
import SchemaCatalog.Proofs.Bindings
import SchemaCatalog.Proofs.Boundaries
import SchemaCatalog.Proofs.CatalogFields
import SchemaCatalog.Proofs.CatalogNames
import SchemaCatalog.Proofs.Catalogs
import SchemaCatalog.Proofs.Collections
import SchemaCatalog.Proofs.DefinitionOrder
import SchemaCatalog.Proofs.Encoding
import SchemaCatalog.Proofs.EntryContents
import SchemaCatalog.Proofs.Feeding
import SchemaCatalog.Proofs.FileTrees
import SchemaCatalog.Proofs.FlawedTexts
import SchemaCatalog.Proofs.FragmentMentions
import SchemaCatalog.Proofs.FragmentOrder
import SchemaCatalog.Proofs.Fragments
import SchemaCatalog.Proofs.Gaps
import SchemaCatalog.Proofs.Harmony
import SchemaCatalog.Proofs.HeardNames
import SchemaCatalog.Proofs.Insertions
import SchemaCatalog.Proofs.JsonAcceptance
import SchemaCatalog.Proofs.JsonReading
import SchemaCatalog.Proofs.JsonTexts
import SchemaCatalog.Proofs.Layouts
import SchemaCatalog.Proofs.Links
import SchemaCatalog.Proofs.LoadedFiles
import SchemaCatalog.Proofs.Lockstep
import SchemaCatalog.Proofs.LockstepDocuments
import SchemaCatalog.Proofs.LockstepParts
import SchemaCatalog.Proofs.LockstepRuns
import SchemaCatalog.Proofs.LooseSeparators
import SchemaCatalog.Proofs.MemberUnions
import SchemaCatalog.Proofs.Mentions
import SchemaCatalog.Proofs.MergedTexts
import SchemaCatalog.Proofs.Merging
import SchemaCatalog.Proofs.Objections
import SchemaCatalog.Proofs.Outlines
import SchemaCatalog.Proofs.ParsedDocuments
import SchemaCatalog.Proofs.Paths
import SchemaCatalog.Proofs.PlainDefinitions
import SchemaCatalog.Proofs.Printing
import SchemaCatalog.Proofs.Regrouping
import SchemaCatalog.Proofs.RepairedDocuments
import SchemaCatalog.Proofs.Repairs
import SchemaCatalog.Proofs.Repetitions
import SchemaCatalog.Proofs.RereadDefinitions
import SchemaCatalog.Proofs.Rereading
import SchemaCatalog.Proofs.ResolvedRoots
import SchemaCatalog.Proofs.RuleResults
import SchemaCatalog.Proofs.SharedDocuments
import SchemaCatalog.Proofs.SharedGrammar
import SchemaCatalog.Proofs.SharedLexemes
import SchemaCatalog.Proofs.SharedReadings
import SchemaCatalog.Proofs.SoundFragments
import SchemaCatalog.Proofs.SpelledNumbers
import SchemaCatalog.Proofs.SpelledStrings
import SchemaCatalog.Proofs.Spelling
import SchemaCatalog.Proofs.Splices
import SchemaCatalog.Proofs.StraylessFragments
import SchemaCatalog.Proofs.TokenReading
import SchemaCatalog.Proofs.WrittenCatalogs
import SchemaCatalog.Rule
import SchemaCatalog.Shape
import SchemaCatalog.Source
import SchemaCatalog.Table
import SchemaCatalog.Text.Basic
import SchemaCatalog.Text.Blank
import SchemaCatalog.Text.CodePoint
import SchemaCatalog.Text.GraphemeExtend
import SchemaCatalog.Text.Lines
import SchemaCatalog.Text.Unprintable
import SchemaCatalog.Text.Utf8
import SchemaCatalog.TypeRef
import SchemaCatalog.Main
