import RuleRegistry.Artifact.Basic
import RuleRegistry.Artifact.Binary
import RuleRegistry.Artifact.Cache
import RuleRegistry.Artifact.Document
import RuleRegistry.Artifact.Format
import RuleRegistry.Artifact.Wire
import RuleRegistry.Bytes
import RuleRegistry.Collection
import RuleRegistry.Context
import RuleRegistry.Digest.Blake3
import RuleRegistry.Engine
import RuleRegistry.Entries
import RuleRegistry.Expr.Basic
import RuleRegistry.Expr.Eval
import RuleRegistry.Expr.Function
import RuleRegistry.Expr.Language
import RuleRegistry.Expr.Parser
import RuleRegistry.Expr.Printer
import RuleRegistry.Extension
import RuleRegistry.FileTree
import RuleRegistry.Number.Binary64
import RuleRegistry.Number.Numeral
import RuleRegistry.Number.Rounding
import RuleRegistry.Number.Shortest
import RuleRegistry.Path
import RuleRegistry.Proofs.ArtifactFiles
import RuleRegistry.Proofs.BinaryArtifact
import RuleRegistry.Proofs.CachedRun
import RuleRegistry.Proofs.CanonicalArtifact
import RuleRegistry.Proofs.CommentLine
import RuleRegistry.Proofs.Comparisons
import RuleRegistry.Proofs.DamagedArtifact
import RuleRegistry.Proofs.DecimalText
import RuleRegistry.Proofs.Definitions
import RuleRegistry.Proofs.Dependence
import RuleRegistry.Proofs.DottedNames
import RuleRegistry.Proofs.EngineHistory
import RuleRegistry.Proofs.EvaluatorHistory
import RuleRegistry.Proofs.ExtensionCalls
import RuleRegistry.Proofs.FileFaults
import RuleRegistry.Proofs.FirstReading
import RuleRegistry.Proofs.Flattening
import RuleRegistry.Proofs.Freshness
import RuleRegistry.Proofs.Grammar
import RuleRegistry.Proofs.ImportCycles
import RuleRegistry.Proofs.ImportFolders
import RuleRegistry.Proofs.Importing
import RuleRegistry.Proofs.InterruptedRebuild
import RuleRegistry.Proofs.KeyCollisions
import RuleRegistry.Proofs.LoadedRules
import RuleRegistry.Proofs.Loading
import RuleRegistry.Proofs.LooseEquality
import RuleRegistry.Proofs.Mentions
import RuleRegistry.Proofs.Merging
import RuleRegistry.Proofs.NameResolution
import RuleRegistry.Proofs.NullEdits
import RuleRegistry.Proofs.NullKeys
import RuleRegistry.Proofs.NumberLiterals
import RuleRegistry.Proofs.Numerals
import RuleRegistry.Proofs.Outcome
import RuleRegistry.Proofs.Overflow
import RuleRegistry.Proofs.ParseHistory
import RuleRegistry.Proofs.Places
import RuleRegistry.Proofs.Probing
import RuleRegistry.Proofs.Programs
import RuleRegistry.Proofs.Reachable
import RuleRegistry.Proofs.Readable
import RuleRegistry.Proofs.ReadableKeys
import RuleRegistry.Proofs.Reading
import RuleRegistry.Proofs.RebuiltArtifact
import RuleRegistry.Proofs.Regular
import RuleRegistry.Proofs.Relevance
import RuleRegistry.Proofs.Reparse
import RuleRegistry.Proofs.RequestKey
import RuleRegistry.Proofs.Resolution
import RuleRegistry.Proofs.Rounding
import RuleRegistry.Proofs.Scoping
import RuleRegistry.Proofs.SettingBatch
import RuleRegistry.Proofs.SettingDocument
import RuleRegistry.Proofs.SharedArtifact
import RuleRegistry.Proofs.SharedStore
import RuleRegistry.Proofs.Shortest
import RuleRegistry.Proofs.SpelledValues
import RuleRegistry.Proofs.StampRecord
import RuleRegistry.Proofs.TagAttributes
import RuleRegistry.Proofs.WholeNumbers
import RuleRegistry.Proofs.WireCodec
import RuleRegistry.Proofs.Writing
import RuleRegistry.Proofs.XmlCut
import RuleRegistry.Proofs.XmlElements
import RuleRegistry.Proofs.XmlPrefix
import RuleRegistry.Proofs.YamlArtifact
import RuleRegistry.Proofs.YamlTags
import RuleRegistry.Rule
import RuleRegistry.Settings
import RuleRegistry.Settings.Document
import RuleRegistry.Source.Definition
import RuleRegistry.Source.Error
import RuleRegistry.Source.Loader
import RuleRegistry.Source.XmlRules
import RuleRegistry.Source.YamlRules
import RuleRegistry.Stamp
import RuleRegistry.Text.Blank
import RuleRegistry.Text.CodePoint
import RuleRegistry.Text.Dotted
import RuleRegistry.Text.Quoted
import RuleRegistry.Value.Basic
import RuleRegistry.Value.Compare
import RuleRegistry.Value.Spelling
import RuleRegistry.Value.Text
import RuleRegistry.Xml.Attribute
import RuleRegistry.Xml.Entity
import RuleRegistry.Xml.Event
import RuleRegistry.Yaml.Atom
import RuleRegistry.Yaml.Cursor
import RuleRegistry.Yaml.Node
import RuleRegistry.Yaml.Reading
import RuleRegistry.Yaml.Scalar
import RuleRegistry.Yaml.Tag
import RuleRegistry.Yaml.Token
import RuleRegistry.Yaml.Tree
import RuleRegistry.Yaml.Writer
