import ServiceTypings.Text.Blank
import ServiceTypings.Text.Lines
import ServiceTypings.Keyed
import ServiceTypings.QualifiedName
import ServiceTypings.Identifier
import ServiceTypings.Comment
import ServiceTypings.ConversionError
import ServiceTypings.Registry
import ServiceTypings.Registry.Builtin
import ServiceTypings.TypeToken
import ServiceTypings.Interface
import ServiceTypings.Namespace
import ServiceTypings.Declarations
import ServiceTypings.Json.Number
import ServiceTypings.Json.Basic
import ServiceTypings.Json.Token
import ServiceTypings.Json.Reader
import ServiceTypings.Record
import ServiceTypings.Record.Decode
import ServiceTypings.Conversion
import ServiceTypings.Toml.Node
import ServiceTypings.Toml.DateTime
import ServiceTypings.Toml.Numeral
import ServiceTypings.Toml.Quoted
import ServiceTypings.Toml.Statement
import ServiceTypings.Toml.Document
import ServiceTypings.Settings
import ServiceTypings.Path
import ServiceTypings.Disk
import ServiceTypings.Job
import ServiceTypings.Batch
import ServiceTypings.Download
import ServiceTypings.SettingsFile
import ServiceTypings.Arguments
import ServiceTypings.CommandLine
import ServiceTypings.Main
import ServiceTypings.Proofs.Growth
import ServiceTypings.Proofs.Conversion
import ServiceTypings.Proofs.Placement
import ServiceTypings.Proofs.Resolution
import ServiceTypings.Proofs.Headers
import ServiceTypings.Proofs.CommentLines
import ServiceTypings.Proofs.Places
import ServiceTypings.Proofs.SharedOutputs
import ServiceTypings.Proofs.References
import ServiceTypings.Proofs.JsonValues
import ServiceTypings.Proofs.RecordShape
import ServiceTypings.Proofs.FirstFault
import ServiceTypings.Proofs.DistinctNames
import ServiceTypings.Proofs.JsonInPlace
import ServiceTypings.Proofs.ListedRecord
import ServiceTypings.Proofs.Statements
import ServiceTypings.Proofs.Skeleton
import ServiceTypings.Proofs.Additions
import ServiceTypings.Proofs.WholeSegments
import ServiceTypings.Proofs.FileIsolation
import ServiceTypings.Proofs.NamelessDefinitions
import ServiceTypings.Proofs.RootLabel
import ServiceTypings.Proofs.Brackets
import ServiceTypings.Proofs.RecordEdits
import ServiceTypings.Proofs.Respelling
import ServiceTypings.Proofs.ConvertRun
import ServiceTypings.Proofs.Words
import ServiceTypings.Proofs.Filling
import ServiceTypings.Proofs.Columns
import ServiceTypings.Proofs.ArrayTokens
import ServiceTypings.Proofs.DeclaredNames
import ServiceTypings.Proofs.LocalAdditions
import ServiceTypings.Proofs.MemberNames
import ServiceTypings.Proofs.MemberCollisions
import ServiceTypings.Proofs.NameTexts
import ServiceTypings.Proofs.DirectoryEntries
