import LightHeaders.Assoc
import LightHeaders.Text.Ranges
import LightHeaders.Text.Blank
import LightHeaders.Text.Letter
import LightHeaders.Text.Printable
import LightHeaders.Text.Cut
import LightHeaders.Text.Lines
import LightHeaders.Text.Utf8
import LightHeaders.Path
import LightHeaders.Path.Normal
import LightHeaders.Disk
import LightHeaders.Literal
import LightHeaders.Language
import LightHeaders.Instruction
import LightHeaders.Outline.Line
import LightHeaders.Outline
import LightHeaders.Prototype
import LightHeaders.CFunction
import LightHeaders.Buffer
import LightHeaders.Component
import LightHeaders.Failure
import LightHeaders.Project
import LightHeaders.Workspace
import LightHeaders.Workspace.Ancestry
import LightHeaders.Workspace.Skeleton
import LightHeaders.Workspace.Scope
import LightHeaders.Workspace.Contents
import LightHeaders.Workspace.Fit
import LightHeaders.Workspace.References
import LightHeaders.Workspace.Page
import LightHeaders.Workspace.Rendering
import LightHeaders.Workspace.Headers
import LightHeaders.Settings
import LightHeaders.Compiler
import LightHeaders.Proofs.LineGrammar
import LightHeaders.Proofs.Sketch
import LightHeaders.Proofs.OutlineRoundTrip
import LightHeaders.Proofs.Changes
import LightHeaders.Proofs.Runs
import LightHeaders.Proofs.Loading
import LightHeaders.Proofs.Sources
import LightHeaders.Proofs.Literals
import LightHeaders.Proofs.LiteralValues
import LightHeaders.Proofs.Names
import LightHeaders.Proofs.Settling
import LightHeaders.Proofs.Ancestors
import LightHeaders.Proofs.Pages
import LightHeaders.Proofs.Emitting
import LightHeaders.Proofs.Histories
import LightHeaders.Proofs.Links
import LightHeaders.Proofs.Bare
import LightHeaders.Proofs.Printer
import LightHeaders.Proofs.Inline
import LightHeaders.Proofs.Printing
import LightHeaders.Proofs.Bodies
import LightHeaders.Proofs.Includes
import LightHeaders.Proofs.HeaderText
import LightHeaders.Proofs.LineNumbers
import LightHeaders.Proofs.Origins
import LightHeaders.Proofs.OwnLines
import LightHeaders.Proofs.Capacity
import LightHeaders.Proofs.LoadRecursion
import LightHeaders.Proofs.ForestWalks
import LightHeaders.Proofs.RenderLevels
import LightHeaders.Proofs.Owners
import LightHeaders.Proofs.HeaderRecursion
import LightHeaders.Proofs.Mentions
import LightHeaders.Proofs.Findings
import LightHeaders.Proofs.References
import LightHeaders.Proofs.SpelledNames
import LightHeaders.Proofs.Spelling
import LightHeaders.Proofs.IncludeCoverage
import LightHeaders.Proofs.OutputPaths
import LightHeaders.Proofs.PathPlaces
import LightHeaders.Proofs.Locations
import LightHeaders.Proofs.Skeletons
import LightHeaders.Proofs.Entries
import LightHeaders.Proofs.Sessions
import LightHeaders.Proofs.EntrySources
import LightHeaders.Proofs.Published
import LightHeaders.Proofs.Publishing
import LightHeaders.Proofs.CompiledHeaders
import LightHeaders.Proofs.Declarations
import LightHeaders.Proofs.Descent
import LightHeaders.Proofs.ReadBack
import LightHeaders.Proofs.HeaderRequests
import LightHeaders.Proofs.LiveDeclarations
import LightHeaders.Proofs.Hoisting
import LightHeaders.Proofs.Renumbering
import LightHeaders.Proofs.TwinLoads
import LightHeaders.Proofs.LazyLoading
import LightHeaders.Proofs.LoadOrder
import LightHeaders.Proofs.Indentation
import LightHeaders.Proofs.NameMeaning
import LightHeaders.Proofs.LocalLoading
import LightHeaders.Proofs.Placement
import LightHeaders.Proofs.Embedding
import LightHeaders.Proofs.LinePhrases
import LightHeaders.Proofs.SharedForest
import LightHeaders.Proofs.FittedLiterals
import LightHeaders.Proofs.QuotedTexts
import LightHeaders.Proofs.SkeletonContents
import LightHeaders.Proofs.Rewriting
import LightHeaders.Proofs.HeaderForest
import LightHeaders.Proofs.HeaderLoading
import LightHeaders.Proofs.HeaderLines
import LightHeaders.Proofs.HeaderItems
import LightHeaders.Proofs.InnermostProject
import LightHeaders.Proofs.Liveness
import LightHeaders.Proofs.PrototypeSpellings
