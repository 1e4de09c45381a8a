import PhpAtlas.LogFormat
import PhpAtlas.Main
import PhpAtlas.Proofs.CacheTransparency
import PhpAtlas.Proofs.Token.Tiles
import PhpAtlas.Proofs.Reading.Sources
import PhpAtlas.Proofs.Building.Sources
import PhpAtlas.Proofs.Building.Spans
import PhpAtlas.Proofs.Building.Holes
import PhpAtlas.Proofs.Brackets.Statements
import PhpAtlas.Proofs.ExpressionType
import PhpAtlas.Proofs.VariableScope
import PhpAtlas.Proofs.Resolving.Bookkeeping
import PhpAtlas.Proofs.Resolving.Spelling
import PhpAtlas.Proofs.Hint.Spelling
import PhpAtlas.Proofs.Mapping.Stable
import PhpAtlas.Proofs.Mapping.Availability
import PhpAtlas.Proofs.Mapping.Legality
import PhpAtlas.Proofs.Mapping.Readable
import PhpAtlas.Proofs.Mapping.Documentation
import PhpAtlas.Proofs.Index.Agreement
import PhpAtlas.Proofs.Tree.Slots
import PhpAtlas.Proofs.Tree.Detached
import PhpAtlas.Proofs.Tree.Imports
import PhpAtlas.Proofs.Tree.Path
import PhpAtlas.Proofs.Tree.Decorated
import PhpAtlas.Proofs.Brackets.Opaque
import PhpAtlas.Proofs.Excerpt.Expressions
import PhpAtlas.Proofs.Excerpt.Functions
import PhpAtlas.Proofs.Token.Slices
import PhpAtlas.Proofs.Building.Limits
import PhpAtlas.Proofs.Building.Nesting
import PhpAtlas.Proofs.Building.Opened
import PhpAtlas.Proofs.Building.Towers
import PhpAtlas.Proofs.Excerpt.Copies
import PhpAtlas.Proofs.Excerpt.Origins
import PhpAtlas.Proofs.Excerpt.Texts
import PhpAtlas.Proofs.PhpType.Constructors
import PhpAtlas.Proofs.PhpType.NonNull
import PhpAtlas.Proofs.Hierarchy.Search
import PhpAtlas.Proofs.Mapping.Repetition
import PhpAtlas.Proofs.Brackets.ElseBranch
import PhpAtlas.Proofs.Token.DoubleQuoted
import PhpAtlas.Proofs.Token.OpeningTags
import PhpAtlas.Proofs.Operators.Targets
import PhpAtlas.Proofs.Token.SingleQuoted
import PhpAtlas.Proofs.Token.Heredocs
import PhpAtlas.Proofs.PhpType.Merging
import PhpAtlas.Proofs.NumberType
import PhpAtlas.Proofs.Mapping.Appending
import PhpAtlas.Proofs.Building.Reports
import PhpAtlas.Proofs.Documenting.Sources
import PhpAtlas.Proofs.Tree.Redecorated
import PhpAtlas.Proofs.Tree.Searching
import PhpAtlas.Proofs.Brackets.Partners
import PhpAtlas.Proofs.Files.Discovery
import PhpAtlas.Proofs.Index.FirstDeclarations
import PhpAtlas.Proofs.Levels.Rules
