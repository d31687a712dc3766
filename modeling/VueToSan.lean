import VueToSan.Output.Document
import VueToSan.Settings
import VueToSan.Proofs.ConstantFolding
import VueToSan.Proofs.ParseWritten
import VueToSan.Proofs.Cursors
import VueToSan.Proofs.MarkupImage
import VueToSan.Proofs.MarkupPieces
import VueToSan.Proofs.MarkupRoundTrip
import VueToSan.Proofs.NormalForm
import VueToSan.Proofs.Rounding
import VueToSan.Proofs.ShortestDecimal
import VueToSan.Proofs.NumberText
import VueToSan.Proofs.Lexing
import VueToSan.Proofs.ParsedNames
import VueToSan.Proofs.Phrases
import VueToSan.Proofs.PropertyRuns
import VueToSan.Proofs.CodeReading
import VueToSan.Proofs.FilterReading
import VueToSan.Proofs.CodeRoundTrip
import VueToSan.Proofs.EntryLookup
import VueToSan.Proofs.Occurrence
import VueToSan.Proofs.RuleEffects
import VueToSan.Proofs.WalkInvariant
import VueToSan.Proofs.ConditionalChains
import VueToSan.Proofs.StructuralDirectives
import VueToSan.Proofs.DottedNumbers
import VueToSan.Proofs.Rows
import VueToSan.Proofs.ParseableCode
import VueToSan.Proofs.CodeEdges
import VueToSan.Proofs.AttributeValues
import VueToSan.Proofs.WrittenLoops
import VueToSan.Proofs.StructuralSites
import VueToSan.Proofs.StructuralCode
import VueToSan.Proofs.AttributeSteps
import VueToSan.Proofs.RuleSequence
import VueToSan.Proofs.SourceKeys
import VueToSan.Proofs.PreparedHeads
import VueToSan.Proofs.RefRegistry
import VueToSan.Proofs.ReadTrees
import VueToSan.Proofs.QuietTexts
import VueToSan.Proofs.JoinedTexts
import VueToSan.Proofs.IdleRules
import VueToSan.Proofs.PlainMarkup
import VueToSan.Proofs.AdmittedAttributes
import VueToSan.Proofs.DialectReading
import VueToSan.Proofs.FilledAttributes
import VueToSan.Proofs.ForeignOperators
import VueToSan.Proofs.AdmittedHeads
import VueToSan.Proofs.AdmittedTemplates
import VueToSan.Proofs.Listeners
import VueToSan.Proofs.ReadLoops
import VueToSan.Proofs.DynamicComponents
import VueToSan.Proofs.ChainedSiblings
import VueToSan.Proofs.ReadProgress
import VueToSan.Proofs.FaithfulSpans
import VueToSan.Proofs.SanReading
import VueToSan.Proofs.FoldedElses
import VueToSan.Proofs.StrayEndTags
import VueToSan.Proofs.StableTokens
import VueToSan.Proofs.Derivations
import VueToSan.Proofs.BracketedTokens
import VueToSan.Proofs.OuterBars
import VueToSan.Proofs.NestedLocations
import VueToSan.Proofs.TextContent
import VueToSan.Proofs.TemplatePieces
import VueToSan.Proofs.MovedParses
import VueToSan.Proofs.InterpolatedCode
import VueToSan.Proofs.SignedNumbers
import VueToSan.Proofs.StrippedTrees
import VueToSan.Proofs.ArgumentCode
import VueToSan.Proofs.HelperCalls
import VueToSan.Proofs.SanitisedContent
import VueToSan.Proofs.AssignableCode
import VueToSan.Proofs.NormalValues
import VueToSan.Proofs.TemplateSums
import VueToSan.Proofs.QuotedTokens
import VueToSan.Proofs.InlineStyles
import VueToSan.Proofs.WrittenAttributes
import VueToSan.Proofs.NumericTexts
import VueToSan.Proofs.CodeUnits
import VueToSan.Proofs.UnicodeEscapes
import VueToSan.Proofs.LinePositions
import VueToSan.Proofs.MinimalDecimals
import VueToSan.Proofs.NumberLayouts
import VueToSan.Proofs.MergedAttributes
