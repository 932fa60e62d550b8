import LayeredConfig.Disk
import LayeredConfig.Edit
import LayeredConfig.Loader.Report
import LayeredConfig.LogTarget
import LayeredConfig.Proofs.Accounting
import LayeredConfig.Proofs.ContinuedEditing
import LayeredConfig.Proofs.DocumentEditing
import LayeredConfig.Proofs.DocumentMerging
import LayeredConfig.Proofs.Externals
import LayeredConfig.Proofs.FirstWrite
import LayeredConfig.Proofs.IndependentSources
import LayeredConfig.Proofs.KeyPaths
import LayeredConfig.Proofs.LeafCase
import LayeredConfig.Proofs.LoadEnds
import LayeredConfig.Proofs.LoadOrder
import LayeredConfig.Proofs.NullEdits
import LayeredConfig.Proofs.ReferencedKeys
import LayeredConfig.Proofs.RepeatedOverlays
import LayeredConfig.Proofs.Repetition
import LayeredConfig.Proofs.StoreLaws
import LayeredConfig.Proofs.TrackerHistory
import LayeredConfig.Proofs.UnusableFiles
import LayeredConfig.Proofs.Provenance
import LayeredConfig.Proofs.LoweredTrees
import LayeredConfig.Proofs.AppendedLists
import LayeredConfig.Proofs.LastRecord
import LayeredConfig.Proofs.FlattenedTrees
import LayeredConfig.Proofs.ListedPairs
import LayeredConfig.Proofs.ResolvedNames
import LayeredConfig.Proofs.WrittenLines
import LayeredConfig.Proofs.RepeatedEditing
import LayeredConfig.Proofs.SpelledSettings
import LayeredConfig.Proofs.UnderscoreRows
import LayeredConfig.Proofs.UnrelatedEdits
import LayeredConfig.Proofs.SinglePass
import LayeredConfig.Proofs.QuotedLines
import LayeredConfig.Proofs.CutTexts
import LayeredConfig.Proofs.ScalarGrammar
import LayeredConfig.Proofs.IncludeTargets
