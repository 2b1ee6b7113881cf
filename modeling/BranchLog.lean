import BranchLog.Main
import BranchLog.Proofs.ByteOrder
import BranchLog.Proofs.Counting
import BranchLog.Proofs.ShortLines
import BranchLog.Proofs.ScanCounts
import BranchLog.Proofs.Joining
import BranchLog.Proofs.Survey
import BranchLog.Proofs.Chains
import BranchLog.Proofs.WalkChains
import BranchLog.Proofs.WalkFailure
import BranchLog.Proofs.ListedFiles
import BranchLog.Proofs.WalkSteps
import BranchLog.Proofs.Strictness
import BranchLog.Proofs.ScanFailure
import BranchLog.Proofs.JsonGrammar
import BranchLog.Proofs.JsonAtoms
import BranchLog.Proofs.JsonReader
import BranchLog.Proofs.JsonReport
import BranchLog.Proofs.Delimited
import BranchLog.Proofs.YamlScalars
import BranchLog.Proofs.YamlReport
import BranchLog.Proofs.LineStarts
import BranchLog.Proofs.Warnings
import BranchLog.Proofs.TallyHistory
import BranchLog.Proofs.LineGrammar
import BranchLog.Proofs.ReadingParts
import BranchLog.Proofs.LineEnds
import BranchLog.Proofs.ArgumentShapes
import BranchLog.Proofs.CommandLine
import BranchLog.Proofs.Refusals
import BranchLog.Proofs.Endings
import BranchLog.Proofs.Listing
import BranchLog.Proofs.YamlLines
import BranchLog.Proofs.CoreSchema
import BranchLog.Proofs.PlainNumbers
import BranchLog.Proofs.SamePlace
import BranchLog.Proofs.SameScan
