import BrailleScore.Main
import BrailleScore.Sign.Presentation
import BrailleScore.Proofs.OctaveOmission
import BrailleScore.Proofs.RepeatReading
import BrailleScore.Proofs.FaultPlace
import BrailleScore.Proofs.NoteCount
import BrailleScore.Proofs.LastPitchScope
import BrailleScore.Proofs.Sessions
import BrailleScore.Proofs.Reflow
import BrailleScore.Proofs.Interleaving
import BrailleScore.Proofs.PartSequence
import BrailleScore.Proofs.PolicyRefinement
import BrailleScore.Proofs.AsciiExport
import BrailleScore.Proofs.HandSigns
import BrailleScore.Proofs.HandedStaves
import BrailleScore.Proofs.Abbreviation
import BrailleScore.Proofs.MaximalCut
import BrailleScore.Proofs.Loading
import BrailleScore.Proofs.CommandLine
import BrailleScore.Proofs.Grouping
import BrailleScore.Proofs.MeasureVoices
import BrailleScore.Proofs.PageRefinement
import BrailleScore.Proofs.SignStream
import BrailleScore.Proofs.RunLengths
import BrailleScore.Proofs.AsciiFaults
import BrailleScore.Proofs.TupletTable
import BrailleScore.Proofs.StaffDivision
import BrailleScore.Proofs.TupletStarts
import BrailleScore.Proofs.OffsetOrder
import BrailleScore.Proofs.ChangesInEffect
import BrailleScore.Proofs.VoiceNames
import BrailleScore.Proofs.BinaryQuotient
import BrailleScore.Proofs.MeanPitch
import BrailleScore.Proofs.DotPatterns
import BrailleScore.Proofs.UpperNumbers
