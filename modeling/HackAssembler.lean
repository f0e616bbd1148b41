import HackAssembler.Main
import HackAssembler.Proofs.Judgement
import HackAssembler.Proofs.Operands
import HackAssembler.Proofs.FirstPass
import HackAssembler.Proofs.Allocation
import HackAssembler.Proofs.SurveyTable
import HackAssembler.Proofs.Statements
import HackAssembler.Proofs.SecondPass
import HackAssembler.Proofs.Resolution
import HackAssembler.Proofs.Verdict
import HackAssembler.Proofs.Binary
import HackAssembler.Proofs.Denotation
import HackAssembler.Proofs.WrittenForm
import HackAssembler.Proofs.Disassembly
import HackAssembler.Proofs.Correspondence
import HackAssembler.Proofs.SymbolNames
import HackAssembler.Proofs.Layout
import HackAssembler.Proofs.Acceptance
import HackAssembler.Proofs.Displacement
import HackAssembler.Proofs.Extension
import HackAssembler.Proofs.Linking
import HackAssembler.Proofs.References
import HackAssembler.Proofs.Quotations
import HackAssembler.Proofs.History
import HackAssembler.Proofs.JoinedTable
import HackAssembler.Proofs.FieldCuts
import HackAssembler.Proofs.AddressForm
import HackAssembler.Proofs.ComputeForm
import HackAssembler.Proofs.Runs
import HackAssembler.Proofs.CommandLine
import HackAssembler.Proofs.OutputNames
import HackAssembler.Proofs.Dependence
import HackAssembler.Proofs.LineBreaks
import HackAssembler.Proofs.LineForm
import HackAssembler.Proofs.Terminal
import HackAssembler.Proofs.ListingRows
import HackAssembler.Proofs.Columns
import HackAssembler.Proofs.ListingText
import HackAssembler.Proofs.AcceptedWords
import HackAssembler.Proofs.Counters
