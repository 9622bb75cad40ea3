import Script.Main
import Script.Proofs.Command.Emission
import Script.Proofs.Command.Rejection
import Script.Proofs.Document.Settling
import Script.Proofs.Parser.Containment
import Script.Proofs.Parser.Limits
import Script.Proofs.Parser.Recovery
import Script.Proofs.Run.Isolation
import Script.Proofs.Run.Layout
import Script.Proofs.Run.Loops
import Script.Proofs.Run.Reporting
import Script.Proofs.Run.Tracing
import Script.Proofs.Token.Assembly
import Script.Proofs.Token.Numerals
import Script.Proofs.Token.Positions
