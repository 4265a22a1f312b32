import NewtonScript.Tree.Printer
import NewtonScript.Main
import NewtonScript.Proofs.Machine.Preservation
import NewtonScript.Proofs.Compiler.WellFormed
import NewtonScript.Proofs.Compiler.LoopExit
import NewtonScript.Proofs.Code.Building
import NewtonScript.Proofs.Compiler.CaseInsensitive
import NewtonScript.Proofs.Scope.InForce
import NewtonScript.Proofs.Compiler.FirstCommand
import NewtonScript.Proofs.Compiler.GrowingArrays
import NewtonScript.Proofs.Compiler.Counts
import NewtonScript.Proofs.Compiler.Integers
import NewtonScript.Proofs.Token.Separators
import NewtonScript.Proofs.Token.Positions
import NewtonScript.Proofs.Token.Numerals
import NewtonScript.Proofs.Emission.Local
import NewtonScript.Proofs.Sessions
