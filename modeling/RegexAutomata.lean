import RegexAutomata.Automaton.Listing
import RegexAutomata.Duration
import RegexAutomata.Generator
import RegexAutomata.Main
import RegexAutomata.Proofs.Automaton.ClosureSearch
import RegexAutomata.Proofs.Automaton.RepeatedComplement
import RegexAutomata.Proofs.Compile.Combination
import RegexAutomata.Proofs.Compile.ComplementMemory
import RegexAutomata.Proofs.Compile.Malformed
import RegexAutomata.Proofs.Compile.Numbers
import RegexAutomata.Proofs.Compile.Patterns
import RegexAutomata.Proofs.Compile.Uninversion
import RegexAutomata.Proofs.Pattern.BoundsReadings
import RegexAutomata.Proofs.Pattern.Slices
import RegexAutomata.Proofs.Pattern.Stages
import RegexAutomata.Proofs.Session.CanonicalForm
import RegexAutomata.Proofs.Session.Faults
import RegexAutomata.Proofs.Session.Isolation
import RegexAutomata.Proofs.Session.LiteralSearch
import RegexAutomata.Proofs.Session.Operations
import RegexAutomata.Proofs.Shell.Essential
import RegexAutomata.Proofs.Shell.Switches
import RegexAutomata.Search
import RegexAutomata.Session.Remark
import RegexAutomata.Session.Run
import RegexAutomata.Shell.Completion
import RegexAutomata.Shell.Launch
import RegexAutomata.Text.Quoted
