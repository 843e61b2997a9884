/-
Canonical patterns in postfix order.

`Program.ofTokens` turns tokens into instructions for a machine with a stack of operands:
push an atom, or apply an operator to the topmost operands.  Operators wait on a stack
of their own until precedence or a closing parenthesis lets them go; an opening
parenthesis is never applied.  Whether the operands suffice is for the machine to find
out, so that of two faults the one that comes first in this order is reported.
-/
import RegexAutomata.Pattern.Token

namespace RegexAutomata

/-- An instruction for the machine that builds automata. -/
inductive Instr where
  /-- Push the automaton of an atom. -/
  | push (a : Atom)
  /-- Apply the operator that stands at an index of the pattern. -/
  | apply (position : Nat) (o : Operator)
deriving DecidableEq, Repr

/-- An operator that waits for its operands, and its index. -/
abbrev Waiting := Nat × Operator

/-- Instructions, and what ends them if the pattern is not well formed. -/
structure Program where
  instrs : List Instr
  stop : Option Stop
deriving DecidableEq, Repr

namespace Program

/-- Instructions in front of others. -/
def prepend (is : List Instr) (p : Program) : Program := { p with instrs := is ++ p.instrs }

/-- Applies waiting operators in turn. -/
def applyAll (ws : List Waiting) : List Instr := ws.map fun w => .apply w.1 w.2

/-- Does this operator wait inside the innermost open group? -/
def inGroup (w : Waiting) : Bool := w.2 != .opening

/-- Instructions for the rest of the tokens, where `waiting` operators, the last one
first, have not been applied yet. -/
def ofTokens (waiting : List Waiting) (stop : Option Stop) : List (Nat × Token) → Program
  | [] =>
    match stop with
    | some s => ⟨[], some s⟩
    | none =>
      ⟨applyAll (waiting.takeWhile inGroup),
        (waiting.dropWhile inGroup).head?.map fun w => ⟨w.1, .unclosed⟩⟩
  | (_, .atom a) :: ts => prepend [.push a] (ofTokens waiting stop ts)
  | (k, .op .closing) :: ts =>
    -- the opening parenthesis is dropped and the operators before it go on waiting
    match waiting.dropWhile inGroup with
    | [] => ⟨applyAll waiting, some ⟨k, .unmatchedClosing⟩⟩
    | _ :: outer => prepend (applyAll (waiting.takeWhile inGroup)) (ofTokens outer stop ts)
  | (k, .op o) :: ts =>
    let before := fun w : Waiting => w.2.precedes o
    prepend (applyAll (waiting.takeWhile before))
      (ofTokens ((k, o) :: waiting.dropWhile before) stop ts)

/-- The instructions for a canonical pattern. -/
def ofText (a : Alphabet) (t : Text) : Program :=
  let s := scan a t
  ofTokens [] s.stop s.tokens

end Program

end RegexAutomata
