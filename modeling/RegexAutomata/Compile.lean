/-
From a canonical pattern to an automaton.

A machine with a stack of automata carries out the instructions of a pattern: it pushes
the automaton of an atom, or takes the operands of an operator from the stack and puts
back what the operator makes of them.  In the end one automaton must be left.
-/
import RegexAutomata.Automaton.Subset
import RegexAutomata.Pattern.Postfix

namespace RegexAutomata

/-- Why the machine stops. -/
inductive Halt where
  /-- Something is wrong at an index of the pattern. -/
  | stop (s : Stop)
  /-- An operand is inverted, but not known to be deterministic. -/
  | notDeterministic
deriving DecidableEq, Repr

/-- Why no automaton is made. -/
inductive BuildError where
  | pattern (e : PatternError)
  /-- An operand is inverted, but not known to be deterministic. -/
  | notDeterministic
deriving DecidableEq, Repr

/-- The error that reports why the machine stopped. -/
def Halt.toError (t : Text) : Halt → BuildError
  | stop s => .pattern (s.toError t)
  | notDeterministic => .notDeterministic

/-- Puts on the stack what an operator has made, if it could be applied. -/
def pushResult (stack : List Automaton) :
    Builder × Option Automaton → Builder × Except Halt (List Automaton)
  | (b, some a) => (b, .ok (a :: stack))
  | (b, none) => (b, .error .notDeterministic)

/-- Carries out one instruction.  The stack has its top first; complements are taken over
the given symbols. -/
def Instr.exec (symbols : List Symbol) (b : Builder) (stack : List Automaton) :
    Instr → Builder × Except Halt (List Automaton)
  | .push a =>
    let (b, x) := b.atom a
    (b, .ok (x :: stack))
  | .apply k o =>
    match o, stack with
    | .concat, second :: first :: rest => pushResult rest (b.concatenate? first second)
    | .union, second :: first :: rest => pushResult rest (b.union? first second)
    | .star, operand :: rest => pushResult rest (b.star? operand)
    | .complement, operand :: rest =>
      let (b, x) := b.complement symbols operand
      (b, .ok (x :: rest))
    | .opening, _ :: _ => (b, .error (.stop ⟨k, .unmatched⟩))
    | .closing, _ :: _ => (b, .error (.stop ⟨k, .unmatched⟩))
    | o, _ => (b, .error (.stop ⟨k, .missingOperand o.char⟩))

/-- Carries out instructions until one of them fails. -/
def runInstrs (symbols : List Symbol) (b : Builder) (stack : List Automaton) :
    List Instr → Builder × Except Halt (List Automaton)
  | [] => (b, .ok stack)
  | i :: is =>
    match i.exec symbols b stack with
    | (b, .ok stack) => runInstrs symbols b stack is
    | (b, .error h) => (b, .error h)

/-- The automaton that is left on the stack, if it is the only one. -/
def onlyOperand (t : Text) : List Automaton → Except BuildError Automaton
  | [a] => .ok a
  | [] => .error (.pattern (.ofWhole .emptyExpression t))
  | _ :: _ :: _ => .error (.pattern (.ofWhole .missingOperator t))

namespace Builder

/-- The automaton of a canonical pattern.  Numbering starts anew; the builder keeps what
has been built even if the pattern turns out to be wrong. -/
def compile (b : Builder) (alphabet : Alphabet) (t : Text) :
    Builder × Except BuildError Automaton :=
  let program := Program.ofText alphabet t
  -- what comes before a fault is carried out first, and may fail on its own
  match runInstrs alphabet.operating { b with nextId := 0 } [] program.instrs with
  | (b, .error h) => (b, .error (h.toError t))
  | (b, .ok stack) =>
    match program.stop with
    | some s => (b, .error (.pattern (s.toError t)))
    | none => (b, onlyOperand t stack)

end Builder

end RegexAutomata
