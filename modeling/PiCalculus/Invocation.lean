import PiCalculus.Repl
import PiCalculus.Text.Point

/-! The arguments of the program, and what it does with them. -/

namespace PiCalculus

inductive Invocation.Action
  | file (command : FileCommand) (name : String)
  | interactive

structure Invocation where
  verbose : Bool
  plain : Bool
  action : Invocation.Action

namespace Invocation

/-- The arguments as they have been read so far. -/
structure Draft where
  verbose : Bool
  plain : Bool
  main : Bool
  debug : Bool
  maxSteps : Nat
  /-- The words that are no options. -/
  words : List String

/-- A count of steps: digits, perhaps after a plus sign, that make a number of at most 64 bits. -/
def count? (text : String) : Option Nat :=
  let digits : List Char := match text.toList with
    | '+' :: cs => cs
    | cs => cs
  let number : Nat := digits.foldl (fun n c => 10 * n + (c.toNat - '0'.toNat)) 0
  if digits ≠ [] ∧ digits.all Char.isDigit ∧ number ≤ 0xFFFFFFFFFFFFFFFF then some number else none

/-- Reads arguments. Options stand anywhere. -/
def Draft.read? (d : Draft) : List String → Option Draft
  | [] => some d
  | "-v" :: rest | "--verbose" :: rest => { d with verbose := true }.read? rest
  | "--no-colour" :: rest => { d with plain := true }.read? rest
  | "--main" :: rest => { d with main := true }.read? rest
  | "--debug" :: rest => { d with debug := true }.read? rest
  | "--steps" :: number :: rest =>
    (count? number).bind fun maxSteps => { d with maxSteps }.read? rest
  | arg :: rest =>
    if "--steps=".isPrefixOf arg then
      (count? (String.ofList (arg.toList.drop "--steps=".length))).bind fun maxSteps =>
        { d with maxSteps }.read? rest
    else if "-".isPrefixOf arg ∧ arg ≠ "-" then none
    else { d with words := d.words ++ [arg] }.read? rest

/-- The command of a draft, if its words are one. -/
def Draft.action? (d : Draft) : Option Action :=
  match d.words with
  | [] | ["repl"] => some .interactive
  | ["parse", file] => some (.file .parse file)
  | ["reduce", file] => some (.file (.reduce d.maxSteps) file)
  | ["show", file] => some (.file .list file)
  | ["types", file] => some (.file .types file)
  | ["codegen", file] => some (.file (.codegen ⟨d.main, d.debug⟩) file)
  | _ => none

/-- The invocation that arguments stand for. -/
def ofArgs? (args : List String) : Option Invocation := do
  let d ← Draft.read? ⟨false, false, false, false, 100, []⟩ args
  return ⟨d.verbose, d.plain, ← d.action?⟩

/-- How the invocation has the program write, on a terminal with colours or without. -/
def style (i : Invocation) (colours : Bool) : Style := ⟨colours && !i.plain, i.verbose⟩

/-- Runs the program on files and on the text of its input. -/
def run (i : Invocation) (colours : Bool) (read : Reader) (input : String) : Exit :=
  match i.action with
  | .file command name => command.runFile (i.style colours) read name
  | .interactive =>
    ⟨Repl.start.run (i.style colours) read ((lines input.toList).map .ofList), 0⟩

end Invocation

end PiCalculus
