import PiCalculus.Binding
import PiCalculus.Code.Emission
import PiCalculus.Reduction.Run
import PiCalculus.Sorting
import PiCalculus.Store.Extent
import PiCalculus.Typing

/-! The operations on a process over a store. Each leaves a process and a store behind also where it
fails, and tells what it noticed. -/

namespace PiCalculus

inductive Operation
  | bind
  | identifySorts
  | inferSortsBySpelling
  | resetSorts
  | makeUnique
  | infer
  | unify
  /-- Binds, infers and unifies. -/
  | check
  /-- At most one communication, without tidying up after it. -/
  | reduceOnce
  | reduce (maxSteps : Nat)
  | simplify
  | substitute (vars values : List String)
  /-- Checks and writes Go, wrapped as the options say if there are any. The text must not be longer
  than the limit. -/
  | generate (options : Option Code.Options) (limit : Option Nat)

namespace Operation

inductive Value
  | none
  | flag (value : Bool)
  | count (value : Nat)
  | text (value : String)

/-- What an operation leaves behind, what it answers or why it failed, and what it told. -/
structure Outcome where
  process : Process Name
  store : Store
  result : Except Error Value
  events : List Event

/-- A text that must not be longer than the limit. It is not made where `mayFit` denies that there
is enough room for it. -/
def fit (limit : Option Nat) (mayFit : Nat → Bool) (text : Unit → String) :
    Except Error String :=
  match limit with
  | none => .ok (text ())
  | some most =>
    if mayFit most then
      let text := text ()
      if text.utf8ByteSize ≤ most then .ok text else .error .format
    else .error .format

theorem fit_eq (limit : Option Nat) (mayFit : Nat → Bool) (text : Unit → String)
    (mayFit_of_le : ∀ most, (text ()).utf8ByteSize ≤ most → mayFit most) :
    fit limit mayFit text =
      if ∀ most ∈ limit, (text ()).utf8ByteSize ≤ most then .ok (text ()) else .error .format := by
  cases limit with
  | none => simp [fit]
  | some most => grind [fit]

/-- Whether there may be room for a text with these types in it. -/
def mayFit (s : Store) (types : List (Ty Name)) (most : Nat) : Bool :=
  types.all (s.isWithin (most + 1))

def ofWritten (p : Process Name) (w : Written) : Outcome :=
  ⟨p, w.store, w.result.map fun _ => .none, []⟩

/-- Resolves the occurrences, after which names that nothing holds any more are dropped, and finds
the types. `held` are the names that are held from elsewhere. -/
def typecheck (held : List Name) (s : Store) (p : Process Name) : Outcome :=
  let bound := p.bind s.label
  let s' := s.retain (held ++ bound.occurrences)
  { ofWritten bound (s'.inferAndUnify bound) with events := p.hidden s.label }

/-- Performs an operation. `held` are the names that are held from elsewhere than the process. -/
def run (op : Operation) (held : List Name) (s : Store) (p : Process Name) : Outcome :=
  match op with
  | bind => ⟨p.bind s.label, s, .ok .none, p.hidden s.label⟩
  | identifySorts => ofWritten p (s.identifySorts p)
  | inferSortsBySpelling => ofWritten p (s.inferSortsBySpelling p)
  | resetSorts => ofWritten p (s.resetSorts p)
  | makeUnique => ofWritten p (s.makeUnique p)
  | infer => ofWritten p (s.infer p)
  | unify => ofWritten p (s.unify p)
  | check => typecheck held s p
  | reduceOnce =>
    match s.reduceOnce p with
    | .error e => ⟨p, s, .error e, []⟩
    | .ok none => ⟨p, s, .ok (.flag false), []⟩
    | .ok (some q) => ⟨q.process, q.store, .ok (.flag true), [.communication q.chan]⟩
  | reduce maxSteps =>
    let r := s.reduce p maxSteps
    ⟨r.process, r.store, match r.failure with | none => .ok (.count r.steps) | some e => .error e,
      r.events⟩
  | simplify => ⟨p.simplify s.label, s, .ok .none, p.simplifyEvents s.label⟩
  | substitute vars values => ofWritten p (s.substitute p vars values)
  | generate options limit =>
    let checked := typecheck held s p
    let code := do
      let _ ← checked.result
      let block := checked.store.block checked.process
      let types := block.flatMap Code.Statement.types
      return .text (← fit limit (mayFit checked.store types) fun _ =>
        Code.wrap options (s.calculi p) (Code.render checked.store.renderType block))
    { checked with result := code }

end Operation

end PiCalculus
