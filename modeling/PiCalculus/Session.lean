import PiCalculus.Operation
import PiCalculus.Process.Free
import PiCalculus.Table

/-! A session with several processes over one store. A name is alive as long as it is in the table
of the session or occurs in one of the processes. -/

namespace PiCalculus

structure Session where
  store : Store
  table : List Name
  registers : List (Process Name)

namespace Session

/-- How a request speaks of a name: by its place in the table, or by one of its occurrences in the
process. -/
inductive NameRef
  | listed (index : Nat)
  | occurrence (index : Nat)
  | absent

inductive Change
  | label (label : String)
  /-- There may be no sort of the name that was given. -/
  | sort (sort : Option NameSort)
  /-- References in the type are places in the table. -/
  | type (type : Ty Nat)

inductive Question
  | view
  | calculi
  | inspect
  | names
  | channelTypes
  | free
  | children
  | breadthFirst
  /-- Meets the names of the process until one has the given label. -/
  | walk (stop : Option String)
  | pretty (level : Nat) (limit : Option Nat)
  | name (name : NameRef)
  | compare (left right : NameRef)

inductive Request
  | act (operation : Operation)
  | write (name : NameRef) (change : Change)
  | ask (question : Question)
  /-- Copies the process to a new register. The names stay the same. -/
  | copy

/-- A request about the process in a register, or about a part of it. -/
structure Order where
  register : Nat
  path : List Nat
  request : Request

/-- Why a request came to nothing. -/
inductive Fault
  | noRegister
  | noSubprocess
  | noSuchName
  | noSuchSort
  | failed (error : Error)

/-- A process as it is shown after an operation. -/
structure View where
  calculi : String
  pretty : String
  ids : List Nat

/-- A process with the labels of its free names and variables. -/
structure FreeLabels where
  names : List String
  vars : List String

/-- What there is to say of one name. -/
structure Card where
  display : String
  label : String
  sort : NameSort
  hint : Option String
  constant : Bool
  span : Option Span
  free : FreeLabels
  isFree : Bool

inductive Answer
  | value (value : Operation.Value)
  | view (view : View)
  | texts (texts : List String)
  | names (names : List Listed) (ids : List Nat)
  | free (labels : FreeLabels)
  | breadthFirst (nodes : List (String × FreeLabels))
  | walk (seen : List String) (stopped : Option String)
  | card (card : Card)
  | comparison (same sameLabel : Bool)

/-- The answer or the fault, what was told meanwhile, and whether the request was to act on the
process, so that it may look different now. -/
structure Response where
  result : Except Fault Answer
  events : List Event
  acted : Bool

def view (s : Store) (p : Process Name) : View := ⟨s.calculi p, s.pretty 0 p, p.ids⟩

def view? (t : Session) (register : Nat) : Option View :=
  t.registers[register]?.map (view t.store)

def freeLabels (s : Store) (p : Process Name) : FreeLabels :=
  ⟨(p.freeNames s).map s.label, (p.freeVars s).map s.label⟩

def card (s : Store) (n : Name) : Card :=
  let labels := fun sort => (Process.ofSort s sort [n]).map s.label
  ⟨s.renderName n, s.label n, s.sort n, s.hint n, s.isConstant n, s.span n,
    ⟨labels .name, labels .var⟩, s.isFreeName n⟩

def findName (t : Session) (p : Process Name) : NameRef → Option Name
  | .listed i => t.table[i]?
  | .occurrence k => p.occurrences[k]?
  | .absent => none

/-- A process whose names are places in the table, and labels of new names. -/
abbrev Tree := Process (Nat ⊕ String)

/-- A session with declared names in its table, and one process. -/
def start (declarations : List Declaration) (tree : Tree) :
    Except DeclarationFault Session := do
  let (table, s) ← Declaration.declare declarations
  if tree.occurrences.all fun | .inl i => i < table.length | .inr _ => true then
    let (p, s) := (tree.mapM (m := StateM Store) fun
      | .inl i, s => (table.getD i default, s)
      | .inr label, s => s.add (.ordinary label)).run s
    return ⟨s, table, [p]⟩
  else throw .noSuchName

/-- A session with declared names in its table, and one process that was read from a text. -/
def startWith (declarations : List Declaration) (p : Process Occurrence) :
    Except DeclarationFault Session := do
  let (table, s) ← Declaration.declare declarations
  let (p, s) := s.load p
  return ⟨s, table, [p]⟩

/-- Drops the names that are neither in the table nor in a process. -/
def collect (t : Session) : Session :=
  { t with store := t.store.retain (t.table ++ t.registers.flatMap Process.occurrences) }

/-- The session after the process in a register has changed. -/
def update (t : Session) (register : Nat) (p : Process Name) (s : Store) : Session :=
  collect { t with store := s, registers := t.registers.set register p }

def act (t : Session) (register : Nat) (p : Process Name) (path : List Nat) (part : Process Name)
    (op : Operation) : Session × Response :=
  let elsewhere := (t.registers.eraseIdx register).flatMap Process.occurrences
  let held := t.table ++ elsewhere ++ (p.replaceAt path .nil).occurrences
  let outcome := op.run held t.store part
  let p' := p.replaceAt path outcome.process
  let t' := t.update register p' outcome.store
  (t', ⟨(outcome.result.map .value).mapError .failed, outcome.events, true⟩)

def change (t : Session) (n : Name) : Change → Except Fault Written
  | .label label => .ok (t.store.setLabel n label)
  | .sort none => .error .noSuchSort
  | .sort (some sort) => .ok (t.store.setSort n sort)
  | .type type =>
    match type.resolve? t.table with
    | some type => .ok (t.store.setType n type)
    | none => .error .noSuchName

def write (t : Session) (p : Process Name) (name : NameRef) (change : Change) :
    Session × Response :=
  let written : Except Fault Written :=
    match t.findName p name with
    | none => .error .noSuchName
    | some n => t.change n change
  match written with
  | .error fault => (t, ⟨.error fault, [], true⟩)
  | .ok w =>
    let result := (w.result.map fun _ => .value .none).mapError .failed
    ({ t with store := w.store }, ⟨result, [], true⟩)

def ask (t : Session) (p part : Process Name) (question : Question) : Except Fault Answer :=
  let s := t.store
  let text := fun text : String => Answer.value (.text text)
  match question with
  | .view => return .view (view s part)
  | .calculi => return text (s.calculi part)
  | .inspect => return text (s.inspect part)
  | .names => return .names (s.list part.names) part.ids
  | .channelTypes => return text (s.channelTypes part)
  | .free => return .free (freeLabels s part)
  | .children => return .texts (part.children.map s.calculi)
  | .breadthFirst =>
    return .breadthFirst (part.breadthFirst.map fun q => (s.calculi q, freeLabels s q))
  | .walk stop =>
    let labels := part.walk.map s.label
    return .walk (labels.takeWhile (some · ≠ stop)) (labels.find? (some · = stop))
  | .pretty level limit =>
    let mayFit := fun most => level ≤ most && Operation.mayFit s (part.occurrences.map s.type) most
    match Operation.fit limit mayFit fun _ => s.pretty level part with
    | .ok out => .ok (text out)
    | .error e => .error (.failed e)
  | .name name =>
    match t.findName p name with
    | some n => .ok (.card (card s n))
    | none => .error .noSuchName
  | .compare left right =>
    match t.findName p left, t.findName p right with
    | some n, some m => .ok (.comparison (n = m) (s.label n = s.label m))
    | _, _ => .error .noSuchName

def perform (t : Session) (order : Order) : Session × Response :=
  match t.registers[order.register]? with
  | none => (t, ⟨.error .noRegister, [], false⟩)
  | some p =>
    match p.at? order.path with
    | none => (t, ⟨.error .noSubprocess, [], false⟩)
    | some part =>
      match order.request with
      | .act op => t.act order.register p order.path part op
      | .write name change => t.write p name change
      | .ask question => (t, ⟨t.ask p part question, [], false⟩)
      | .copy =>
        ({ t with registers := t.registers ++ [p] },
          ⟨.ok (.value (.count t.registers.length)), [], false⟩)

end Session

end PiCalculus
