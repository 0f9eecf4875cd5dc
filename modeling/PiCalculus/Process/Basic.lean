/-! Processes of the asynchronous π-calculus over any kind of names, and the orders in which their
nodes and the occurrences of their names are met. -/

namespace PiCalculus

/-- A process whose names are of the type `ν`. -/
inductive Process (ν : Type) where
  | nil
  /-- `chan<values>` -/
  | send (chan : ν) (values : List ν)
  /-- `chan(vars).body` -/
  | receive (chan : ν) (vars : List ν) (body : Process ν)
  | par (components : List (Process ν))
  /-- `!body` -/
  | replicate (body : Process ν)
  /-- `(new name)body` -/
  | restrict (name : ν) (body : Process ν)
deriving Inhabited

namespace Process

variable {ν μ : Type}

/-- `(new a,b,c)P`: one restriction inside the other, the first outermost. -/
def restrictAll (names : List ν) (body : Process ν) : Process ν := names.foldr restrict body

def isPar : Process ν → Bool
  | par _ => true
  | _ => false

def isNil : Process ν → Bool
  | nil => true
  | _ => false

def map (f : ν → μ) : Process ν → Process μ
  | nil => nil
  | send chan values => send (f chan) (values.map f)
  | receive chan vars body => receive (f chan) (vars.map f) (body.map f)
  | par ps => par (ps.map (map f))
  | replicate body => replicate (body.map f)
  | restrict name body => restrict (f name) (body.map f)
termination_by p => sizeOf p

/-- Like `map` with effects, which happen in the order of `occurrences`. -/
def mapM {m : Type → Type} [Monad m] (f : ν → m μ) : Process ν → m (Process μ)
  | nil => return nil
  | send chan values => return send (← f chan) (← values.mapM f)
  | receive chan vars body => return receive (← f chan) (← vars.mapM f) (← body.mapM f)
  | par ps => return par (← ps.attach.mapM fun ⟨p, _⟩ => p.mapM f)
  | replicate body => return replicate (← body.mapM f)
  | restrict name body => return restrict (← f name) (← body.mapM f)
termination_by p => sizeOf p

/-- The immediate subprocesses from left to right. -/
def children : Process ν → List (Process ν)
  | nil | send .. => []
  | par ps => ps
  | receive _ _ body | replicate body | restrict _ body => [body]

/-- The names that stand at the root: a channel before what it carries. -/
def rootNames : Process ν → List ν
  | send chan names | receive chan names _ => chan :: names
  | restrict name _ => [name]
  | nil | par _ | replicate _ => []

/-- All names in the order in which the process is written. -/
def occurrences : Process ν → List ν
  | nil => []
  | send chan values => chan :: values
  | receive chan vars body => chan :: (vars ++ body.occurrences)
  | par ps => ps.flatMap occurrences
  | replicate body => body.occurrences
  | restrict name body => name :: body.occurrences
termination_by p => sizeOf p

def height : Process ν → Nat
  | nil | send .. => 1
  | par ps => (ps.map height).foldr max 0 + 1
  | receive _ _ body | replicate body | restrict _ body => body.height + 1
termination_by p => sizeOf p

/-- So many generations of nodes, the given one first. -/
def generations : Nat → List (Process ν) → List (Process ν)
  | 0, _ => []
  | n + 1, ps => ps ++ generations n (ps.flatMap children)

/-- The process and all its subprocesses, generation by generation and each from left to right. -/
def breadthFirst (p : Process ν) : List (Process ν) := generations p.height [p]

/-- All names in the order in which the nodes are met breadth-first. -/
def walk (p : Process ν) : List ν := p.breadthFirst.flatMap rootNames

/-- The subprocess at the end of a way down that is given by the numbers of the children. -/
def at? : Process ν → List Nat → Option (Process ν)
  | p, [] => some p
  | p, i :: path => p.children[i]?.bind (·.at? path)

/-- Puts another process at the end of a way down; a way that leads nowhere changes nothing. -/
def replaceAt : Process ν → List Nat → Process ν → Process ν
  | _, [], new => new
  | par ps, i :: path, new => par (ps.modify i (·.replaceAt path new))
  | receive chan vars body, 0 :: path, new => receive chan vars (body.replaceAt path new)
  | replicate body, 0 :: path, new => replicate (body.replaceAt path new)
  | restrict name body, 0 :: path, new => restrict name (body.replaceAt path new)
  | p, _ :: _, _ => p

theorem map_id (p : Process ν) : p.map id = p := by
  fun_induction map id p with
  | case4 ps ih => exact congrArg par ((List.map_congr_left ih).trans (List.map_id' ps))
  | _ => simp_all

theorem map_map {κ : Type} (f : ν → μ) (g : μ → κ) (p : Process ν) :
    (p.map f).map g = p.map (g ∘ f) := by
  fun_induction map f p <;> simp_all [map]

theorem occurrences_map (f : ν → μ) (p : Process ν) :
    (p.map f).occurrences = p.occurrences.map f := by
  fun_induction map f p with
  | case4 ps ih =>
    rw [occurrences, occurrences, List.flatMap_map, List.map_flatMap]
    simp only [List.flatMap_def, List.map_congr_left ih]
  | _ => simp_all [occurrences]

end Process

end PiCalculus
