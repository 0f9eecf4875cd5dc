import Mathlib
import PiCalculus.Operation
import PiCalculus.Proofs.Binding.Resolution

/-! The bindings that are in force at a node are those of the nodes around it, and the innermost one
of a label counts. Binding a process puts it for every occurrence of its label. The components of a
composition stand beside one another and never around one another. -/

namespace PiCalculus

namespace Process

variable {ν : Type} (label : ν → String)

/-- The nodes that a way down passes before its end, the innermost first. -/
def enclosing : Process ν → List Nat → List (Process ν)
  | _, [] => []
  | p, i :: path => (p.children[i]?.elim [] fun q => q.enclosing path) ++ [p]

/-- The variable of a label; the last one of equal labels counts. -/
def varFor? (vars : List ν) (l : String) : Option ν := (vars.filter fun v => label v = l).getLast?

/-- What is in force for a label inside nodes, the innermost first. A restriction binds its name, and
a receive its variables. Where nothing is in force for the channel of a receive, it binds this too. -/
def inForce : List (Process ν) → String → Option ν
  | [], _ => none
  | .restrict name _ :: around, l => if label name = l then some name else inForce around l
  | .receive chan vars _ :: around, l =>
    (varFor? label vars l).or ((inForce around l).or (if label chan = l then some chan else none))
  | _ :: around, l => inForce around l

variable {label} {scope : Scope ν} {around : List (Process ν)}

theorem lookup_reverse (vars : List ν) (n : ν) :
    Scope.lookup label vars.reverse n = varFor? label vars (label n) := by
  rw [Scope.lookup, varFor?, ← List.head?_filter, List.filter_reverse, List.head?_reverse]

/-- Whether a scope holds what is in force inside some nodes. -/
def Holds (label : ν → String) (scope : Scope ν) (around : List (Process ν)) : Prop :=
  ∀ n, scope.lookup label n = inForce label around (label n)

theorem Holds.resolve (h : Holds label scope around) (n : ν) :
    scope.resolve label n = (inForce label around (label n)).getD n := by
  rw [Scope.resolve, h n]

theorem Holds.receive (h : Holds label scope around) (vars : List ν) (n : ν) :
    (scope.receive label vars).lookup label n =
      (varFor? label vars (label n)).or (inForce label around (label n)) := by
  rw [Scope.lookup_receive, Scope.lookup_append, lookup_reverse, h n]

/-- What is in force below a node. -/
def inside (label : ν → String) (scope : Scope ν) : Process ν → Scope ν
  | .receive chan vars _ => (scope.receive label vars).withChannel label chan
  | .restrict name _ => scope.restrict label name
  | _ => scope

theorem Holds.inside (h : Holds label scope around) (p : Process ν) :
    Holds label (p.inside label scope) (p :: around) := by
  intro n
  cases p with
  | receive chan vars body =>
    rw [Process.inside, Scope.lookup_withChannel, h.receive, inForce, Option.or_assoc]
  | restrict name body =>
    rw [Process.inside, Scope.lookup_restrict, inForce, ← h n]
    by_cases hl : label name = label n <;> simp [Scope.lookup, hl]
  | nil => exact h n
  | send chan values => exact h n
  | par ps => exact h n
  | replicate body => exact h n

theorem children_bindIn (p : Process ν) (scope : Scope ν) :
    (p.bindIn label scope).children = p.children.map (bindIn label (p.inside label scope)) := by
  cases p <;> simp [bindIn, children, inside]

/-- The node at the end of a way is bound by what is in force inside the nodes that the way passes. -/
theorem at?_bindIn {p q : Process ν} {path : List Nat} (hat : p.at? path = some q)
    (h : Holds label scope around) :
    ∃ inner, Holds label inner (p.enclosing path ++ around) ∧
      (p.bindIn label scope).at? path = some (q.bindIn label inner) := by
  induction path generalizing p scope around with
  | nil =>
    obtain rfl : p = q := by simpa [at?] using hat
    exact ⟨scope, by simpa [enclosing] using h, by simp [at?]⟩
  | cons i path ih =>
    rw [at?] at hat
    obtain ⟨child, hchild, hrest⟩ := Option.bind_eq_some_iff.mp hat
    obtain ⟨inner, hinner, hbound⟩ := ih hrest (h.inside p)
    refine ⟨inner, ?_, ?_⟩
    · rw [enclosing, hchild]
      simpa using hinner
    · rw [at?, children_bindIn, List.getElem?_map, hchild]
      exact hbound

end Process

open Process in
/-- Binding leaves labels, nodes and binders as they are, and every other occurrence becomes the
innermost binding of its label or stays what it is. -/
theorem Operation.bind_innermost (held : List Name) (s : Store) (p : Process Name) :
    let bound := (Operation.bind.run held s p).process
    (Operation.bind.run held s p).store = s ∧
      bound.map s.label = p.map s.label ∧ bound.binders = p.binders ∧
      (∀ path chan values, p.at? path = some (.send chan values) →
        let innermost := fun n => (inForce s.label (p.enclosing path) (s.label n)).getD n
        bound.at? path = some (.send (innermost chan) (values.map innermost))) ∧
      ∀ path chan vars body, p.at? path = some (.receive chan vars body) →
        let innermost := (varFor? s.label vars (s.label chan)).or
          (inForce s.label (p.enclosing path) (s.label chan))
        ∃ body', bound.at? path = some (.receive (innermost.getD chan) vars body') := by
  have hempty : Holds s.label [] [] := fun n => rfl
  refine ⟨rfl, map_bind s.label p, binders_bindIn s.label [] p, ?_, ?_⟩
  · intro path chan values hat
    obtain ⟨inner, hinner, hbound⟩ := at?_bindIn hat hempty
    rw [List.append_nil] at hinner
    rw [bindIn, funext hinner.resolve] at hbound
    exact hbound
  · intro path chan vars body hat
    obtain ⟨inner, hinner, hbound⟩ := at?_bindIn hat hempty
    rw [List.append_nil] at hinner
    rw [bindIn, Scope.resolve, hinner.receive] at hbound
    exact ⟨_, hbound⟩

end PiCalculus
