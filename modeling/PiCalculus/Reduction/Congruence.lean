import PiCalculus.Binding
import PiCalculus.Store.Basic

/-! Tidying by structural congruence: restrictions of names that are not used go, and so does what
does nothing. -/

namespace PiCalculus.Process

variable {ν : Type}

/-- A name at a node: restricted there, or otherwise used. -/
inductive Mention (ν : Type)
  | restricted (name : ν)
  | used (name : ν)
deriving DecidableEq

def Mention.name : Mention ν → ν
  | restricted n | used n => n

def rootMentions : Process ν → List (Mention ν)
  | restrict name _ => [.restricted name]
  | p => p.rootNames.map .used

/-- All mentions in the order in which the nodes are met breadth-first. -/
def mentions (p : Process ν) : List (Mention ν) := p.breadthFirst.flatMap rootMentions

/-- Whether the first restriction of a name is the only mention of it from there on. -/
def isUnused [DecidableEq ν] (mentions : List (Mention ν)) (n : ν) : Bool :=
  (mentions.dropWhile (· ≠ .restricted n)).countP (·.name = n) = 1

/-- Leaves out restrictions but not their bodies. -/
def dropRestrictions (drop : ν → Bool) : Process ν → Process ν
  | nil => nil
  | send chan values => send chan values
  | receive chan vars body => receive chan vars (body.dropRestrictions drop)
  | par ps => par (ps.map (dropRestrictions drop))
  | replicate body => replicate (body.dropRestrictions drop)
  | restrict name body =>
    if drop name then body.dropRestrictions drop else restrict name (body.dropRestrictions drop)
termination_by p => sizeOf p

/-- The restricted names, those further in first. -/
def restrictedNames : Process ν → List ν
  | nil | send .. => []
  | receive _ _ body | replicate body => body.restrictedNames
  | par ps => ps.flatMap restrictedNames
  | restrict name body => body.restrictedNames ++ [name]
termination_by p => sizeOf p

/-- Takes `0` out of compositions, which may dissolve them, and does without replications and
restrictions of it. -/
def prune : Process ν → Process ν
  | nil => nil
  | send chan values => send chan values
  | receive chan vars body => receive chan vars body.prune
  | par ps =>
    match (ps.map prune).filter (!·.isNil) with
    | [] => nil
    | [p] => p
    | qs => par qs
  | replicate body =>
    match body.prune with
    | nil => nil
    | q => replicate q
  | restrict name body =>
    match body.prune with
    | nil => nil
    | q => restrict name q
termination_by p => sizeOf p

variable [DecidableEq ν] (label : ν → String)

/-- Resolves all occurrences, drops the restrictions of names that are not used then, and prunes. -/
def simplify (p : Process ν) : Process ν :=
  let bound := p.bind label
  (bound.dropRestrictions (isUnused bound.mentions)).prune

def simplifyEvents (p : Process ν) : List Event :=
  let bound := p.bind label
  let mentions := bound.mentions
  p.hidden label ++
    (bound.restrictedNames.filter (isUnused mentions)).map fun n => .droppedRestriction (label n)

end PiCalculus.Process
