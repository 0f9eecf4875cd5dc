/-! The statements of Go that a process is written in, and their text. -/

namespace PiCalculus.Code

/-- A statement in which types are given by `τ`. -/
inductive Statement (τ : Type) where
  | finish
  /-- Declares a name and makes a channel of this type for it. -/
  | make (name : String) (type : τ)
  | declare (name : String) (type : τ)
  /-- Declares variables and takes their values from a channel, several out of one structure. -/
  | receive (chan : String) (vars : List String)
  /-- Puts a value on a channel, or an empty structure if there is none. -/
  | send (chan : String) (value : Option String)
  /-- Puts values on a channel in one structure whose fields have their types. -/
  | sendAll (chan : String) (values : List (String × τ))
  /-- Runs a block beside what follows. -/
  | spawn (body : List (Statement τ))
  | loop (body : List (Statement τ))

/-- The variable that holds a received structure. -/
def received : String := "rcvd"

def receiveText (chan : String) : List String → String
  | [] => "<-" ++ chan ++ ";"
  | [var] => var ++ " := <-" ++ chan ++ ";"
  | vars =>
    let fields := vars.mapIdx fun i _ => received ++ ".e" ++ toString i
    received ++ " := <-" ++ chan ++ ";" ++ ",".intercalate vars ++ ":="
      ++ ",".intercalate fields ++ ";"

variable {τ : Type} (typeText : τ → String)

def sendAllText (chan : String) (values : List (String × τ)) : String :=
  let fields := values.mapIdx fun i (_, type) => "e" ++ toString i ++ " " ++ typeText type
  chan ++ " <- struct \x7b" ++ ";".intercalate fields ++ "\x7d\x7b"
    ++ ",".intercalate (values.map (·.1)) ++ "\x7d"

def Statement.render : Statement τ → String
  | finish => "/* end */"
  | make name type => name ++ " := make(" ++ typeText type ++ "); "
  | declare name type => "var " ++ name ++ " " ++ typeText type ++ "; "
  | receive chan vars => receiveText chan vars
  | send chan none => chan ++ " <- struct\x7b\x7d\x7b\x7d;"
  | send chan (some value) => chan ++ " <- " ++ value ++ ";"
  | sendAll chan values => sendAllText typeText chan values
  | spawn body => "go func()\x7b " ++ String.join (body.map render) ++ " \x7d()\n"
  | loop body => "for \x7b " ++ String.join (body.map render) ++ " \x7d;"
termination_by statement => sizeOf statement

def Statement.types : Statement τ → List τ
  | make _ type | declare _ type => [type]
  | sendAll _ values => values.map (·.2)
  | finish | receive .. | send .. => []
  | spawn body | loop body => body.flatMap types
termination_by statement => sizeOf statement

def render (block : List (Statement τ)) : String :=
  String.join (block.map (Statement.render typeText))

end PiCalculus.Code
