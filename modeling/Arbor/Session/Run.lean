import Arbor.Forest.Planting
import Arbor.Session.Basic
import Arbor.Session.Edit
import Arbor.Session.Query

/-!
# Running commands

* `Session.perform`  carries out a command, or refuses it;
* `Session.step`     the reply to a command and the session afterwards;
* `Session.run`      the replies to several commands and the session after the last one.

A command that names a node which is not held is refused before anything else.
-/

namespace Arbor

/-- what a command that was carried out leaves behind -/
structure Performed where
  answer : Answer
  session : Session
  log : List Record

namespace Performed

def silent (answer : Answer) (session : Session) : Performed := ⟨answer, session, []⟩

end Performed

namespace Session

/-! ## commands -/

/-- a change of the forest, with its notices in the library's own log -/
def adopt (s : Session) (change : Change Answer) : Performed :=
  ⟨change.result, { s with forest := change.forest },
    change.notices.flatMap fun notice =>
      s.thresholds.record .core debugLevel fun _ => notice.text isPrintable change.forest⟩

def save (s : Session) (label : String) (saved : Saved) : Session :=
  { s with saved := Dictionary.put label saved s.saved }

/-- what is saved under a label -/
def lookup (s : Session) (label : String) : Except Fault Saved :=
  match s.saved.get? label with
  | some saved => .ok saved
  | none => .error .unknownLabel

def list (s : Session) (n : NodeId) (listing : Listing) (label : Option String) :
    Except Fault Performed := do
  let saved := Saved.ofListing s.forest n listing
  let answer ← saved.read s.forest
  return .silent answer (match label with
    | none => s
    | some v => s.save v saved)

def next (s : Session) (label : String) (count : Nat) : Except Fault Performed := do
  let (answer, after) ← (← s.lookup label).next s.forest count
  return .silent answer (s.save label after)

def hold (s : Session) (n : NodeId) (path : String) : Performed :=
  match s.forest.find n path with
  | none => .silent .nothing s
  | some m => .silent (.node m) { s with held := s.held.set m true }

def perform (s : Session) : Command → Except Fault Performed
  | .create name => return .silent (.node s.nextNode) (s.grow (s.forest.plant name))
  | .chain stem count =>
    return .silent (if count = 0 then .nothing else .node s.nextNode)
      (s.grow (s.forest.plantChain (numbered stem count)))
  | .fan n stem count =>
    return .silent (.nodes (List.range' s.nextNode count))
      (s.grow (s.forest.plantBranches n (numbered stem count)))
  | .edit e => return s.adopt (← s.forest.edit e)
  | .ask n query => return .silent (s.forest.ask n query) s
  | .list n listing label => s.list n listing label
  | .read label => return .silent (← (← s.lookup label).read s.forest) s
  | .forget label => return .silent .nothing { s with saved := s.saved.erase label }
  | .openWalk n label => return .silent .nothing (s.save label (.walk n (.start n)))
  | .openIterator n label =>
    return .silent .nothing (s.save label (.iterator [] (s.forest.node n).branches))
  | .next label count => s.next label count
  | .hold n path => return s.hold n path
  | .drop n => return .silent .nothing { s with held := s.held.set n false }
  | .logDump n channel level =>
    return ⟨.nothing, s, s.thresholds.record channel level fun _ =>
      s.forest.dump false Forest.defaultIndent n⟩
  | .setThreshold channel level =>
    return .silent .nothing { s with thresholds := s.thresholds.set channel level }
  | .duplicate _ way => .error (.duplication way)
  | .state => return .silent (.state s.state) s

/-! ## steps and runs -/

/-- a command may name held nodes only -/
def attempt (s : Session) (c : Command) : Except Fault Performed :=
  if c.nodes.all s.held.has then s.perform c else .error .notHeld

/-- The nodes that a command leaves without a holder are gone before the next one. -/
def step (s : Session) (c : Command) : Reply × Session :=
  match s.attempt c with
  | .error e => (⟨.error e, []⟩, s.settle)
  | .ok done => (⟨.ok done.answer, done.log⟩, done.session.settle)

def run (s : Session) : List Command → List Reply × Session
  | [] => ([], s)
  | c :: rest =>
    let (reply, next) := s.step c
    let (replies, last) := run next rest
    (reply :: replies, last)

/-- a session that some run of commands leads to -/
def Reachable (s : Session) : Prop := ∃ commands, s = (start.run commands).2

end Session
end Arbor
