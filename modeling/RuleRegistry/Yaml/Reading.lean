import RuleRegistry.Value.Basic
import RuleRegistry.Yaml.Atom
import RuleRegistry.Yaml.Node

namespace RuleRegistry.Yaml

/-- A reading that may fail and that counts down the aliases it may still follow. -/
abbrev Reading (α : Type) := StateT Nat Option α

abbrev WholeNode := Node Empty

namespace Reading

def maxDepth : Nat := 128

/-- The aliases that may be followed for each event of a document. -/
def followsPerEvent : Nat := 100

def run? {α : Type} (d : Document) (read : Anchors → Node Nat → Reading α) : Option α :=
  (read d.anchors d.root (followsPerEvent * d.anchors.events)).map Prod.fst

def follow (a : Anchors) (n : Node Nat) : Reading (Node Nat) := fun left =>
  match n, left with
  | .alias _, 0 => none
  | .alias number, left + 1 => (a.target? number).map fun n => (n, left)
  | n, left => some (n, left)

def whole (a : Anchors) : Nat → Node Nat → Reading WholeNode
  | 0, n => do
    match ← follow a n with
    | .scalar props style text => pure (.scalar props style text)
    | _ => failure
  | depth + 1, n => do
    match ← follow a n with
    | .alias _ => failure
    | .scalar props style text => pure (.scalar props style text)
    | .sequence props items => return .sequence props (← items.mapM (whole a depth))
    | .mapping props pairs =>
      return .mapping props (← pairs.mapM fun p => do
        let key ← whole a depth p.1
        let value ← whole a depth p.2
        return (key, value))

def text (a : Anchors) (n : Node Nat) : Reading String := do
  match ← follow a n with
  | .scalar _ _ text => pure text
  | _ => failure

/-- The items of a sequence. Nothing at all is an empty one. -/
def items (a : Anchors) (n : Node Nat) : Reading (List (Node Nat)) := do
  match ← follow a n with
  | .sequence _ items => pure items
  | .scalar _ .plain "" => pure []
  | _ => failure

def pairs (a : Anchors) (n : Node Nat) : Reading (List (Node Nat × Node Nat)) := do
  match ← follow a n with
  | .mapping _ pairs => pure pairs
  | .scalar _ .plain "" => pure []
  | _ => failure

/-- A mapping from texts. A key that comes again keeps its first place and takes its last value. -/
def table {α : Type} (a : Anchors) (entry : Node Nat → Reading α) (n : Node Nat) :
    Reading (Entries α) := do
  (← pairs a n).foldlM (fun acc p => do
    let key ← text a p.1
    let value ← entry p.2
    return Entries.put acc key value) []

/-- The parts of a mapping with known names, none of them twice. Parts with other names are refused
in a strict record and passed over in any other. -/
def record (a : Anchors) (strict : Bool) (names : List String) (n : Node Nat) :
    Reading (Entries (Node Nat)) := do
  (← pairs a n).foldlM (fun acc p => do
    let name ← text a p.1
    if !names.contains name then
      if strict then failure else return acc
    else if Entries.has acc name then failure
    else return Entries.put acc name p.2) []

def part {α : Type} (parts : Entries (Node Nat)) (name : String) (read : Node Nat → Reading α)
    (missing : Reading α) : Reading α :=
  match Entries.find? parts name with
  | some n => read n
  | none => missing

/-- Whole numbers that need more than 63 bits and a sign become binary64 numbers. -/
def ofAtom : Atom → Value
  | .null => .null
  | .bool b => .bool b
  | .int n => if n < 0x8000000000000000 then .int (Int64.ofInt n) else .float (Binary64.ofInt n)
  | .float x => .float x
  | .string s => .string s

def isNamed (props : Properties) : Bool := (props.tag.bind Tag.localName?).isSome

mutual

/-- The value of a node. It may have no named tags, and its keys are texts. -/
def ofNode? : WholeNode → Option Value
  | .alias target => nomatch target
  | .scalar props style text =>
    if isNamed props then none else (Atom.ofScalar? props.tag style text).map ofAtom
  | .sequence props items =>
    if isNamed props then none else (ofItems? items).map .list
  | .mapping props pairs =>
    if isNamed props then none else (ofPairs? pairs).map fun ps => .map (Entries.ofPairs ps)

def ofItems? : List WholeNode → Option (List Value)
  | [] => some []
  | n :: rest => (ofNode? n).bind fun v => (ofItems? rest).map fun vs => v :: vs

def ofPairs? : List (WholeNode × WholeNode) → Option (List (String × Value))
  | [] => some []
  | (k, v) :: rest =>
    match ofNode? k with
    | some (.string key) =>
      (ofNode? v).bind fun value => (ofPairs? rest).map fun ps => (key, value) :: ps
    | _ => none

end

def value (a : Anchors) (outer : Nat) (n : Node Nat) : Reading Value := do
  let n ← whole a (maxDepth - outer) n
  StateT.lift (ofNode? n)

end Reading

end RuleRegistry.Yaml
