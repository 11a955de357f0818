import RuleRegistry.Entries
import RuleRegistry.Yaml.Token

/-!
YAML documents as nodes: scalars, sequences, mappings and aliases with their anchors and tags. A
text that holds more than one document gives none. In a linked document every alias has the number
of its anchor, and the numbers lead to nodes.
-/

namespace RuleRegistry.Yaml

structure Properties where
  anchor : Option String := none
  tag : Option Tag := none
deriving DecidableEq, Inhabited

/-- A node whose aliases stand for targets. -/
inductive Node (α : Type) where
  | alias (target : α)
  | scalar (props : Properties) (style : Style) (text : String)
  | sequence (props : Properties) (items : List (Node α))
  | mapping (props : Properties) (pairs : List (Node α × Node α))
deriving Inhabited

abbrev NamedNode := Node String

namespace Node

def empty : NamedNode := scalar {} .plain ""

def bare (props : Properties) : NamedNode := scalar props .plain ""

abbrev Handles := List (String × Bytes)

def defaultHandles : Handles := [("!", [Tag.mark]), ("!!", Tag.coreStart)]

def fullTag? (handles : Handles) (handle : String) (suffix : Bytes) : Option Tag :=
  if handle = "" then some ⟨suffix⟩
  else (handles.find? fun h => h.1 == handle).map fun h => ⟨h.2 ++ suffix⟩

def properties (handles : Handles) (ts : List Token) : Option (Properties × List Token) :=
  match ts with
  | .anchor a :: .tag h s :: rest => (fullTag? handles h s).map fun t => (⟨some a, some t⟩, rest)
  | .anchor a :: rest => some (⟨some a, none⟩, rest)
  | .tag h s :: .anchor a :: rest => (fullTag? handles h s).map fun t => (⟨some a, some t⟩, rest)
  | .tag h s :: rest => (fullTag? handles h s).map fun t => (⟨none, some t⟩, rest)
  | _ => some ({}, ts)

def endsBlockEntry : List Token → Bool
  | .key :: _ | .value :: _ | .blockEnd :: _ => true
  | _ => false

/-- Where a node stands: in a block, as key or value of a block mapping, or inside brackets. -/
inductive Place where
  | block
  | blockPair
  | flow
deriving DecidableEq

abbrev Read (α : Type) := Option (α × List Token)

mutual

def node (handles : Handles) : Nat → Place → List Token → Read NamedNode
  | 0, _, _ => none
  | fuel + 1, place, ts =>
    match ts with
    | .alias name :: rest => some (.alias name, rest)
    | ts =>
      match properties handles ts with
      | none => none
      | some (props, ts) =>
        match ts with
        | .scalar style text :: rest => some (.scalar props style text, rest)
        | .flowSequenceStart :: rest =>
          (flowItems handles fuel true rest).map fun p => (.sequence props p.1, p.2)
        | .flowMappingStart :: rest =>
          (flowPairs handles fuel true rest).map fun p => (.mapping props p.1, p.2)
        | .blockEntry :: _ =>
          if place = .blockPair then
            (bareItems handles fuel ts).map fun p => (.sequence props p.1, p.2)
          else if props = {} then none else some (bare props, ts)
        | .blockSequenceStart :: rest =>
          if place = .flow then (if props = {} then none else some (bare props, ts))
          else (blockItems handles fuel rest).map fun p => (.sequence props p.1, p.2)
        | .blockMappingStart :: rest =>
          if place = .flow then (if props = {} then none else some (bare props, ts))
          else (blockPairs handles fuel rest).map fun p => (.mapping props p.1, p.2)
        | _ => if props = {} then none else some (bare props, ts)

def blockItems (handles : Handles) : Nat → List Token → Read (List NamedNode)
  | 0, _ => none
  | fuel + 1, ts =>
    match ts with
    | .blockEnd :: rest => some ([], rest)
    | .blockEntry :: rest =>
      let entry := match rest with
        | .blockEntry :: _ | .blockEnd :: _ => some (empty, rest)
        | _ => node handles fuel .block rest
      match entry with
      | none => none
      | some (e, rest) => (blockItems handles fuel rest).map fun p => (e :: p.1, p.2)
    | _ => none

/-- The entries of a sequence that is no further in than its key. -/
def bareItems (handles : Handles) : Nat → List Token → Read (List NamedNode)
  | 0, _ => none
  | fuel + 1, ts =>
    match ts with
    | .blockEntry :: rest =>
      let empty? := match rest with
        | .blockEntry :: _ => true
        | _ => endsBlockEntry rest
      match if empty? then some (empty, rest) else node handles fuel .block rest with
      | none => none
      | some (e, rest) => (bareItems handles fuel rest).map fun p => (e :: p.1, p.2)
    | _ => some ([], ts)

def blockPairs (handles : Handles) : Nat → List Token → Read (List (NamedNode × NamedNode))
  | 0, _ => none
  | fuel + 1, ts =>
    let part (ts : List Token) : Read NamedNode :=
      if endsBlockEntry ts then some (empty, ts) else node handles fuel .blockPair ts
    match ts with
    | .blockEnd :: rest => some ([], rest)
    | .key :: rest =>
      match part rest with
      | none => none
      | some (k, rest) =>
        let value := match rest with
          | .value :: rest => part rest
          | _ => some (empty, rest)
        match value with
        | none => none
        | some (v, rest) => (blockPairs handles fuel rest).map fun p => ((k, v) :: p.1, p.2)
    | _ => none

/-- The entries of a bracketed sequence up to its end. A key among them begins a mapping of one
pair. -/
def flowItems (handles : Handles) : Nat → Bool → List Token → Read (List NamedNode)
  | 0, _, _ => none
  | fuel + 1, first, ts =>
    let more (e : NamedNode) (rest : List Token) : Read (List NamedNode) :=
      (flowItems handles fuel false rest).map fun p => (e :: p.1, p.2)
    let entry (ts : List Token) : Read (List NamedNode) :=
      match ts with
      | .flowSequenceEnd :: rest => some ([], rest)
      | .key :: rest =>
        let key := match rest with
          | .value :: after | .flowEntry :: after | .flowSequenceEnd :: after => some (empty, after)
          | _ => node handles fuel .flow rest
        match key with
        | none => none
        | some (k, rest) =>
          let value := match rest with
            | .value :: rest =>
              match rest with
              | .flowEntry :: _ | .flowSequenceEnd :: _ => some (empty, rest)
              | _ => node handles fuel .flow rest
            | _ => some (empty, rest)
          match value with
          | none => none
          | some (v, rest) => more (.mapping {} [(k, v)]) rest
      | _ => (node handles fuel .flow ts).bind fun p => more p.1 p.2
    match first, ts with
    | true, _ => entry ts
    | false, .flowSequenceEnd :: rest => some ([], rest)
    | false, .flowEntry :: rest => entry rest
    | false, _ => none

def flowPairs (handles : Handles) : Nat → Bool → List Token → Read (List (NamedNode × NamedNode))
  | 0, _, _ => none
  | fuel + 1, first, ts =>
    let more (k v : NamedNode) (rest : List Token) : Read (List (NamedNode × NamedNode)) :=
      (flowPairs handles fuel false rest).map fun p => ((k, v) :: p.1, p.2)
    let ends (ts : List Token) : Bool := match ts with
      | .flowEntry :: _ | .flowMappingEnd :: _ => true
      | _ => false
    let entry (ts : List Token) : Read (List (NamedNode × NamedNode)) :=
      match ts with
      | .flowMappingEnd :: rest => some ([], rest)
      | .key :: rest =>
        let key := match rest with
          | .value :: _ => some (empty, rest)
          | _ => if ends rest then some (empty, rest) else node handles fuel .flow rest
        match key with
        | none => none
        | some (k, rest) =>
          let value := match rest with
            | .value :: rest =>
              if ends rest then some (empty, rest) else node handles fuel .flow rest
            | _ => some (empty, rest)
          match value with
          | none => none
          | some (v, rest) => more k v rest
      | _ => (node handles fuel .flow ts).bind fun p => more p.1 empty p.2
    match first, ts with
    | true, _ => entry ts
    | false, .flowMappingEnd :: rest => some ([], rest)
    | false, .flowEntry :: rest => entry rest
    | false, _ => none

end

/-- The directives in front of a document: at most one version, of YAML 1.1 or 1.2, and handles that
are all different. -/
def directives : Bool → Handles → List Token → Read Handles
  | versioned, handles, .versionDirective major minor :: rest =>
    if versioned || major != 1 || (minor != 1 && minor != 2) then none
    else directives true handles rest
  | versioned, handles, .tagDirective handle start :: rest =>
    if handles.any fun h => h.1 == handle then none
    else directives versioned (handles ++ [(handle, start)]) rest
  | _, handles, ts => some (handles ++ defaultHandles, ts)

def isDirective : Token → Bool
  | .versionDirective .. | .tagDirective .. => true
  | _ => false

def endsDocument : List Token → Bool
  | .documentStart :: _ | .documentEnd :: _ | .streamEnd :: _ => true
  | t :: _ => isDirective t
  | [] => true

def closed : List Token → Bool
  | .documentEnd :: rest => closed rest
  | .streamEnd :: _ => true
  | _ => false

/-- The only document of a text; none inside when there is no document. -/
def ofTokens? (ts : List Token) : Option (Option NamedNode) :=
  let fuel := 4 * (ts.length + 1)
  let content (handles : Handles) (ts : List Token) : Option (Option NamedNode) :=
    match if endsDocument ts then some (empty, ts) else node handles fuel .block ts with
    | some (n, rest) => if closed rest then some (some n) else none
    | none => none
  match ts with
  | .streamEnd :: _ => some none
  | t :: _ =>
    if isDirective t ∨ t = .documentStart then
      match directives false [] ts with
      | some (handles, .documentStart :: rest) => content handles rest
      | _ => none
    else if t = .documentEnd then none
    else (node defaultHandles fuel .block ts).bind fun (n, rest) =>
      if closed rest then some (some n) else none
  | [] => none

end Node

def parse? (text : List Char) : Option (Option NamedNode) := (scan text).bind Node.ofTokens?

/-- The numbers given to anchors so far. An anchor gets as its number the count of different names
before it, and the last anchor with a number is the one that the number leads to. -/
structure Anchors where
  numbers : Entries Nat := []
  /-- The place of the last anchor with each number, counted in anchors. -/
  places : List (Nat × Nat) := []
  count : Nat := 0
  nodes : List (Nat × Node Nat) := []
  /-- The events of the document: one for a scalar or an alias, two for a collection. -/
  events : Nat := 0

namespace Anchors

def declare (a : Anchors) : Option String → Anchors
  | none => a
  | some name =>
    let number := a.numbers.length
    { a with
      numbers := Entries.put a.numbers name number
      places := (number, a.count) :: a.places
      count := a.count + 1 }

def keep (a : Anchors) (anchor : Option String) (place : Nat) (n : Node Nat) : Anchors :=
  if anchor.isSome then { a with nodes := (place, n) :: a.nodes } else a

def addEvents (a : Anchors) (events : Nat) : Anchors := { a with events := a.events + events }

def target? (a : Anchors) (number : Nat) : Option (Node Nat) :=
  (a.places.lookup number).bind fun place => a.nodes.lookup place

end Anchors

namespace Node

mutual

/-- Numbers the aliases of a node, in the order of the text. An alias whose name is not known gives
none. -/
def link (a : Anchors) : NamedNode → Option (Node Nat × Anchors)
  | .alias name => (Entries.find? a.numbers name).map fun n => (.alias n, a.addEvents 1)
  | .scalar props style text =>
    let place := a.count
    let n : Node Nat := .scalar props style text
    some (n, ((a.declare props.anchor).keep props.anchor place n).addEvents 1)
  | .sequence props items =>
    let place := a.count
    (linkItems (a.declare props.anchor) items).map fun (items, a) =>
      let n : Node Nat := .sequence props items
      (n, (a.keep props.anchor place n).addEvents 2)
  | .mapping props pairs =>
    let place := a.count
    (linkPairs (a.declare props.anchor) pairs).map fun (pairs, a) =>
      let n : Node Nat := .mapping props pairs
      (n, (a.keep props.anchor place n).addEvents 2)

def linkItems (a : Anchors) : List NamedNode → Option (List (Node Nat) × Anchors)
  | [] => some ([], a)
  | n :: rest =>
    (link a n).bind fun (n, a) => (linkItems a rest).map fun p => (n :: p.1, p.2)

def linkPairs (a : Anchors) :
    List (NamedNode × NamedNode) → Option (List (Node Nat × Node Nat) × Anchors)
  | [] => some ([], a)
  | (k, v) :: rest =>
    (link a k).bind fun (k, a) => (link a v).bind fun (v, a) =>
      (linkPairs a rest).map fun p => ((k, v) :: p.1, p.2)

end

end Node

structure Document where
  root : Node Nat
  anchors : Anchors

/-- The only document of a text, linked. A text without document stands for an empty scalar. -/
def document? (text : List Char) : Option Document :=
  (parse? text).bind fun root =>
    ((root.getD .empty).link {}).map fun (root, anchors) => ⟨root, anchors⟩

end RuleRegistry.Yaml
