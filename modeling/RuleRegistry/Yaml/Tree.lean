import RuleRegistry.Yaml.Reading

namespace RuleRegistry.Yaml

inductive Tree where
  | atom (a : Atom)
  | sequence (items : List Tree)
  | mapping (pairs : List (Tree × Tree))
  | tagged (tag : String) (tree : Tree)
deriving Inhabited

/-- Equality of atoms: zeros are equal, and so are all that are not a number. -/
def Atom.same : Atom → Atom → Bool
  | .float x, .float y => (x.isNaN && y.isNaN) || x.equal y
  | a, b => a == b

namespace Tree

/-- Equality; the first argument bounds the nesting that is compared. -/
def sameTo : Nat → Tree → Tree → Bool
  | 0, _, _ => false
  | depth + 1, x, y =>
    match x, y with
    | atom a, atom b => a.same b
    | sequence xs, sequence ys =>
      xs.length == ys.length && (xs.zip ys).all fun p => sameTo depth p.1 p.2
    | mapping ps, mapping qs =>
      ps.length == qs.length && ps.all fun p => qs.any fun q =>
        sameTo depth p.1 q.1 && sameTo depth p.2 q.2
    | tagged t x, tagged u y => t == u && sameTo depth x y
    | _, _ => false

/-- Equality of trees of documents: a tag and a collection may stand at every depth. -/
def same (x y : Tree) : Bool := sameTo (2 * (Reading.maxDepth + 1)) x y

def distinctKeys? (pairs : List (Tree × Tree)) : Option (List (Tree × Tree)) :=
  let rec repeats : List Tree → List (Tree × Tree) → Bool
    | _, [] => false
    | seen, (k, _) :: rest => seen.any (same k) || repeats (k :: seen) rest
  if repeats [] pairs then none else some pairs

/-- A tree under its local tag, if that has a name. -/
def withTag (tag : Option Tag) (tree : Tree) : Tree :=
  match tag.bind Tag.localName? with
  | none => tree
  | some name => tagged (Tag.withoutMark name) tree

mutual

def ofNode? : WholeNode → Option Tree
  | .alias target => nomatch target
  | .scalar props style text =>
    (Atom.ofScalar? props.tag style text).map fun a => withTag props.tag (atom a)
  | .sequence props items => (ofItems? items).map fun ts => withTag props.tag (sequence ts)
  | .mapping props pairs =>
    (ofPairs? pairs).bind fun ps => (distinctKeys? ps).map fun ps =>
      withTag props.tag (mapping ps)

def ofItems? : List WholeNode → Option (List Tree)
  | [] => some []
  | n :: rest => (ofNode? n).bind fun t => (ofItems? rest).map fun ts => t :: ts

def ofPairs? : List (WholeNode × WholeNode) → Option (List (Tree × Tree))
  | [] => some []
  | (k, v) :: rest =>
    (ofNode? k).bind fun key => (ofNode? v).bind fun value =>
      (ofPairs? rest).map fun ps => (key, value) :: ps

end

def parse? (text : String) : Option Tree :=
  (document? text.toList).bind fun d =>
    (Reading.run? d fun a n => Reading.whole a Reading.maxDepth n).bind ofNode?

def content : Tree → Tree
  | tagged _ tree => tree.content
  | tree => tree

def isNull (t : Tree) : Bool :=
  match t.content with
  | atom .null => true
  | _ => false

def asSequence (t : Tree) : Option (List Tree) :=
  match t.content with
  | sequence items => some items
  | _ => none

def asString (t : Tree) : Option String :=
  match t.content with
  | atom (.string s) => some s
  | _ => none

def lookup? (pairs : List (Tree × Tree)) (key : String) : Option Tree :=
  (pairs.find? fun p => match p.1 with
    | atom (.string s) => s == key
    | _ => false).map Prod.snd

def get? (t : Tree) (key : String) : Option Tree :=
  match t.content with
  | mapping pairs => lookup? pairs key
  | _ => none

end Tree

end RuleRegistry.Yaml
