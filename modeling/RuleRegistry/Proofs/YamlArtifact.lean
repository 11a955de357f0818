import RuleRegistry.Artifact.Document
import RuleRegistry.Proofs.BinaryArtifact
import RuleRegistry.Proofs.CommentLine
import RuleRegistry.Proofs.DocumentTrees

/-!
YAML artifacts. Where a document reads back as the tree that was written, its shapes and values are
read as those of the collection: a value is known by its tree, and no alias of the document is
followed that reading the whole tree does not follow.
-/

namespace RuleRegistry

namespace Yaml

namespace Tree

mutual

/-- The tree that a value is written as. -/
def ofValue : Value → Tree
  | .null => atom .null
  | .bool b => atom (.bool b)
  | .int n => atom (.int n.toInt)
  | .float x => atom (.float x)
  | .string s => atom (.string s)
  | .list items => sequence (ofItems items)
  | .map entries => mapping (ofEntries entries)

def ofItems : List Value → List Tree
  | [] => []
  | v :: rest => ofValue v :: ofItems rest

def ofEntries : List (String × Value) → List (Tree × Tree)
  | [] => []
  | (k, v) :: rest => (atom (.string k), ofValue v) :: ofEntries rest

end

theorem ofValue_ne_tagged (v : Value) (name : String) (t : Tree) : ofValue v ≠ tagged name t := by
  cases v <;> simp [ofValue]

theorem Plainly.of_value {w : WholeNode} {v : Value} (read : ofNode? w = some (ofValue v)) :
    Plainly w (ofValue v) :=
  .of_ofNode? (ofValue_ne_tagged v) read

end Tree

theorem Atom.text_of_string {tag : Option Tag} {style : Style} {text s : String}
    (read : ofScalar? tag style text = some (.string s)) : text = s := by
  have plain : ofPlain? text = some (.string s) → text = s := by
    unfold ofPlain?
    grind
  have untagged : ofUntagged? style text = some (.string s) → text = s := by
    unfold ofUntagged?
    grind
  have global (tag : Tag) : ofGlobal? tag text = some (.string s) → text = s := by
    unfold ofGlobal?
    grind [Option.map_eq_some_iff]
  unfold ofScalar? at read
  grind

/-- What is taken for granted of the library: it reads the document back as the tree that it wrote, the
atoms with their types and the keys in their order. -/
def Writer.RoundTrips (entries : List (String × Value)) : Prop :=
  Tree.parse? (Writer.document entries) = some (.ofValue (.map entries))

instance (entries : List (String × Value)) : Decidable (Writer.RoundTrips entries) :=
  inferInstanceAs (Decidable (Tree.parse? (Writer.document entries) = some (.ofValue (.map entries))))

namespace Reading

theorem ofAtom_int (n : Int64) : ofAtom (.int n.toInt) = .int n := by
  have small : n.toInt < 0x8000000000000000 := n.toInt_lt
  rw [ofAtom, if_pos small, Int64.ofInt_toInt]

theorem ofNode?_of_atom {w : WholeNode} {a : Atom} (read : Tree.Plainly w (.atom a)) :
    ofNode? w = some (ofAtom a) := by
  cases read with
  | scalar bare known => simp [ofNode?, bare, known]

mutual

theorem ofNode?_of_tree : ∀ (v : Value) (w : WholeNode), v.Regular →
    Tree.ofNode? w = some (Tree.ofValue v) → ofNode? w = some v
  | .null, _, _, read => ofNode?_of_atom (.of_value read)
  | .bool _, _, _, read => ofNode?_of_atom (.of_value read)
  | .int n, _, _, read => ofAtom_int n ▸ ofNode?_of_atom (.of_value read)
  | .float _, _, _, read => ofNode?_of_atom (.of_value read)
  | .string _, _, _, read => ofNode?_of_atom (.of_value read)
  | .list items, w, regular, read => by
    cases Tree.Plainly.of_value read with
    | sequence bare inside => simp [ofNode?, bare, ofItems?_of_trees items _ regular inside]
  | .map entries, w, ⟨nodup, regular⟩, read => by
    cases Tree.Plainly.of_value read with
    | mapping bare inside =>
      simp [ofNode?, bare, ofPairs?_of_trees entries _ regular inside, Entries.ofPairs_of_nodup nodup]

theorem ofItems?_of_trees : ∀ (vs : List Value) (ws : List WholeNode), Value.RegularItems vs →
    Tree.ofItems? ws = some (Tree.ofItems vs) → ofItems? ws = some vs
  | [], ws, _, read => by
    obtain rfl := Tree.nil_of_ofItems? read
    rfl
  | v :: vs, ws, ⟨first, others⟩, read => by
    obtain ⟨w, rest, rfl, head, tail⟩ := Tree.cons_of_ofItems? read
    simp [ofItems?, ofNode?_of_tree v w first head, ofItems?_of_trees vs rest others tail]

theorem ofPairs?_of_trees : ∀ (es : List (String × Value)) (ws : List (WholeNode × WholeNode)),
    Value.RegularFields es → Tree.ofPairs? ws = some (Tree.ofEntries es) → ofPairs? ws = some es
  | [], ws, _, read => by
    obtain rfl := Tree.nil_of_ofPairs? read
    rfl
  | (k, v) :: es, ws, ⟨first, others⟩, read => by
    obtain ⟨w, rest, rfl, key, head, tail⟩ := Tree.cons_of_ofPairs? read
    simp [ofPairs?, ofNode?_of_tree (.string k) w.1 trivial key, ofNode?_of_tree v w.2 first head,
      ofPairs?_of_trees es rest others tail]

end

variable {α β : Type}

/-- The reading gives `x` and follows so many aliases, however many may still be followed after
it. -/
def Costs (read : Reading α) (x : α) (used : Nat) : Prop := ∀ left, read (used + left) = some (x, left)

/-- Whatever the reading gives, it gives at a cost. -/
def Metered (read : Reading α) : Prop :=
  ∀ left x left', read left = some (x, left') → ∃ used, left = used + left' ∧ Costs read x used

theorem bind_apply (read : Reading α) (next : α → Reading β) (left : Nat) :
    (read >>= next) left = (read left).bind fun p => next p.1 p.2 := rfl

namespace Costs

theorem pure (x : α) : Costs (Pure.pure x) x 0 := fun left => by
  rw [Nat.zero_add]
  rfl

theorem bind {read : Reading α} {next : α → Reading β} {x : α} {y : β} {m k : Nat}
    (first : Costs read x m) (second : Costs (next x) y k) : Costs (read >>= next) y (m + k) :=
  fun left => by
    rw [bind_apply, Nat.add_assoc, first]
    exact second left

theorem returning {read : Reading α} {next : α → Reading β} {x : α} {y : β} {m : Nat}
    (first : Costs read x m) (made : next x = Pure.pure y) : Costs (read >>= next) y m :=
  first.bind (made ▸ pure y)

theorem eq_of_pure {x y : α} {used : Nat} (h : Costs (Pure.pure x) y used) : x = y ∧ used = 0 := by
  have given : some (x, used + 0) = some (y, 0) := h 0
  cases given
  exact ⟨rfl, rfl⟩

end Costs

namespace Metered

theorem pure (x : α) : Metered (Pure.pure x : Reading α) := fun left y left' h => by
  cases h
  exact ⟨0, (Nat.zero_add _).symm, .pure x⟩

theorem failure : Metered (failure : Reading α) := fun _ _ _ h => nomatch h

theorem bind {read : Reading α} {next : α → Reading β} (first : Metered read)
    (second : ∀ x, Metered (next x)) : Metered (read >>= next) := fun left y left' h => by
  rw [bind_apply] at h
  obtain ⟨⟨x, between⟩, here, there⟩ := Option.bind_eq_some_iff.mp h
  obtain ⟨m, rfl, cost⟩ := first _ _ _ here
  obtain ⟨k, rfl, more⟩ := second x _ _ _ there
  exact ⟨m + k, (Nat.add_assoc ..).symm, cost.bind more⟩

theorem mapM {read : α → Reading β} (each : ∀ x, Metered (read x)) (xs : List α) :
    Metered (xs.mapM read) := by
  induction xs with
  | nil => exact pure []
  | cons x rest ih =>
    rw [List.mapM_cons]
    exact bind (each x) fun y => bind ih fun ys => pure _

end Metered

theorem Costs.of_bind {read : Reading α} {next : α → Reading β} {y : β} {used : Nat}
    (first : Metered read) (h : Costs (read >>= next) y used) :
    ∃ x m k, used = m + k ∧ Costs read x m ∧ Costs (next x) y k := by
  obtain ⟨⟨x, k⟩, here, _⟩ := Option.bind_eq_some_iff.mp (h 0)
  obtain ⟨m, total, cost⟩ := first _ _ _ here
  refine ⟨x, m, k, total, cost, fun left => ?_⟩
  have run := h left
  rwa [bind_apply, show used + left = m + (k + left) by omega, cost] at run

variable {a : Anchors} {n : Node Nat} {depth : Nat}

theorem metered_follow (a : Anchors) (n : Node Nat) : Metered (follow a n) := by
  intro left x left' h
  cases n with
  | «alias» number =>
    cases left with
    | zero => cases h
    | succ left =>
      obtain ⟨target, found, same⟩ := Option.map_eq_some_iff.mp h
      cases same
      refine ⟨1, Nat.add_comm .., fun left => ?_⟩
      rw [Nat.add_comm]
      simp [follow, found]
  | _ =>
    cases h
    exact ⟨0, (Nat.zero_add _).symm, fun left => by rw [Nat.zero_add]; rfl⟩

theorem metered_whole (a : Anchors) (depth : Nat) (n : Node Nat) : Metered (whole a depth n) := by
  induction depth generalizing n with
  | zero =>
    refine .bind (metered_follow a n) fun m => ?_
    split
    · exact .pure _
    · exact .failure
  | succ depth ih =>
    refine .bind (metered_follow a n) fun m => ?_
    split
    · exact .failure
    · exact .pure _
    · exact .bind (.mapM ih _) fun _ => .pure _
    · refine .bind (.mapM (fun p => ?_) _) fun _ => .pure _
      exact .bind (ih p.1) fun _ => .bind (ih p.2) fun _ => .pure _

theorem metered_pair (a : Anchors) (depth : Nat) (p : Node Nat × Node Nat) :
    Metered (do
      let key ← whole a depth p.1
      let value ← whole a depth p.2
      return (key, value)) :=
  .bind (metered_whole a depth p.1) fun _ => .bind (metered_whole a depth p.2) fun _ => .pure _

/-- Reading the node whole gives the tree of the value. -/
def Holds (a : Anchors) (depth : Nat) (n : Node Nat) (v : Value) (used : Nat) : Prop :=
  ∃ w, Costs (whole a depth n) w used ∧ Tree.ofNode? w = some (Tree.ofValue v)

inductive HoldsItems (a : Anchors) (depth : Nat) : List (Node Nat) → List Value → Nat → Prop
  | nil : HoldsItems a depth [] [] 0
  | cons {n : Node Nat} {ns : List (Node Nat)} {v : Value} {vs : List Value} {m k : Nat}
      (first : Holds a depth n v m) (others : HoldsItems a depth ns vs k) :
      HoldsItems a depth (n :: ns) (v :: vs) (m + k)

inductive HoldsEntries (a : Anchors) (depth : Nat) :
    List (Node Nat × Node Nat) → Entries Value → Nat → Prop
  | nil : HoldsEntries a depth [] [] 0
  | cons {p : Node Nat × Node Nat} {ps : List (Node Nat × Node Nat)} {e : String × Value}
      {es : Entries Value} {i j k : Nat} (key : Costs (text a p.1) e.1 i)
      (value : Holds a depth p.2 e.2 j) (others : HoldsEntries a depth ps es k) :
      HoldsEntries a depth (p :: ps) (e :: es) (i + j + k)

/-- What reading a node whole comes to behind its alias. -/
inductive Whole (a : Anchors) : Nat → Node Nat → WholeNode → Nat → Prop
  | scalar {depth : Nat} {n : Node Nat} {props : Properties} {style : Style} {text : String} {m : Nat}
      (there : Costs (follow a n) (.scalar props style text) m) :
      Whole a depth n (.scalar props style text) m
  | sequence {depth : Nat} {n : Node Nat} {props : Properties} {items : List (Node Nat)}
      {ws : List WholeNode} {m k : Nat} (there : Costs (follow a n) (.sequence props items) m)
      (inside : Costs (items.mapM (whole a depth)) ws k) :
      Whole a (depth + 1) n (.sequence props ws) (m + k)
  | mapping {depth : Nat} {n : Node Nat} {props : Properties} {ps : List (Node Nat × Node Nat)}
      {ws : List (WholeNode × WholeNode)} {m k : Nat} (there : Costs (follow a n) (.mapping props ps) m)
      (inside : Costs (ps.mapM fun p => do
        let key ← whole a depth p.1
        let value ← whole a depth p.2
        return (key, value)) ws k) :
      Whole a (depth + 1) n (.mapping props ws) (m + k)

theorem Whole.of_costs {w : WholeNode} {used : Nat} (h : Costs (whole a depth n) w used) :
    Whole a depth n w used := by
  cases depth with
  | zero =>
    obtain ⟨target, m, k, rfl, there, inside⟩ := Costs.of_bind (metered_follow a n) h
    cases target with
    | scalar props style text =>
      obtain ⟨rfl, rfl⟩ := inside.eq_of_pure
      exact .scalar there
    | _ => cases inside 0
  | succ depth =>
    obtain ⟨target, m, k, rfl, there, inside⟩ := Costs.of_bind (metered_follow a n) h
    cases target with
    | «alias» number => cases inside 0
    | scalar props style text =>
      obtain ⟨rfl, rfl⟩ := inside.eq_of_pure
      exact .scalar there
    | sequence props items =>
      obtain ⟨ws, i, j, rfl, each, made⟩ := Costs.of_bind (.mapM (metered_whole a depth) _) inside
      obtain ⟨rfl, rfl⟩ := made.eq_of_pure
      exact .sequence there each
    | mapping props ps =>
      obtain ⟨ws, i, j, rfl, each, made⟩ := Costs.of_bind (.mapM (metered_pair a depth) _) inside
      obtain ⟨rfl, rfl⟩ := made.eq_of_pure
      exact .mapping there each

theorem Holds.whole {v : Value} {used : Nat} (h : Holds a depth n v used) :
    ∃ w, Whole a depth n w used ∧ Tree.Plainly w (Tree.ofValue v) := by
  obtain ⟨w, cost, read⟩ := h
  exact ⟨w, .of_costs cost, .of_value read⟩

theorem Holds.text {s : String} {used : Nat} (h : Holds a depth n (.string s) used) :
    Costs (text a n) s used := by
  obtain ⟨w, whole, plain⟩ := h.whole
  cases plain with
  | scalar bare read =>
    obtain rfl := Atom.text_of_string read
    cases whole with
    | scalar there =>
      unfold Reading.text
      exact there.returning rfl

theorem HoldsItems.of_mapM {ns : List (Node Nat)} {ws : List WholeNode} {vs : List Value} {used : Nat}
    (inside : Costs (ns.mapM (Reading.whole a depth)) ws used)
    (read : Tree.ofItems? ws = some (Tree.ofItems vs)) : HoldsItems a depth ns vs used := by
  induction ns generalizing ws vs used with
  | nil =>
    obtain ⟨rfl, rfl⟩ := inside.eq_of_pure
    cases vs with
    | nil => exact .nil
    | cons v vs => cases read
  | cons n ns ih =>
    rw [List.mapM_cons] at inside
    obtain ⟨w, m, k, rfl, first, inside⟩ := Costs.of_bind (metered_whole a depth n) inside
    obtain ⟨ws, i, j, rfl, others, made⟩ := Costs.of_bind (.mapM (metered_whole a depth) _) inside
    obtain ⟨rfl, rfl⟩ := made.eq_of_pure
    cases vs with
    | nil => cases Tree.nil_of_ofItems? read
    | cons v vs =>
      obtain ⟨_, _, same, head, tail⟩ := Tree.cons_of_ofItems? read
      cases same
      exact .cons ⟨w, first, head⟩ (ih others tail)

theorem HoldsEntries.of_mapM {ps : List (Node Nat × Node Nat)} {ws : List (WholeNode × WholeNode)}
    {es : Entries Value} {used : Nat}
    (inside : Costs (ps.mapM fun p => do
      let key ← Reading.whole a depth p.1
      let value ← Reading.whole a depth p.2
      return (key, value)) ws used)
    (read : Tree.ofPairs? ws = some (Tree.ofEntries es)) : HoldsEntries a depth ps es used := by
  induction ps generalizing ws es used with
  | nil =>
    obtain ⟨rfl, rfl⟩ := inside.eq_of_pure
    cases es with
    | nil => exact .nil
    | cons e es => cases read
  | cons p ps ih =>
    rw [List.mapM_cons] at inside
    obtain ⟨w, m, k, rfl, first, inside⟩ := Costs.of_bind (metered_pair a depth p) inside
    obtain ⟨ws, i, j, rfl, others, made⟩ := Costs.of_bind (.mapM (metered_pair a depth) _) inside
    obtain ⟨rfl, rfl⟩ := made.eq_of_pure
    obtain ⟨key, i', j', rfl, keyed, first⟩ := Costs.of_bind (metered_whole a depth p.1) first
    obtain ⟨value, k', l', rfl, valued, first⟩ := Costs.of_bind (metered_whole a depth p.2) first
    obtain ⟨rfl, rfl⟩ := first.eq_of_pure
    cases es with
    | nil => cases Tree.nil_of_ofPairs? read
    | cons e es =>
      obtain ⟨_, _, same, name, head, tail⟩ := Tree.cons_of_ofPairs? read
      cases same
      exact .cons (Holds.text ⟨key, keyed, name⟩) ⟨value, valued, head⟩ (ih others tail)

theorem Holds.items {vs : List Value} {used : Nat} (h : Holds a (depth + 1) n (.list vs) used) :
    ∃ ns m k, used = m + k ∧ Costs (items a n) ns m ∧ HoldsItems a depth ns vs k := by
  obtain ⟨w, whole, plain⟩ := h.whole
  cases plain with
  | sequence bare read =>
    cases whole with
    | sequence there inside =>
      refine ⟨_, _, _, rfl, ?_, .of_mapM inside read⟩
      unfold Reading.items
      exact there.returning rfl

theorem Holds.pairs {es : Entries Value} {used : Nat} (h : Holds a (depth + 1) n (.map es) used) :
    ∃ ps m k, used = m + k ∧ Costs (pairs a n) ps m ∧ HoldsEntries a depth ps es k := by
  obtain ⟨w, whole, plain⟩ := h.whole
  cases plain with
  | mapping bare read =>
    cases whole with
    | mapping there inside =>
      refine ⟨_, _, _, rfl, ?_, .of_mapM inside read⟩
      unfold Reading.pairs
      exact there.returning rfl

theorem Holds.value {v : Value} {used : Nat} (outer : Nat) (regular : v.Regular)
    (h : Holds a (maxDepth - outer) n v used) : Costs (value a outer n) v used := by
  obtain ⟨w, cost, read⟩ := h
  unfold Reading.value
  refine cost.returning ?_
  rw [ofNode?_of_tree v w regular read]
  rfl

theorem Holds.list {f : α → Value} {xs : List α} {used : Nat} (entry : Node Nat → Reading α)
    (each : ∀ x ∈ xs, ∀ m k, Holds a depth m (f x) k → Costs (entry m) x k)
    (h : Holds a (depth + 1) n (.list (xs.map f)) used) :
    Costs (do (← Reading.items a n).mapM entry) xs used := by
  obtain ⟨ns, m, k, rfl, there, held⟩ := h.items
  refine there.bind ?_
  clear there h
  induction xs generalizing ns k with
  | nil =>
    cases held
    exact .pure []
  | cons x xs ih =>
    obtain ⟨first, others⟩ := List.forall_mem_cons.mp each
    cases held with
    | cons value held =>
      rw [List.mapM_cons]
      exact (first _ _ value).bind ((ih others _ _ held).returning rfl)

theorem HoldsEntries.table {f : α → Value} {ps : List (Node Nat × Node Nat)} {es : Entries α}
    {used : Nat} (entry : Node Nat → Reading α) (acc : Entries α)
    (nodup : (Entries.keys (acc ++ es)).Nodup)
    (each : ∀ e ∈ es, ∀ m k, Holds a depth m (f e.2) k → Costs (entry m) e.2 k)
    (held : HoldsEntries a depth ps (Entries.mapValues f es) used) :
    Costs (ps.foldlM (fun acc p => do
      let key ← Reading.text a p.1
      let value ← entry p.2
      return Entries.put acc key value) acc) (acc ++ es) used := by
  induction es generalizing ps used acc with
  | nil =>
    cases held
    rw [List.append_nil]
    exact .pure acc
  | cons e es ih =>
    obtain ⟨first, others⟩ := List.forall_mem_cons.mp each
    have fresh := Entries.not_mem_of_nodup_append nodup
    cases held with
    | cons key value held =>
      have rest := ih (acc ++ [e]) (by simpa using nodup) others held
      rw [List.append_assoc, List.singleton_append] at rest
      rw [List.foldlM_cons]
      refine Costs.bind (x := acc ++ [e]) (key.bind ((first _ _ value).returning ?_)) rest
      rw [Entries.put_of_not_mem fresh]

theorem Holds.table {f : α → Value} {es : Entries α} {used : Nat} (entry : Node Nat → Reading α)
    (nodup : (Entries.keys es).Nodup)
    (each : ∀ e ∈ es, ∀ m k, Holds a depth m (f e.2) k → Costs (entry m) e.2 k)
    (h : Holds a (depth + 1) n (.map (Entries.mapValues f es)) used) :
    Costs (Reading.table a entry n) es used := by
  obtain ⟨ps, m, k, rfl, there, held⟩ := h.pairs
  exact there.bind (held.table entry [] nodup each)

/-- The nodes of the parts of a record. -/
inductive HoldsParts (a : Anchors) (depth : Nat) : Entries (Node Nat) → Entries Value → Nat → Prop
  | nil : HoldsParts a depth [] [] 0
  | cons {name : String} {n : Node Nat} {parts : Entries (Node Nat)} {v : Value} {es : Entries Value}
      {m k : Nat} (first : Holds a depth n v m) (others : HoldsParts a depth parts es k) :
      HoldsParts a depth ((name, n) :: parts) ((name, v) :: es) (m + k)

theorem HoldsEntries.record {ps : List (Node Nat × Node Nat)} {es : Entries Value} {used : Nat}
    (strict : Bool) (names : List String) (acc : Entries (Node Nat))
    (nodup : (Entries.keys acc ++ Entries.keys es).Nodup)
    (known : ∀ name ∈ Entries.keys es, name ∈ names) (held : HoldsEntries a depth ps es used) :
    ∃ parts m k, used = m + k ∧ HoldsParts a depth parts es k ∧
      Costs (ps.foldlM (fun acc p => do
        let name ← Reading.text a p.1
        if !names.contains name then
          if strict then failure else return acc
        else if Entries.has acc name then failure
        else return Entries.put acc name p.2) acc) (acc ++ parts) m := by
  induction held generalizing acc with
  | nil => exact ⟨[], 0, 0, rfl, .nil, by rw [List.append_nil]; exact .pure acc⟩
  | @cons p ps e es i j k key value _ ih =>
    obtain ⟨name, v⟩ := e
    obtain ⟨(here : name ∈ names), others⟩ := List.forall_mem_cons.mp known
    have fresh : name ∉ Entries.keys acc := fun there =>
      (List.nodup_append.mp nodup).2.2 name there name List.mem_cons_self rfl
    obtain ⟨parts, m, l, rfl, held, cost⟩ :=
      ih (acc ++ [(name, p.2)]) (by simpa [Entries.keys] using nodup) others
    rw [List.append_assoc, List.singleton_append] at cost
    refine ⟨(name, p.2) :: parts, i + m, j + l, by omega, .cons value held, ?_⟩
    rw [List.foldlM_cons]
    refine Costs.bind (x := acc ++ [(name, p.2)]) (key.returning ?_) cost
    have absent : Entries.has acc name = false :=
      Bool.eq_false_iff.mpr fun there => fresh (Entries.has_iff.mp there)
    simp [here, absent, Entries.put_of_not_mem fresh]

theorem Holds.record {es : Entries Value} {used : Nat} (strict : Bool) (names : List String)
    (nodup : (Entries.keys es).Nodup) (known : ∀ name ∈ Entries.keys es, name ∈ names)
    (h : Holds a (depth + 1) n (.map es) used) :
    ∃ parts m k, used = m + k ∧ HoldsParts a depth parts es k ∧
      Costs (Reading.record a strict names n) parts m := by
  obtain ⟨ps, i, j, rfl, there, held⟩ := h.pairs
  obtain ⟨parts, m, k, rfl, held, cost⟩ := held.record strict names [] nodup known
  exact ⟨parts, i + m, k, by omega, held, there.bind cost⟩

end Reading

end Yaml

namespace Artifact

open Yaml Reading

variable {a : Anchors} {n : Node Nat} {used : Nat}

theorem costs_attributes {as : Attributes} (regular : as.Regular)
    (h : Holds a 123 n (.map as) used) : Costs (readAttributes a n) as used := by
  have same : as = Entries.mapValues id as := (List.map_id as).symm
  rw [same] at h
  exact h.table _ regular.nodup fun e he _ _ held => held.value attributeDepth (regular.values e he)

theorem costs_tags {tags : Tags} (regular : tags.Regular) (h : Holds a 125 n (tagsValue tags) used) :
    Costs (readTags a n) tags used :=
  h.table _ regular.nodup fun t ht _ _ held =>
    held.list _ fun as has _ _ inside => costs_attributes (regular.attributes t ht as has) inside

theorem costs_declaration {d : Declaration} (regular : d.tags.Regular)
    (h : Holds a 126 n (declarationValue d) used) : Costs (readDeclaration a n) d used := by
  obtain ⟨expression, tags⟩ := d
  cases tags with
  | nil =>
    obtain ⟨parts, m, k, rfl, held, cost⟩ := h.record false ["expression", "tags"]
      (by simp [Entries.keys]) (by simp [Entries.keys])
    obtain _ | ⟨stated, _ | _⟩ := held
    exact cost.bind (stated.text.returning rfl)
  | cons t tags =>
    obtain ⟨parts, m, k, rfl, held, cost⟩ := h.record false ["expression", "tags"]
      (by simp [Entries.keys]) (by simp [Entries.keys])
    obtain _ | ⟨stated, _ | ⟨tagged, _ | _⟩⟩ := held
    exact cost.bind (stated.text.bind ((costs_tags regular tagged).returning rfl))

theorem costs_archive {c : Collection} {names : ArtifactNames} (regular : c.Regular)
    (h : Holds a maxDepth n (.map (documentFields (.ofCollection c names))) used) :
    Costs (readArchive a n) (.ofCollection c names) used := by
  obtain ⟨parts, m, k, rfl, held, cost⟩ := h.record true ["class", "base_class", "rules"]
    (by simp [documentFields, Entries.keys]) (by simp [documentFields, Entries.keys])
  obtain _ | ⟨named, _ | ⟨based, _ | ⟨ruled, _ | _⟩⟩⟩ := held
  have nodup : (Entries.keys (Archive.ofCollection c names).declared).Nodup := by
    rw [Archive.ofCollection, Entries.keys_mapValues]
    exact regular.nodup
  have rules := ruled.table (readDeclaration a) nodup fun e he _ _ declared => by
    obtain ⟨rule, mem, rfl⟩ := List.mem_map.mp he
    exact costs_declaration (regular.rules rule mem).tags declared
  exact cost.bind (named.text.bind (based.text.bind (rules.returning rfl)))

/-- The banner is a comment line. -/
theorem document?_banner {text : String} {d : Document} (read : document? text.toList = some d) :
    document? (banner ++ text).toList = some d := by
  have whole : banner.toList = '#' :: (banner.toList.drop 1).dropLast ++ ['\n'] := by
    decide +kernel
  have allowed : (banner.toList.drop 1).dropLast.all isAllowed = true := by decide +kernel
  have plain : (banner.toList.drop 1).dropLast.all (fun ch => !isBreak ch) = true := by
    decide +kernel
  have line : (banner ++ text).toList = commentLine (banner.toList.drop 1).dropLast text.toList := by
    rw [String.toList_append, commentLine, whole]
    simp
  rw [line]
  exact document?_commentLine (List.all_eq_true.mp allowed) (by simpa using plain) read

/-- Where the library reads back the document that it wrote, reading gives what was captured, unless
the class has no name. -/
theorem readDocument_of_library {c : Collection} {names : ArtifactNames} (regular : c.Regular)
    (library : Writer.RoundTrips (documentFields (.ofCollection c names))) :
    readDocument (Bytes.ofText (writeDocument c names)) =
      if names.className = "" then .error .emptyClassName else .ok (.ofCollection c names) := by
  obtain ⟨d, found, library⟩ := Option.bind_eq_some_iff.mp library
  obtain ⟨w, whole, tree⟩ := Option.bind_eq_some_iff.mp library
  obtain ⟨⟨_, left⟩, run, rfl⟩ := Option.map_eq_some_iff.mp whole
  obtain ⟨used, enough, cost⟩ := metered_whole d.anchors maxDepth d.root _ _ _ run
  have read := costs_archive regular ⟨_, cost, tree⟩ left
  rw [readDocument, Bytes.text?_ofText, Option.bind_some, writeDocument, document?_banner found,
    Option.bind_some, run?, enough, read]
  exact ite_congr rfl (fun _ => rfl) fun _ => Archive.checked_ofCollection regular names

theorem readDocument_writeDocument {c : Collection} {names : ArtifactNames} (regular : c.Regular)
    (named : names.className ≠ "")
    (library : Writer.RoundTrips (documentFields (.ofCollection c names))) :
    readDocument (Bytes.ofText (writeDocument c names)) = .ok (.ofCollection c names) := by
  rw [readDocument_of_library regular library, if_neg named]

/-- Where the library reads back the document that it wrote, a YAML artifact is read as the
collection it was written for, as a binary one is. -/
theorem read_write_of_library {c : Collection} {names : ArtifactNames} (reachable : c.Reachable)
    (named : names.className ≠ "")
    (library : Writer.RoundTrips (documentFields (.ofCollection c names))) :
    (∃ bytes, ArtifactKind.yaml.write c names = .ok bytes ∧
      ArtifactKind.yaml.read bytes = .ok (.ofCollection c names)) ∧
      ∀ bytes, ArtifactKind.binary.write c names = .ok bytes →
        ArtifactKind.binary.read bytes = .ok (.ofCollection c names) := by
  refine ⟨⟨Bytes.ofText (writeDocument c names), rfl, ?_⟩, fun bytes written => ?_⟩
  · rw [ArtifactKind.read]
    exact readDocument_writeDocument reachable.regular named library
  · exact readBinary_of_regular reachable.regular named written

/-- Texts that spell other atoms, a whole number as a binary64 number, collections with nothing in
them, and a rule without tags. -/
def spelledSample : Collection :=
  (Collection.empty.add "a" ⟨"x", []⟩).add "b" (Rule.addTag ⟨"1", []⟩ "t"
    [("n", .string "null"), ("f", .float ⟨0x4000000000000000⟩), ("l", .list [.list [], .map []])])

theorem spelledSample_reachable : spelledSample.Reachable := by
  have plain {expression : String} (stated : Text.isBlank expression = false) :
      Rule.Reachable ⟨expression, []⟩ :=
    .new (Rule.new_eq_ok_iff.mpr ⟨stated, rfl⟩)
  refine .add (.add .empty "a" (plain (by decide))) "b" ((plain (by decide)).addTag "t" ?_)
  refine ⟨by decide, ?_⟩
  simp [Value.Regular, Value.RegularItems, Value.RegularFields, Entries.keys]

theorem read_write_of_library_spelled :
    (∃ bytes, ArtifactKind.yaml.write spelledSample ⟨"C", "B"⟩ = .ok bytes ∧
      ArtifactKind.yaml.read bytes = .ok (.ofCollection spelledSample ⟨"C", "B"⟩)) ∧
      ∀ bytes, ArtifactKind.binary.write spelledSample ⟨"C", "B"⟩ = .ok bytes →
        ArtifactKind.binary.read bytes = .ok (.ofCollection spelledSample ⟨"C", "B"⟩) :=
  read_write_of_library spelledSample_reachable (by decide) (by decide +kernel)

end Artifact

end RuleRegistry
