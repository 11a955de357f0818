import Mathlib.Data.List.Perm.Subperm
import RuleRegistry.Expr.Eval
import RuleRegistry.Proofs.Regular

/-!
Loose equality. Values are loosely equal when they are alike, that is of the same shape with equal
scalars, a number of either kind being what it is worth. Lists pass this on to their items, but maps
compare what they hold strictly: inside of a map a whole number never equals a binary64 number.
-/

namespace RuleRegistry

namespace Value

/-- Lists of one length with related values position by position. -/
structure Itemwise (R : Value → Value → Prop) (xs ys : List Value) : Prop where
  length : xs.length = ys.length
  items : ∀ (i : Nat) x y, xs[i]? = some x → ys[i]? = some y → R x y

/-- Maps with the same keys and related values under each of them. -/
structure Keywise (R : Value → Value → Prop) (es fs : Entries Value) : Prop where
  keys : ∀ key, key ∈ Entries.keys es ↔ key ∈ Entries.keys fs
  values : ∀ key x y, Entries.find? es key = some x → Entries.find? fs key = some y → R x y

theorem itemwise_cons {R : Value → Value → Prop} {x y : Value} {xs ys : List Value} :
    Itemwise R (x :: xs) (y :: ys) ↔ R x y ∧ Itemwise R xs ys := by
  constructor
  · rintro ⟨length, items⟩
    exact ⟨items 0 x y rfl rfl, Nat.succ.inj length, fun i => items (i + 1)⟩
  · rintro ⟨first, length, items⟩
    refine ⟨congrArg Nat.succ length, fun i => ?_⟩
    cases i with
    | zero =>
      rintro _ _ ⟨⟩ ⟨⟩
      exact first
    | succ i => exact items i

theorem itemwise_nil {R : Value → Value → Prop} {ys : List Value} : Itemwise R [] ys ↔ ys = [] := by
  constructor
  · exact fun h => List.eq_nil_of_length_eq_zero h.length.symm
  · rintro rfl
    exact ⟨rfl, nofun⟩

theorem itemwise_congr {R S : Value → Value → Prop} {xs ys : List Value}
    (same : ∀ x ∈ xs, ∀ y ∈ ys, (R x y ↔ S x y)) : Itemwise R xs ys ↔ Itemwise S xs ys := by
  have each (i : Nat) x y (left : xs[i]? = some x) (right : ys[i]? = some y) :=
    same x (List.mem_of_getElem? left) y (List.mem_of_getElem? right)
  constructor
  · exact fun h => ⟨h.length, fun i x y left right => (each i x y left right).mp (h.items i x y left right)⟩
  · exact fun h => ⟨h.length, fun i x y left right => (each i x y left right).mpr (h.items i x y left right)⟩

theorem keywise_congr {R S : Value → Value → Prop} {es fs : Entries Value}
    (same : ∀ e ∈ es, ∀ f ∈ fs, (R e.2 f.2 ↔ S e.2 f.2)) : Keywise R es fs ↔ Keywise S es fs := by
  have each key x y (left : Entries.find? es key = some x) (right : Entries.find? fs key = some y) :=
    same _ (Entries.mem_of_find? left) _ (Entries.mem_of_find? right)
  constructor
  · exact fun h => ⟨h.keys, fun key x y left right =>
      (each key x y left right).mp (h.values key x y left right)⟩
  · exact fun h => ⟨h.keys, fun key x y left right =>
      (each key x y left right).mpr (h.values key x y left right)⟩

/-- A test of lists that runs along both of them tests item by item. -/
theorem itemwise_iff_of_run {test : Value → Value → Bool} {run : List Value → List Value → Bool}
    (nil : ∀ ys, run [] ys = ys.isEmpty) (longer : ∀ x xs, run (x :: xs) [] = false)
    (cons : ∀ x xs y ys, run (x :: xs) (y :: ys) = (test x y && run xs ys)) {xs ys : List Value} :
    run xs ys = true ↔ Itemwise (fun x y => test x y = true) xs ys := by
  induction xs generalizing ys with
  | nil => rw [nil, List.isEmpty_iff, itemwise_nil]
  | cons x xs ih =>
    cases ys with
    | nil => exact iff_of_false (by simp [longer]) fun h => nomatch h.length
    | cons y ys => rw [cons, Bool.and_eq_true, ih, itemwise_cons]

theorem sameItems_iff {xs ys : List Value} :
    sameItems xs ys = true ↔ Itemwise (fun x y => same x y = true) xs ys :=
  itemwise_iff_of_run (fun ys => by cases ys <;> rfl) (fun _ _ => rfl) fun _ _ _ _ => rfl

theorem looseEqItems_iff {xs ys : List Value} :
    looseEqItems xs ys = true ↔ Itemwise (fun x y => looseEq x y = true) xs ys :=
  itemwise_iff_of_run (fun ys => by cases ys <;> rfl) (fun _ _ => rfl) fun _ _ _ _ => rfl

theorem sameIn_iff {es fs : Entries Value} :
    sameIn es fs = true ↔ ∀ e ∈ es, ∃ y, Entries.find? fs e.1 = some y ∧ same e.2 y = true := by
  induction es with
  | nil => simp [sameIn]
  | cons e rest ih =>
    obtain ⟨k, x⟩ := e
    rw [sameIn, Bool.and_eq_true, ih, List.forall_mem_cons]
    refine and_congr_left fun _ => ?_
    cases Entries.find? fs k <;> simp

theorem same_map_iff {es fs : Entries Value} (left : (Entries.keys es).Nodup)
    (right : (Entries.keys fs).Nodup) :
    same (map es) (map fs) = true ↔ Keywise (fun x y => same x y = true) es fs := by
  rw [same, Bool.and_eq_true, beq_iff_eq, sameIn_iff]
  constructor
  · rintro ⟨lengths, inside⟩
    have fewer : Entries.keys es ⊆ Entries.keys fs := by
      intro key mem
      obtain ⟨e, there, rfl⟩ := List.mem_map.mp mem
      obtain ⟨y, found, _⟩ := inside e there
      exact Entries.has_iff.mp (by rw [Entries.has, found, Option.isSome_some])
    have perm : (Entries.keys es).Perm (Entries.keys fs) :=
      (left.subperm fewer).perm_of_length_le (by simp [Entries.keys, lengths])
    refine ⟨fun key => perm.mem_iff, fun key x y there found => ?_⟩
    obtain ⟨z, again, equal⟩ := inside (key, x) (Entries.mem_of_find? there)
    cases found.symm.trans again
    exact equal
  · rintro ⟨keys, values⟩
    have perm := (List.perm_ext_iff_of_nodup left right).mpr keys
    refine ⟨by simpa [Entries.keys] using perm.length_eq, fun e there => ?_⟩
    have known : Entries.find? fs e.1 ≠ none := fun absent =>
      (Entries.find?_eq_none_iff fs e.1).mp absent ((keys e.1).mp (List.mem_map_of_mem there))
    obtain ⟨y, found⟩ := Option.ne_none_iff_exists'.mp known
    exact ⟨y, found, values e.1 e.2 y ((Entries.find?_eq_some_iff left).mpr there) found⟩

/-- The same shape with equal scalars, a number of either kind being what it is worth. -/
inductive Alike : Value → Value → Prop
  | null : Alike null null
  | bool (b : Bool) : Alike (bool b) (bool b)
  | int (n : Int64) : Alike (int n) (int n)
  | float {x y : Binary64} (equal : Binary64.equal x y = true) : Alike (float x) (float y)
  | intFloat {n : Int64} {x : Binary64} (equal : Binary64.equal (Binary64.ofInt n.toInt) x = true) :
      Alike (int n) (float x)
  | floatInt {x : Binary64} {n : Int64} (equal : Binary64.equal x (Binary64.ofInt n.toInt) = true) :
      Alike (float x) (int n)
  | string (s : String) : Alike (string s) (string s)
  | list {xs ys : List Value} (length : xs.length = ys.length)
      (items : ∀ (i : Nat) x y, xs[i]? = some x → ys[i]? = some y → Alike x y) : Alike (list xs) (list ys)
  | map {es fs : Entries Value} (keys : ∀ key, key ∈ Entries.keys es ↔ key ∈ Entries.keys fs)
      (values : ∀ key x y, Entries.find? es key = some x → Entries.find? fs key = some y → Alike x y) :
      Alike (map es) (map fs)

theorem equal_symm {x y : Binary64} (equal : Binary64.equal x y = true) :
    Binary64.equal y x = true := by
  rw [Binary64.equal_iff] at equal ⊢
  exact ⟨equal.2.1, equal.1, equal.2.2.symm⟩

theorem Alike.symm {x y : Value} (alike : Alike x y) : Alike y x := by
  induction alike with
  | null => exact .null
  | bool b => exact .bool b
  | int n => exact .int n
  | float equal => exact .float (equal_symm equal)
  | intFloat equal => exact .floatInt (equal_symm equal)
  | floatInt equal => exact .intFloat (equal_symm equal)
  | string s => exact .string s
  | list length _ ih => exact .list length.symm fun i x y left right => ih i y x right left
  | map keys _ ih =>
    exact .map (fun key => (keys key).symm) fun key x y left right => ih key y x right left

/-- The way from a value to a part of it. -/
inductive Step where
  | item (i : Nat)
  | key (k : String)

def part? : Value → Step → Option Value
  | list items, .item i => items[i]?
  | map entries, .key k => Entries.find? entries k
  | _, _ => none

/-- What stands at the end of a path, if it leads anywhere. -/
def follow? : Value → List Step → Option Value
  | v, [] => some v
  | v, step :: rest => (v.part? step).bind fun w => follow? w rest

/-- The path leads to a whole number in the one value and to a binary64 number in the other. -/
def Mixed (x y : Value) (path : List Step) : Prop :=
  ∃ n z, (x.follow? path = some (int n) ∧ y.follow? path = some (float z)) ∨
    (x.follow? path = some (float z) ∧ y.follow? path = some (int n))

theorem Mixed.symm {x y : Value} {path : List Step} : Mixed x y path → Mixed y x path := by
  rintro ⟨n, z, ⟨left, right⟩ | ⟨left, right⟩⟩
  · exact ⟨n, z, .inr ⟨right, left⟩⟩
  · exact ⟨n, z, .inl ⟨right, left⟩⟩

theorem mixed_cons_iff {x y : Value} {step : Step} {rest : List Step} :
    Mixed x y (step :: rest) ↔
      ∃ v w, x.part? step = some v ∧ y.part? step = some w ∧ Mixed v w rest := by
  simp only [Mixed, follow?, Option.bind_eq_some_iff]
  constructor
  · rintro ⟨n, z, ⟨⟨v, left, hv⟩, w, right, hw⟩ | ⟨⟨v, left, hv⟩, w, right, hw⟩⟩
    · exact ⟨v, w, left, right, n, z, .inl ⟨hv, hw⟩⟩
    · exact ⟨v, w, left, right, n, z, .inr ⟨hv, hw⟩⟩
  · rintro ⟨v, w, left, right, n, z, ⟨hv, hw⟩ | ⟨hv, hw⟩⟩
    · exact ⟨n, z, .inl ⟨⟨v, left, hv⟩, w, right, hw⟩⟩
    · exact ⟨n, z, .inr ⟨⟨v, left, hv⟩, w, right, hw⟩⟩

/-- No path of a kind leads to numbers of both kinds. -/
def Apart (Q : List Step → Prop) (x y : Value) : Prop := ∀ path, Q path → ¬ Mixed x y path

theorem apart_iff_of_parts {Q : List Step → Prop} {x y : Value} (root : Q [] → ¬ Mixed x y []) :
    Apart Q x y ↔ ∀ step v w, x.part? step = some v → y.part? step = some w →
      Apart (fun rest => Q (step :: rest)) v w := by
  constructor
  · intro apart step v w left right rest q mixed
    exact apart _ q (mixed_cons_iff.mpr ⟨v, w, left, right, mixed⟩)
  · intro each path q mixed
    cases path with
    | nil => exact root q mixed
    | cons step rest =>
      obtain ⟨v, w, left, right, inside⟩ := mixed_cons_iff.mp mixed
      exact each step v w left right rest q inside

theorem apart_list_iff {Q : List Step → Prop} {xs ys : List Value} :
    Apart Q (list xs) (list ys) ↔
      ∀ (i : Nat) x y, xs[i]? = some x → ys[i]? = some y → Apart (fun rest => Q (.item i :: rest)) x y := by
  rw [apart_iff_of_parts fun _ => by simp [Mixed, follow?]]
  constructor
  · exact fun each i => each (.item i)
  · intro each step v w left right
    cases step with
    | item i => exact each i v w left right
    | key k => cases left

theorem apart_map_iff {Q : List Step → Prop} {es fs : Entries Value} :
    Apart Q (map es) (map fs) ↔ ∀ key x y, Entries.find? es key = some x →
      Entries.find? fs key = some y → Apart (fun rest => Q (.key key :: rest)) x y := by
  rw [apart_iff_of_parts fun _ => by simp [Mixed, follow?]]
  constructor
  · exact fun each key => each (.key key)
  · intro each step v w left right
    cases step with
    | item i => cases left
    | key k => exact each k v w left right

/-- Alike, and with numbers of the same kind wherever a path of a kind leads. -/
structure Agree (Q : List Step → Prop) (x y : Value) : Prop where
  alike : Alike x y
  apart : Apart Q x y

section Agree

variable {Q : List Step → Prop} {x y : Value}

theorem Agree.symm (h : Agree Q x y) : Agree Q y x :=
  ⟨h.alike.symm, fun path q mixed => h.apart path q mixed.symm⟩

/-- Of values without parts only the values themselves can be mixed. -/
theorem agree_iff_of_no_part (no_part : ∀ step, x.part? step = none) (root : Q [] → ¬ Mixed x y []) :
    Agree Q x y ↔ Alike x y := by
  refine ⟨Agree.alike, fun alike => ⟨alike, (apart_iff_of_parts root).mpr fun step v w left _ => ?_⟩⟩
  cases (no_part step).symm.trans left

theorem agree_list_iff {xs ys : List Value} (skips : ∀ i rest, Q (.item i :: rest) ↔ Q rest) :
    Agree Q (list xs) (list ys) ↔ Itemwise (Agree Q) xs ys := by
  constructor
  · rintro ⟨alike, apart⟩
    cases alike with
    | list length items =>
      refine ⟨length, fun i x y left right => ⟨items i x y left right, fun path q => ?_⟩⟩
      exact apart_list_iff.mp apart i x y left right path ((skips i path).mpr q)
  · intro h
    refine ⟨.list h.length fun i x y left right => (h.items i x y left right).alike, ?_⟩
    exact apart_list_iff.mpr fun i x y left right path q =>
      (h.items i x y left right).apart path ((skips i path).mp q)

theorem agree_map_iff {es fs : Entries Value} (strict : ∀ key rest, Q (.key key :: rest)) :
    Agree Q (map es) (map fs) ↔ Keywise (Agree fun _ => True) es fs := by
  constructor
  · rintro ⟨alike, apart⟩
    cases alike with
    | map keys values =>
      refine ⟨keys, fun key x y left right => ⟨values key x y left right, fun path _ => ?_⟩⟩
      exact apart_map_iff.mp apart key x y left right path (strict key path)
  · intro h
    refine ⟨.map h.keys fun key x y left right => (h.values key x y left right).alike, ?_⟩
    exact apart_map_iff.mpr fun key x y left right path _ =>
      (h.values key x y left right).apart path trivial

end Agree

/-- Strict equality tells the kinds of numbers apart everywhere. -/
theorem same_iff {x y : Value} (hx : x.Regular) (hy : y.Regular) :
    same x y = true ↔ Agree (fun _ => True) x y := by
  induction x using nested generalizing y with
  | null =>
    rw [agree_iff_of_no_part (fun _ => rfl) (by simp [Mixed, follow?])]
    refine ⟨fun equal => ?_, fun | .null => rfl⟩
    cases y <;> simp [same] at equal
    exact .null
  | bool b =>
    rw [agree_iff_of_no_part (fun _ => rfl) (by simp [Mixed, follow?])]
    refine ⟨fun equal => ?_, fun | .bool b => beq_self_eq_true b⟩
    cases y <;> simp [same] at equal
    exact equal ▸ .bool b
  | string s =>
    rw [agree_iff_of_no_part (fun _ => rfl) (by simp [Mixed, follow?])]
    refine ⟨fun equal => ?_, fun | .string s => beq_self_eq_true s⟩
    cases y <;> simp [same] at equal
    exact equal ▸ .string s
  | int n =>
    cases y with
    | int m =>
      rw [agree_iff_of_no_part (fun _ => rfl) (by simp [Mixed, follow?]), same, beq_iff_eq]
      exact ⟨fun equal => equal ▸ .int n, fun | .int _ => rfl⟩
    | float z => exact iff_of_false nofun fun h => h.apart [] trivial ⟨n, z, .inl ⟨rfl, rfl⟩⟩
    | _ => exact iff_of_false (by simp [same]) fun h => nomatch h.alike
  | float z =>
    cases y with
    | float w =>
      rw [agree_iff_of_no_part (fun _ => rfl) (by simp [Mixed, follow?]), same]
      exact ⟨.float, fun | .float equal => equal⟩
    | int n => exact iff_of_false nofun fun h => h.apart [] trivial ⟨n, z, .inr ⟨rfl, rfl⟩⟩
    | _ => exact iff_of_false (by simp [same]) fun h => nomatch h.alike
  | list xs ih =>
    cases y with
    | list ys =>
      rw [same, sameItems_iff, agree_list_iff fun _ _ => Iff.rfl]
      exact itemwise_congr fun x left y right =>
        ih x left ((regularItems_iff xs).mp hx x left) ((regularItems_iff ys).mp hy y right)
    | _ => exact iff_of_false (by simp [same]) fun h => nomatch h.alike
  | map es ih =>
    cases y with
    | map fs =>
      rw [same_map_iff hx.1 hy.1, agree_map_iff fun _ _ => trivial]
      exact keywise_congr fun e left f right =>
        ih e left ((regularFields_iff es).mp hx.2 e left) ((regularFields_iff fs).mp hy.2 f right)
    | _ => exact iff_of_false (by simp [same]) fun h => nomatch h.alike

/-- The path goes through a map. -/
def InMap (path : List Step) : Prop := ∃ key, .key key ∈ path

theorem not_inMap_nil : ¬ InMap [] := by simp [InMap]

theorem looseEq_iff_of_no_part {x y : Value} (hx : x.Regular) (hy : y.Regular)
    (strict : looseEq x y = same x y) (no_part : ∀ step, x.part? step = none)
    (unmixed : ¬ Mixed x y []) : looseEq x y = true ↔ Agree InMap x y := by
  rw [strict, same_iff hx hy, agree_iff_of_no_part no_part fun _ => unmixed,
    agree_iff_of_no_part no_part fun _ => unmixed]

/-- Loose equality tells the kinds of numbers apart inside of maps only. -/
theorem looseEq_iff {x y : Value} (hx : x.Regular) (hy : y.Regular) :
    looseEq x y = true ↔ Agree InMap x y := by
  induction x using nested generalizing y with
  | null | bool | string =>
    refine looseEq_iff_of_no_part hx hy ?_ (fun _ => rfl) (by simp [Mixed, follow?])
    cases y <;> rfl
  | int n =>
    cases y with
    | float z =>
      rw [agree_iff_of_no_part (fun _ => rfl) fun inside => absurd inside not_inMap_nil]
      exact ⟨.intFloat, fun | .intFloat equal => equal⟩
    | _ => exact looseEq_iff_of_no_part hx hy rfl (fun _ => rfl) (by simp [Mixed, follow?])
  | float z =>
    cases y with
    | int n =>
      rw [agree_iff_of_no_part (fun _ => rfl) fun inside => absurd inside not_inMap_nil]
      exact ⟨.floatInt, fun | .floatInt equal => equal⟩
    | _ => exact looseEq_iff_of_no_part hx hy rfl (fun _ => rfl) (by simp [Mixed, follow?])
  | list xs ih =>
    cases y with
    | list ys =>
      rw [looseEq, looseEqItems_iff, agree_list_iff fun _ _ => by simp [InMap]]
      exact itemwise_congr fun x left y right =>
        ih x left ((regularItems_iff xs).mp hx x left) ((regularItems_iff ys).mp hy y right)
    | _ => exact iff_of_false (by simp [looseEq, same]) fun h => nomatch h.alike
  | map es =>
    cases y with
    | map fs =>
      have strict : looseEq (map es) (map fs) = same (map es) (map fs) := rfl
      rw [strict, same_iff hx hy, agree_map_iff fun _ _ => trivial,
        agree_map_iff fun key _ => ⟨key, List.mem_cons_self⟩]
    | _ => exact iff_of_false (by simp [looseEq, same]) fun h => nomatch h.alike

theorem looseEq_comm {x y : Value} (hx : x.Regular) (hy : y.Regular) : looseEq x y = looseEq y x := by
  rw [Bool.eq_iff_iff, looseEq_iff hx hy, looseEq_iff hy hx]
  exact ⟨Agree.symm, Agree.symm⟩

theorem looseEq_map_iff {es fs : Entries Value} (hx : (map es).Regular) (hy : (map fs).Regular) :
    looseEq (map es) (map fs) = true ↔
      Keywise (fun x y => looseEq x y = true) es fs ∧ ∀ path, ¬ Mixed (map es) (map fs) path := by
  have values : Keywise (fun x y => looseEq x y = true) es fs ↔ Keywise (Agree InMap) es fs :=
    keywise_congr fun e left f right => looseEq_iff ((regularFields_iff es).mp hx.2 e left)
      ((regularFields_iff fs).mp hy.2 f right)
  rw [values, looseEq_iff hx hy, agree_map_iff fun key _ => ⟨key, List.mem_cons_self⟩]
  constructor
  · intro h
    refine ⟨⟨h.keys, fun key x y left right => ?_⟩, fun path => ?_⟩
    · exact ⟨(h.values key x y left right).alike, fun path _ =>
        (h.values key x y left right).apart path trivial⟩
    · have apart : Apart (fun _ => True) (map es) (map fs) :=
        apart_map_iff.mpr fun key x y left right => (h.values key x y left right).apart
      exact apart path trivial
  · rintro ⟨h, apart⟩
    refine ⟨h.keys, fun key x y left right => ⟨(h.values key x y left right).alike, ?_⟩⟩
    exact fun path _ mixed => apart (.key key :: path) (mixed_cons_iff.mpr ⟨x, y, left, right, mixed⟩)

/-- What loose equality of two values says of their parts. -/
structure EqualityLaw (x y : Value) : Prop where
  lists : ∀ xs ys, x = list xs → y = list ys →
    (looseEq x y = true ↔ Itemwise (fun x y => looseEq x y = true) xs ys)
  maps : ∀ es fs, x = map es → y = map fs →
    (looseEq x y = true ↔
      Keywise (fun x y => looseEq x y = true) es fs ∧ ∀ path, ¬ Mixed x y path)
  depths : looseEq x y = true ↔ Alike x y ∧ ∀ path, InMap path → ¬ Mixed x y path

theorem equalityLaw {x y : Value} (hx : x.Regular) (hy : y.Regular) : EqualityLaw x y where
  lists xs ys := by
    rintro rfl rfl
    rw [looseEq, looseEqItems_iff]
  maps es fs := by
    rintro rfl rfl
    exact looseEq_map_iff hx hy
  depths := by
    rw [looseEq_iff hx hy]
    exact ⟨fun h => ⟨h.alike, h.apart⟩, fun h => ⟨h.1, h.2⟩⟩

/-- The law of the lists does not hold of the maps. -/
theorem not_looseEq_keywise : ¬ ∀ es fs, (map es).Regular → (map fs).Regular →
    (looseEq (map es) (map fs) = true ↔ Keywise (fun x y => looseEq x y = true) es fs) := by
  intro law
  have unequal : looseEq (map [("k", int 1)]) (map [("k", float ⟨0x3ff0000000000000⟩)]) = false := rfl
  have equal : looseEq (int 1) (float ⟨0x3ff0000000000000⟩) = true := by decide +kernel
  have keywise : Keywise (fun x y => looseEq x y = true) [("k", int 1)]
      [("k", float ⟨0x3ff0000000000000⟩)] := by
    refine ⟨fun _ => Iff.rfl, fun key x y left right => ?_⟩
    cases Entries.mem_of_find? left with
    | head =>
      cases right
      exact equal
    | tail _ none => cases none
  have loose := (law _ _ (by simp [Regular, RegularFields, Entries.keys])
    (by simp [Regular, RegularFields, Entries.keys])).mpr keywise
  exact Bool.false_ne_true (unequal.symm.trans loose)

theorem contains?_list {x : Value} {items : List Value} (hx : x.Regular) (hy : (list items).Regular) :
    contains? (list items) x = some (items.any (looseEq x)) := by
  have turned (item : Value) (mem : item ∈ items) : item.looseEq x = x.looseEq item :=
    looseEq_comm ((regularItems_iff items).mp hy item mem) hx
  rw [contains?, Option.some.injEq, Bool.eq_iff_iff, List.any_eq_true, List.any_eq_true]
  exact exists_congr fun item => and_congr_right fun mem => by rw [turned item mem]

end Value

namespace Expr

/-- The law of two values, and what the operators for equality and for membership in a list give where
they are the operands. -/
theorem eval_equality {x y : Value} (hx : x.Regular) (hy : y.Regular) :
    x.EqualityLaw y ∧ ∀ (functions : Entries Function) (ctx : Context) (l r : Expr),
      l.eval functions ctx = .ok x → r.eval functions ctx = .ok y →
        (binary (.compare .eq) l r).eval functions ctx = .ok (.bool (x.looseEq y)) ∧
        (binary (.compare .ne) l r).eval functions ctx = .ok (.bool (!x.looseEq y)) ∧
        ∀ items, y = .list items →
          (binary .within l r).eval functions ctx = .ok (.bool (items.any x.looseEq)) ∧
          (binary .notWithin l r).eval functions ctx = .ok (.bool (!items.any x.looseEq)) := by
  refine ⟨Value.equalityLaw hx hy, fun functions ctx l r left right => ?_⟩
  refine ⟨eval_binary rfl left right, eval_binary rfl left right, ?_⟩
  rintro items rfl
  rw [eval_binary rfl left right, eval_binary rfl left right, Value.applyBinary, Value.applyBinary,
    Value.contains?_list hx hy]
  exact ⟨rfl, rfl⟩

/-- A number in a list, next to a map with a number. -/
def nextTo (item field : Value) : Value := .list [item, .map [("k", field)]]

/-- Two such lists that differ in the kind of the number. -/
def kinds : Context :=
  ⟨[("a", nextTo (.int 1) (.int 1)), ("b", nextTo (.float ⟨0x3ff0000000000000⟩) (.int 1))]⟩

theorem eval_equality_kinds :
    (nextTo (.int 1) (.int 1)).EqualityLaw (nextTo (.float ⟨0x3ff0000000000000⟩) (.int 1)) ∧
    (binary (.compare .eq) (name "a" []) (name "b" [])).eval [] kinds = .ok (.bool true) := by
  have left : (name "a" []).eval [] kinds = .ok (nextTo (.int 1) (.int 1)) := rfl
  have right : (name "b" []).eval [] kinds =
      .ok (nextTo (.float ⟨0x3ff0000000000000⟩) (.int 1)) := rfl
  have regular (item : Value) (h : item.Regular) : (nextTo item (.int 1)).Regular :=
    ⟨h, ⟨by decide, trivial, trivial⟩, trivial⟩
  have equal : (nextTo (.int 1) (.int 1)).looseEq
      (nextTo (.float ⟨0x3ff0000000000000⟩) (.int 1)) = true := by decide +kernel
  obtain ⟨law, operators⟩ := eval_equality (regular (.int 1) trivial)
    (regular (.float ⟨0x3ff0000000000000⟩) trivial)
  have evaluated := (operators [] kinds _ _ left right).1
  rw [equal] at evaluated
  exact ⟨law, evaluated⟩

end Expr

end RuleRegistry
