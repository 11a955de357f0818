import Mathlib.Logic.ExistsUnique
import RuleRegistry.Proofs.LooseEquality

namespace RuleRegistry

namespace Comparison

/-- The comparisons that ask for an order. -/
def relations : List Comparison := [.lt, .le, .gt, .ge]

/-- The comparisons that exclude each other. -/
def strict : List Comparison := [.lt, .eq, .gt]

def ofOrdering : Ordering → Comparison
  | .lt => .lt
  | .eq => .eq
  | .gt => .gt

theorem ofOrdering_mem_strict (o : Ordering) : ofOrdering o ∈ strict := by cases o <;> decide

theorem accepts_iff_of_mem_strict {c : Comparison} (mem : c ∈ strict) (o : Ordering) :
    c.accepts o = true ↔ c = ofOrdering o := by
  cases c with
  | ne | ge | le => simp [strict] at mem
  | eq | gt | lt => cases o <;> decide

end Comparison

namespace Value

theorem compare?_of_mem_relations {c : Comparison} (mem : c ∈ Comparison.relations) (a b : Value) :
    compare? c a b = (order? a b).map c.accepts := by
  cases c with
  | eq | ne => simp [Comparison.relations] at mem
  | gt | ge | lt | le => rfl

/-- The pairs of values that have an order: numbers, but not NaN, and texts. -/
inductive Ordered : Value → Value → Ordering → Prop
  | int (m n : Int64) : Ordered (int m) (int n) (compare m.toInt n.toInt)
  | float {x y : Binary64} {o : Ordering} (order : Binary64.compare? x y = some o) :
      Ordered (float x) (float y) o
  | intFloat {n : Int64} {x : Binary64} {o : Ordering}
      (order : Binary64.compare? (Binary64.ofInt n.toInt) x = some o) : Ordered (int n) (float x) o
  | floatInt {x : Binary64} {n : Int64} {o : Ordering}
      (order : Binary64.compare? x (Binary64.ofInt n.toInt) = some o) : Ordered (float x) (int n) o
  | string (s t : String) : Ordered (string s) (string t) (compare s t)

section Ordered

variable {a b : Value} {o : Ordering}

theorem order?_eq_some_iff : order? a b = some o ↔ Ordered a b o := by
  constructor
  · intro order
    unfold order? at order
    split at order
    · exact Option.some.inj order ▸ .int _ _
    · exact .float order
    · exact .intFloat order
    · exact .floatInt order
    · exact Option.some.inj order ▸ .string _ _
    · cases order
  · intro ordered
    cases ordered with
    | int | string => rfl
    | float order | intFloat order | floatInt order => exact order

theorem compare?_turned {x y : Binary64} (order : Binary64.compare? x y = some o) :
    Binary64.compare? y x = some o.swap := by
  rw [Binary64.compare?_swap, order, Option.map_some]

theorem Ordered.swap (ordered : Ordered a b o) : Ordered b a o.swap := by
  cases ordered with
  | int m n =>
    rw [← Std.OrientedCmp.eq_swap]
    exact .int n m
  | float order => exact .float (compare?_turned order)
  | intFloat order => exact .floatInt (compare?_turned order)
  | floatInt order => exact .intFloat (compare?_turned order)
  | string s t =>
    rw [← Std.OrientedCmp.eq_swap]
    exact .string t s

theorem order?_turned : order? b a = (order? a b).map Ordering.swap := by
  cases order : order? a b with
  | some o => exact order?_eq_some_iff.mpr (order?_eq_some_iff.mp order).swap
  | none =>
    cases turned : order? b a with
    | none => rfl
    | some o =>
      have again := order?_eq_some_iff.mpr (order?_eq_some_iff.mp turned).swap
      cases order.symm.trans again

theorem equal_eq_of_compare? {x y : Binary64} (order : Binary64.compare? x y = some o) :
    Binary64.equal x y = (o == .eq) := by
  rw [Binary64.equal, order]
  rfl

/-- Loose equality does not go by the order of values, but it agrees with it. -/
theorem Ordered.looseEq_eq (ordered : Ordered a b o) : looseEq a b = (o == .eq) := by
  cases ordered with
  | int m n =>
    have whole : compare m.toInt n.toInt = .eq ↔ m = n :=
      Std.compare_eq_iff_eq.trans Int64.toInt_inj
    rw [Bool.eq_iff_iff, beq_iff_eq, whole]
    exact beq_iff_eq
  | float order => exact equal_eq_of_compare? order
  | intFloat order => exact equal_eq_of_compare? order
  | floatInt order => exact equal_eq_of_compare? order
  | string s t =>
    have text : compare s t = .eq ↔ s = t := Std.compare_eq_iff_eq
    rw [Bool.eq_iff_iff, beq_iff_eq, text]
    exact beq_iff_eq

/-- Every comparison is read off the order. -/
theorem Ordered.compare?_eq (ordered : Ordered a b o) (c : Comparison) :
    compare? c a b = some (c.accepts o) := by
  have order := order?_eq_some_iff.mpr ordered
  cases c with
  | eq => exact congrArg some ordered.looseEq_eq
  | ne => exact congrArg (fun e => some (!e)) ordered.looseEq_eq
  | gt | ge | lt | le => rw [compare?_of_mem_relations (by decide), order, Option.map_some]

end Ordered

def Holds (c : Comparison) (a b : Value) : Prop := compare? c a b = some true

/-- Of two values one comes first or they are equal, and the weak relations say just that. -/
structure Trichotomy (a b : Value) : Prop where
  one : ∃! c, c ∈ Comparison.strict ∧ Holds c a b
  le : Holds .le a b ↔ Holds .lt a b ∨ Holds .eq a b
  ge : Holds .ge a b ↔ Holds .gt a b ∨ Holds .eq a b

theorem Ordered.trichotomy {a b : Value} {o : Ordering} (ordered : Ordered a b o) :
    Trichotomy a b := by
  have holds (c : Comparison) : Holds c a b ↔ c.accepts o = true := by
    rw [Holds, ordered.compare?_eq, Option.some.injEq]
  constructor
  · refine ⟨.ofOrdering o, ⟨Comparison.ofOrdering_mem_strict o, ?_⟩, fun c h => ?_⟩
    · exact (holds _).mpr ((Comparison.accepts_iff_of_mem_strict
        (Comparison.ofOrdering_mem_strict o) o).mpr rfl)
    · exact (Comparison.accepts_iff_of_mem_strict h.1 o).mp ((holds c).mp h.2)
  · simp only [holds]
    cases o <;> decide
  · simp only [holds]
    cases o <;> decide

/-- What the comparisons of two values say of each other. -/
structure Coherent (a b : Value) : Prop where
  defined : (∀ c ∈ Comparison.relations, (compare? c a b).isSome ∧ (compare? c b a).isSome) ∨
    ∀ c ∈ Comparison.relations, compare? c a b = none ∧ compare? c b a = none
  trichotomy : ∀ c ∈ Comparison.relations, (compare? c a b).isSome → Trichotomy a b
  mirror : compare? .lt a b = compare? .gt b a
  equality : ∃ e, compare? .eq a b = some e ∧ compare? .ne a b = some (!e) ∧
    compare? .eq b a = some e ∧ compare? .ne b a = some (!e)

theorem coherent {a b : Value} (ha : a.Regular) (hb : b.Regular) : Coherent a b where
  defined := by
    cases order : order? a b with
    | some o =>
      refine .inl fun c mem => ?_
      rw [compare?_of_mem_relations mem, compare?_of_mem_relations mem, order?_turned (a := a), order]
      exact ⟨rfl, rfl⟩
    | none =>
      refine .inr fun c mem => ?_
      rw [compare?_of_mem_relations mem, compare?_of_mem_relations mem, order?_turned (a := a), order]
      exact ⟨rfl, rfl⟩
  trichotomy c mem defined := by
    rw [compare?_of_mem_relations mem, Option.isSome_map] at defined
    obtain ⟨o, order⟩ := Option.isSome_iff_exists.mp defined
    exact (order?_eq_some_iff.mp order).trichotomy
  mirror := by
    have turned (o : Ordering) : Comparison.lt.accepts o = Comparison.gt.accepts o.swap := by
      cases o <;> rfl
    simp only [compare?, order?_turned (a := a), Option.map_map]
    exact congrArg (fun f => (order? a b).map f) (funext turned)
  equality := ⟨looseEq a b, rfl, rfl, by rw [looseEq_comm ha hb]; rfl, by rw [looseEq_comm ha hb]; rfl⟩

end Value

namespace Expr

/-- The comparisons are coherent, and the operators evaluate to what they say of the operands; where
they say nothing, the types do not match. -/
theorem eval_compare {a b : Value} (ha : a.Regular) (hb : b.Regular) :
    a.Coherent b ∧ ∀ (functions : Entries Function) (ctx : Context) (l r : Expr),
      l.eval functions ctx = .ok a → r.eval functions ctx = .ok b →
        ∀ c, (binary (.compare c) l r).eval functions ctx =
          match Value.compare? c a b with
          | some holds => .ok (.bool holds)
          | none => .error (.typeMismatch c.symbol a.typeName b.typeName) := by
  refine ⟨Value.coherent ha hb, fun functions ctx l r left right c => ?_⟩
  rw [eval_binary rfl left right, Value.applyBinary]
  cases Value.compare? c a b <;> rfl

/-- Two maps of the same entries. -/
def turnedMaps : Context :=
  ⟨[("a", .map [("x", .int 1), ("y", .null)]), ("b", .map [("y", .null), ("x", .int 1)])]⟩

/-- A whole number comes before a binary64 number; equal maps have no order. -/
theorem eval_compare_number_map :
    (Value.int 1).Coherent (.float ⟨0x3ff8000000000000⟩) ∧
    (binary (.compare .lt) (literal (.int 1)) (literal (.float ⟨0x3ff8000000000000⟩))).eval [] {} =
      .ok (.bool true) ∧
    (Value.map [("x", .int 1), ("y", .null)]).Coherent (.map [("y", .null), ("x", .int 1)]) ∧
    (binary (.compare .eq) (name "a" []) (name "b" [])).eval [] turnedMaps = .ok (.bool true) ∧
    (binary (.compare .le) (name "a" []) (name "b" [])).eval [] turnedMaps =
      .error (.typeMismatch "<=" "map" "map") := by
  have one : (literal (.int 1)).eval [] {} = .ok (.int 1) := rfl
  have more : (literal (.float ⟨0x3ff8000000000000⟩)).eval [] {} =
      .ok (.float ⟨0x3ff8000000000000⟩) := rfl
  have below : Value.compare? .lt (.int 1) (.float ⟨0x3ff8000000000000⟩) = some true := by
    decide +kernel
  obtain ⟨coherent, compared⟩ :=
    eval_compare (a := .int 1) (b := .float ⟨0x3ff8000000000000⟩) trivial trivial
  have less := compared [] {} _ _ one more .lt
  rw [below] at less
  have first : (name "a" []).eval [] turnedMaps = .ok (.map [("x", .int 1), ("y", .null)]) := rfl
  have second : (name "b" []).eval [] turnedMaps = .ok (.map [("y", .null), ("x", .int 1)]) := rfl
  have regular : (Value.map [("x", .int 1), ("y", .null)]).Regular :=
    ⟨by decide, trivial, trivial, trivial⟩
  have turned : (Value.map [("y", .null), ("x", .int 1)]).Regular :=
    ⟨by decide, trivial, trivial, trivial⟩
  obtain ⟨alike, maps⟩ := eval_compare regular turned
  have evaluated := maps [] turnedMaps _ _ first second
  exact ⟨coherent, less, alike, evaluated .eq, evaluated .le⟩

end Expr

end RuleRegistry
