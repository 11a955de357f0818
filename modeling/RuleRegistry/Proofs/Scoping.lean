import RuleRegistry.Proofs.Mentions
import RuleRegistry.Proofs.ParseHistory

/-!
Scopes. Reading a text checks its references from left to right. The printer and the evaluator go
over the same tree in their own way: what was read can be printed, and its evaluation meets no
function that is missing and no variable whose root is.
-/

namespace RuleRegistry

open Outcome

namespace Expr

/-- The first expression is the second or stands somewhere in it. -/
inductive Within : Expr → Expr → Prop where
  | self (e : Expr) : Within e e
  | item {part e : Expr} {items : List Expr} : e ∈ items → Within part e → Within part (.array items)
  | operand {part e : Expr} {op : UnaryOp} : Within part e → Within part (.unary op e)
  | left {part e right : Expr} {op : BinaryOp} : Within part e → Within part (.binary op e right)
  | right {part left e : Expr} {op : BinaryOp} : Within part e → Within part (.binary op left e)
  | argument {part e : Expr} {function : String} {args : List Expr} :
    e ∈ args → Within part e → Within part (.call function args)

/-- Somewhere in the expression the variable is looked up, with any keys, or the function called. -/
def RefersTo (e : Expr) : Reference → Prop
  | .variable root => ∃ keys, Within (.name root keys) e
  | .function callee => ∃ args, Within (.call callee args) e

theorem findSome?_congr {α β : Type} {f g : α → Option β} {xs : List α} (h : ∀ x ∈ xs, f x = g x) :
    xs.findSome? f = xs.findSome? g := by
  induction xs with
  | nil => rfl
  | cons x rest ih =>
    obtain ⟨first, others⟩ := List.forall_mem_cons.mp h
    rw [List.findSome?_cons, List.findSome?_cons, first, ih others]

theorem mem_referencesAll {r : Reference} {items : List Expr} :
    r ∈ referencesAll items ↔ ∃ e ∈ items, r ∈ e.references := by
  induction items with
  | nil => exact ⟨nofun, nofun⟩
  | cons e rest ih => rw [referencesAll, List.mem_append, ih, List.exists_mem_cons_iff]

theorem references_of_within {part e : Expr} (within : Within part e) {r : Reference}
    (mem : r ∈ part.references) : r ∈ e.references := by
  induction within with
  | self => exact mem
  | item inside _ ih => exact mem_referencesAll.mpr ⟨_, inside, ih⟩
  | operand _ ih => exact ih
  | left _ ih => exact List.mem_append_left _ ih
  | right _ ih => exact List.mem_append_right _ ih
  | argument inside _ ih => exact List.mem_cons_of_mem _ (mem_referencesAll.mpr ⟨_, inside, ih⟩)

theorem RefersTo.of_within {part e : Expr} {r : Reference} (h : part.RefersTo r)
    (lift : ∀ {inner}, Within inner part → Within inner e) : e.RefersTo r := by
  cases r <;> exact h.imp fun _ within => lift within

mutual

theorem refersTo_of_mem {r : Reference} (e : Expr) (mem : r ∈ e.references) : e.RefersTo r := by
  match e with
  | literal _ => cases mem
  | array items =>
    obtain ⟨e, inside, h⟩ := refersTo_of_memAll items mem
    exact h.of_within (.item inside)
  | name root keys =>
    obtain rfl := List.mem_singleton.mp mem
    exact ⟨keys, .self _⟩
  | unary op operand => exact (refersTo_of_mem operand mem).of_within .operand
  | binary op left right =>
    rcases List.mem_append.mp mem with mem | mem
    · exact (refersTo_of_mem left mem).of_within .left
    · exact (refersTo_of_mem right mem).of_within .right
  | call function args =>
    rcases List.mem_cons.mp mem with rfl | mem
    · exact ⟨args, .self _⟩
    · obtain ⟨e, inside, h⟩ := refersTo_of_memAll args mem
      exact h.of_within (.argument inside)

theorem refersTo_of_memAll {r : Reference} (items : List Expr) (mem : r ∈ referencesAll items) :
    ∃ e ∈ items, e.RefersTo r := by
  match items with
  | [] => cases mem
  | e :: rest =>
    rcases List.mem_append.mp mem with mem | mem
    · exact ⟨e, List.mem_cons_self, refersTo_of_mem e mem⟩
    · obtain ⟨other, inside, h⟩ := refersTo_of_memAll rest mem
      exact ⟨other, List.mem_cons_of_mem _ inside, h⟩

end

/-- The references of a tree are those of its names and calls. -/
theorem mem_references_iff {e : Expr} {r : Reference} : r ∈ e.references ↔ e.RefersTo r := by
  constructor
  · exact refersTo_of_mem e
  · intro h
    cases r
    all_goals
      obtain ⟨_, within⟩ := h
      exact references_of_within within List.mem_cons_self

/-- The error of a printed reference. -/
def absent? (functions : Entries Function) : Reference → Option ExprError
  | .variable _ => none
  | .function callee => if Entries.has functions callee then none else some (.unknownFunction callee)

mutual

/-- An expression cannot be printed exactly when a function is missing; the first one is reported. -/
theorem error?_compile (functions : Entries Function) (e : Expr) :
    error? (e.compile functions) = e.references.findSome? (absent? functions) := by
  match e with
  | literal _ => rfl
  | array items =>
    rw [compile, error?_map]
    exact error?_compileAll functions items
  | name _ _ => rfl
  | unary op operand =>
    rw [compile, error?_map]
    exact error?_compile functions operand
  | binary op left right =>
    rw [compile, references, List.findSome?_append, ← error?_compile functions left,
      ← error?_compile functions right]
    exact error?_bind fun _ => error?_map _ _
  | call function args =>
    have rest := error?_compileAll functions args
    rw [compile, references, List.findSome?_cons]
    cases found : Entries.find? functions function with
    | none => simp [absent?, Entries.has, found, error?]
    | some f => simpa [absent?, Entries.has, found, error?_map] using rest

theorem error?_compileAll (functions : Entries Function) (items : List Expr) :
    error? (compileAll functions items) = (referencesAll items).findSome? (absent? functions) := by
  match items with
  | [] => rfl
  | e :: rest =>
    rw [compileAll, referencesAll, List.findSome?_append, ← error?_compile functions e,
      ← error?_compileAll functions rest]
    exact error?_bind fun _ => error?_map _ _

end

/-- The error came from a function that a call in the expression gave the values of its arguments. -/
def Raised (functions : Entries Function) (ctx : Context) (e : Expr) (err : ExprError) : Prop :=
  ∃ function args f values, Within (.call function args) e ∧
    Entries.find? functions function = some f ∧ evalAll functions ctx args = .ok values ∧
      f.call ctx values = .error err

/-- Errors of operators on values. -/
def OfOperator : ExprError → Prop
  | .typeMismatch _ _ _ | .invalidOperand _ _ | .divisionByZero | .overflow _ => True
  | .malformed _ _ _ | .unknownVariable _ | .unknownFunction _ | .function _ _ => False

/-- What an error of an evaluation comes from. -/
inductive Cause (functions : Entries Function) (ctx : Context) (e : Expr) : ExprError → Prop where
  | operator {err : ExprError} : OfOperator err → Cause functions ctx e err
  | absent {function : String} {args : List Expr} : Within (.call function args) e →
    Entries.find? functions function = none → Cause functions ctx e (.unknownFunction function)
  | unbound {root : String} {keys : List String} : Within (.name root keys) e →
    ctx.lookup (root :: keys) = none →
      Cause functions ctx e (.unknownVariable (Text.dotted (root :: keys)))
  | raised {err : ExprError} : Raised functions ctx e err → Cause functions ctx e err

end Expr

namespace Value

open Expr

theorem checked_fails (op : String) (n : Int) : FailsWith OfOperator (checked op n) := by
  unfold checked
  split
  · exact .ok _
  · exact .error trivial

theorem applyUnary_fails (op : UnaryOp) (v : Value) : FailsWith OfOperator (applyUnary op v) := by
  cases op with
  | not => exact .ok _
  | neg =>
    cases v with
    | int n => exact checked_fails _ _
    | float x => exact .ok _
    | _ => exact .error trivial

theorem orMismatch_fails (op : BinaryOp) (left right : Value) (b : Option Bool) :
    FailsWith OfOperator (orMismatch op left right b) := by
  cases b with
  | none => exact .error trivial
  | some b => exact .ok _

theorem arithmetic_fails (op : BinaryOp) (whole : Int → Int → Int)
    (real : Binary64 → Binary64 → Binary64) (left right : Value) :
    FailsWith OfOperator (arithmetic op whole real left right) := by
  unfold arithmetic
  split
  · exact checked_fails _ _
  · split
    · exact .ok _
    · exact .error trivial

theorem divide_fails (left right : Value) : FailsWith OfOperator (divide left right) := by
  unfold divide
  split
  · split
    · exact .error trivial
    · dsimp only
      split
      · exact .ok _
      · exact .ok _
  · exact .error trivial

theorem remainder_fails (left right : Value) : FailsWith OfOperator (remainder left right) := by
  unfold remainder
  split
  · split
    · exact .error trivial
    · split
      · exact checked_fails _ _
      · exact .error trivial
  · exact .error trivial

theorem applyBinary_fails (op : BinaryOp) (left right : Value) :
    FailsWith OfOperator (applyBinary op left right) := by
  cases op with
  | or | and | concat => exact .ok _
  | compare | within | notWithin => exact orMismatch_fails _ _ _ _
  | add | sub | mul => exact arithmetic_fails _ _ _ _ _
  | div => exact divide_fails left right
  | mod => exact remainder_fails left right

end Value

namespace Expr

variable {functions : Entries Function} {ctx : Context}

theorem Cause.of_within {part e : Expr} {err : ExprError} (h : Cause functions ctx part err)
    (lift : ∀ {inner}, Within inner part → Within inner e) : Cause functions ctx e err := by
  cases h with
  | operator op => exact .operator op
  | absent within missing => exact .absent (lift within) missing
  | unbound within missing => exact .unbound (lift within) missing
  | raised h =>
    obtain ⟨function, args, f, values, within, rest⟩ := h
    exact .raised ⟨function, args, f, values, lift within, rest⟩

theorem Cause.fails {part e : Expr} {α : Type} {x : Except ExprError α}
    (h : FailsWith (Cause functions ctx part) x)
    (lift : ∀ {inner}, Within inner part → Within inner e) : FailsWith (Cause functions ctx e) x :=
  fun err failed => (h err failed).of_within lift

theorem Cause.operator_fails {e : Expr} {α : Type} {x : Except ExprError α}
    (h : FailsWith OfOperator x) : FailsWith (Cause functions ctx e) x :=
  fun err failed => .operator (h err failed)

mutual

theorem eval_fails (functions : Entries Function) (ctx : Context) (e : Expr) :
    FailsWith (Cause functions ctx e) (e.eval functions ctx) := by
  match e with
  | literal v => exact .ok v
  | array items =>
    refine FailsWith.map (fun err failed => ?_) _
    obtain ⟨item, inside, cause⟩ := evalAll_fails functions ctx items err failed
    exact cause.of_within (.item inside)
  | name root keys =>
    rw [eval]
    split
    · exact .ok _
    · rename_i missing
      exact .error (.unbound (.self _) missing)
  | unary op operand =>
    refine FailsWith.bind (Cause.fails (eval_fails functions ctx operand) .operand) fun v => ?_
    exact Cause.operator_fails (Value.applyUnary_fails op v)
  | binary op left right =>
    refine FailsWith.bind (Cause.fails (eval_fails functions ctx left) .left) fun l => ?_
    split
    · exact .ok _
    · refine FailsWith.bind (Cause.fails (eval_fails functions ctx right) .right) fun r => ?_
      exact Cause.operator_fails (Value.applyBinary_fails op l r)
  | call function args =>
    rw [eval]
    split
    · rename_i missing
      exact .error (.absent (.self _) missing)
    · rename_i f found
      intro err failed
      cases values : evalAll functions ctx args with
      | error e =>
        rw [values] at failed
        cases failed
        obtain ⟨arg, inside, cause⟩ := evalAll_fails functions ctx args err values
        exact cause.of_within (.argument inside)
      | ok vs =>
        rw [values] at failed
        exact .raised ⟨function, args, f, vs, .self _, found, values, failed⟩

theorem evalAll_fails (functions : Entries Function) (ctx : Context) (items : List Expr) :
    FailsWith (fun err => ∃ e ∈ items, Cause functions ctx e err) (evalAll functions ctx items) := by
  match items with
  | [] => exact .ok _
  | e :: rest =>
    rw [evalAll]
    refine FailsWith.bind (fun err failed => ?_) fun v => FailsWith.map (fun err failed => ?_) _
    · exact ⟨e, List.mem_cons_self, eval_fails functions ctx e err failed⟩
    · obtain ⟨other, inside, cause⟩ := evalAll_fails functions ctx rest err failed
      exact ⟨other, List.mem_cons_of_mem _ inside, cause⟩

end

/-- What may go wrong in an evaluation in scope. A name is unknown only in a function's own error, or
where a path leads nowhere from a root that is bound. -/
def InScope (functions : Entries Function) (ctx : Context) (e : Expr) : ExprError → Prop
  | .unknownFunction callee => Raised functions ctx e (.unknownFunction callee)
  | .unknownVariable path => Raised functions ctx e (.unknownVariable path) ∨
    ∃ root keys, Within (.name root keys) e ∧ ctx.has root = true ∧ keys ≠ [] ∧
      path = Text.dotted (root :: keys)
  | _ => True

theorem Cause.inScope {e : Expr} {err : ExprError} (h : Cause functions ctx e err)
    (roots : ∀ root keys, Within (.name root keys) e → ctx.has root = true)
    (callees : ∀ callee args, Within (.call callee args) e → Entries.has functions callee = true) :
    InScope functions ctx e err := by
  cases h with
  | operator op =>
    cases err with
    | unknownVariable _ | unknownFunction _ => cases op
    | _ => trivial
  | absent within missing =>
    have found := callees _ _ within
    rw [Entries.has, missing] at found
    cases found
  | @unbound root keys within missing =>
    have bound := roots root keys within
    refine .inr ⟨root, keys, within, bound, fun no_keys => ?_, rfl⟩
    obtain ⟨v, found⟩ := Option.isSome_iff_exists.mp bound
    rw [no_keys, Context.lookup, found] at missing
    cases missing
  | raised h =>
    cases err with
    | unknownVariable _ => exact .inl h
    | unknownFunction _ => exact h
    | _ => trivial

end Expr

namespace Language

open Expr

/-- The variable is among the names, or the function is registered. -/
def Allows (l : Language) (names : List String) : Reference → Prop
  | .variable root => root ∈ names
  | .function callee => Entries.has l.functions callee = true

/-- The error of a reference that is not allowed. -/
def unknown : Reference → ExprError
  | .variable root => .unknownVariable root
  | .function callee => .unknownFunction callee

variable {l : Language} {source : String} {names : List String}

theorem refusal?_eq_none_iff {r : Reference} : l.refusal? names r = none ↔ l.Allows names r := by
  cases r <;> exact refusal?_none_iff

theorem refusal?_of_not_allows {r : Reference} (h : ¬ l.Allows names r) :
    l.refusal? names r = some (unknown r) := by
  cases r <;> exact if_neg h

theorem check_ok_iff_allows {e : Expr} :
    l.check names e = .ok () ↔ ∀ r, e.RefersTo r → l.Allows names r := by
  rw [check_ok_iff]
  constructor
  · intro h r refers
    exact refusal?_eq_none_iff.mp (h r (mem_references_iff.mpr refers))
  · intro h r mem
    exact refusal?_eq_none_iff.mpr (h r (mem_references_iff.mp mem))

/-- The first reference that is not allowed is reported. -/
theorem check_of_not_allows {e : Expr} {r : Reference} (refers : e.RefersTo r)
    (bad : ¬ l.Allows names r) :
    ∃ before first after, e.references = before ++ first :: after ∧
      (∀ b ∈ before, l.Allows names b) ∧ ¬ l.Allows names first ∧
        l.check names e = .error (unknown first) := by
  have refused : e.references.findSome? (l.refusal? names) ≠ none := by
    intro none
    have allowed := List.findSome?_eq_none_iff.mp none r (mem_references_iff.mpr refers)
    exact bad (refusal?_eq_none_iff.mp allowed)
  obtain ⟨err, found⟩ := Option.ne_none_iff_exists'.mp refused
  obtain ⟨before, first, after, parted, refusal, allowed⟩ := List.findSome?_eq_some_iff.mp found
  have not_allowed : ¬ l.Allows names first := by
    intro allows
    rw [refusal?_eq_none_iff.mpr allows] at refusal
    cases refusal
  refine ⟨before, first, after, parted, fun b mem => refusal?_eq_none_iff.mp (allowed b mem),
    not_allowed, ?_⟩
  rw [refusal?_of_not_allows not_allowed, Option.some.injEq] at refusal
  rw [check, found, refusal]

theorem compile_fst (l : Language) (store : ParseStore) (source : String) (names : List String) :
    (l.compile store source names).1 =
      (l.parse store source names).1.bind fun p => p.expr.compile l.functions := rfl

theorem evaluate_fst (l : Language) (store : ParseStore) (source : String) (ctx : Context) :
    (l.evaluate store source ctx).1 =
      (l.parse store source ctx.names).1.bind fun p => p.expr.eval l.functions ctx := rfl

theorem parse_empty (l : Language) (source : String) (names : List String) :
    (l.parse [] source names).1 = l.parseFresh source names := by
  simp only [parse, Entries.find?]
  cases l.parseFresh source names <;> rfl

/-- The empty store, and the store once the text was read. -/
def stores (l : Language) (source : String) (names : List String) : List ParseStore :=
  [[], (l.parse [] source names).2]

/-- What was read is read again from either store, in whatever order the names come. -/
theorem parse_again {p : Parsed} (read : (l.parse [] source names).1 = .ok p) {names' : List String}
    (same : ∀ n, n ∈ names' ↔ n ∈ names) {store : ParseStore} (mem : store ∈ l.stores source names) :
    ∃ q, (l.parse store source names').1 = .ok q ∧ q.expr = p.expr := by
  have fresh := (l.parse_empty source names).symm.trans read
  rcases List.mem_pair.mp mem with rfl | rfl
  · refine ⟨⟨source, names', p.expr⟩, ?_, rfl⟩
    rw [parse_empty]
    exact parseFresh_of_extends (fun _ known => known) fresh fun n => (same n).mpr
  · have key : requestKey source names' = requestKey source names := by
      have sets : names'.toFinset = names.toFinset := Finset.ext fun n => by simpa using same n
      rw [requestKey_eq, requestKey_eq, sortedNames_eq_iff.mpr sets]
    refine ⟨p, ?_, rfl⟩
    simp [parse, Entries.find?, fresh, Entries.put, key]

/-- What holds of a text under given names in a language whose store was empty. -/
structure WellScoped (l : Language) (source : String) (names : List String) : Prop where
  accepted : (∃ p, (l.parse [] source names).1 = .ok p) ↔
    ∃ e, Expr.parse source = .ok e ∧ ∀ r, e.RefersTo r → l.Allows names r
  tree : ∀ p, (l.parse [] source names).1 = .ok p → Expr.parse source = .ok p.expr
  malformed : ∀ err, Expr.parse source = .error err → (l.parse [] source names).1 = .error err
  mentioned : ∀ e, Expr.parse source = .ok e →
    ∀ r, r ∈ Parser.mentioned source.toList ↔ e.RefersTo r
  reported : ∀ e, Expr.parse source = .ok e → ∀ r, e.RefersTo r → ¬ l.Allows names r →
    ∃ before first after, Parser.mentioned source.toList = before ++ first :: after ∧
      (∀ b ∈ before, l.Allows names b) ∧ ¬ l.Allows names first ∧
        (l.parse [] source names).1 = .error (unknown first)
  printed : ∀ p, (l.parse [] source names).1 = .ok p →
    ∃ text, p.expr.compile l.functions = .ok text ∧
      ∀ store ∈ l.stores source names, (l.compile store source names).1 = .ok text
  evaluated : ∀ p, (l.parse [] source names).1 = .ok p →
    ∀ ctx : Context, (∀ n, n ∈ ctx.names ↔ n ∈ names) → ∀ store ∈ l.stores source names,
      FailsWith (InScope l.functions ctx p.expr) (l.evaluate store source ctx).1

theorem allows_of_parse {p : Parsed} (read : (l.parse [] source names).1 = .ok p) :
    Expr.parse source = .ok p.expr ∧ ∀ r, p.expr.RefersTo r → l.Allows names r := by
  rw [parse_empty] at read
  obtain ⟨e, parsed, checked, rfl⟩ := parseFresh_ok_iff.mp read
  exact ⟨parsed, check_ok_iff_allows.mp checked⟩

theorem compile_of_parse {p : Parsed} (read : (l.parse [] source names).1 = .ok p) :
    ∃ text, p.expr.compile l.functions = .ok text ∧
      ∀ store ∈ l.stores source names, (l.compile store source names).1 = .ok text := by
  obtain ⟨_, allowed⟩ := allows_of_parse read
  have no_absent : p.expr.references.findSome? (absent? l.functions) = none := by
    refine List.findSome?_eq_none_iff.mpr fun r mem => ?_
    have allows := allowed r (mem_references_iff.mp mem)
    cases r with
    | «variable» root => rfl
    | function callee => exact if_pos allows
  obtain ⟨text, printed⟩ := error?_none_iff.mp ((error?_compile l.functions p.expr).trans no_absent)
  refine ⟨text, printed, fun store mem => ?_⟩
  obtain ⟨q, again, same⟩ := parse_again read (fun _ => Iff.rfl) mem
  rw [compile_fst, again]
  exact (congrArg (Expr.compile l.functions) same).trans printed

theorem evaluate_of_parse {p : Parsed} (read : (l.parse [] source names).1 = .ok p) {ctx : Context}
    (same : ∀ n, n ∈ ctx.names ↔ n ∈ names) {store : ParseStore}
    (mem : store ∈ l.stores source names) :
    FailsWith (InScope l.functions ctx p.expr) (l.evaluate store source ctx).1 := by
  obtain ⟨_, allowed⟩ := allows_of_parse read
  obtain ⟨q, again, tree⟩ := parse_again read same mem
  have evaluates : (l.evaluate store source ctx).1 = p.expr.eval l.functions ctx := by
    rw [evaluate_fst, again, ← tree]
    rfl
  rw [evaluates]
  intro err failed
  refine (eval_fails l.functions ctx p.expr err failed).inScope (fun root keys within => ?_)
    fun callee args within => ?_
  · have bound : root ∈ ctx.names := (same root).mpr (allowed (.variable root) ⟨keys, within⟩)
    rw [Context.has, Entries.has, Option.isSome_iff_ne_none]
    intro missing
    exact (Entries.find?_eq_none_iff _ _).mp missing bound
  · exact allowed (.function callee) ⟨args, within⟩

theorem wellScoped (l : Language) (source : String) (names : List String) :
    l.WellScoped source names where
  accepted := by
    constructor
    · rintro ⟨p, read⟩
      exact ⟨p.expr, allows_of_parse read⟩
    · rintro ⟨e, parsed, allowed⟩
      rw [parse_empty]
      exact ⟨_, parseFresh_ok_iff.mpr ⟨e, parsed, check_ok_iff_allows.mpr allowed, rfl⟩⟩
  tree p read := (allows_of_parse read).1
  malformed err failed := by rw [parse_empty, parseFresh, failed]; rfl
  mentioned e parsed r := by rw [mentioned_of_parse parsed, mem_references_iff]
  reported e parsed r refers bad := by
    rw [mentioned_of_parse parsed, parse_empty, parseFresh, parsed]
    obtain ⟨before, first, after, parted, allowed, not_allowed, checked⟩ :=
      check_of_not_allows refers bad
    refine ⟨before, first, after, parted, allowed, not_allowed, ?_⟩
    rw [Except.bind, checked]
    rfl
  printed p read := compile_of_parse read
  evaluated p read ctx same store mem := evaluate_of_parse read same mem

/-- A path that leads nowhere from a bound root is reported whole. -/
example : (evaluate {} [] "false or a.b" ⟨[("a", .map [])]⟩).1 = .error (.unknownVariable "a.b") := by
  cbv

end Language

end RuleRegistry
